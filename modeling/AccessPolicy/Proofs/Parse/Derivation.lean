import AccessPolicy.Proofs.Parse.Complete
import AccessPolicy.Proofs.Parse.Phrase

/-! # Phrases are what the readers take

From a derivation of a reader the phrase is the part of the tokens that it takes; the expression
that a chain or a run of steps started from turns into a list of suffixes. In the other direction
the room for the levels of a phrase is found part by part, so room has to be given up freely
(`Reads.mono`). -/

namespace AccessPolicy

namespace Parse

variable {ts rest : List Kind} {e : Expr}

theorem Reads.mono {r : Reader} {n : Nat} {t : Tree} (h : Reads r n ts t rest) :
    ∀ {m : Nat}, n ≤ m → Reads r m ts t rest := by
  -- Only the rules that take a level look at the room, and there the larger one is a successor.
  induction h with
  | expr_if _ ih =>
    intro m hm
    obtain ⟨m, rfl⟩ := Nat.exists_eq_add_of_le' hm
    exact .expr_if (ih (Nat.le_add_left _ _))
  | expr_chain hif _ ih =>
    intro m hm
    obtain ⟨m, rfl⟩ := Nat.exists_eq_add_of_le' hm
    exact .expr_chain hif (ih (Nat.le_add_left _ _))
  | conditional _ _ _ ih₁ ih₂ ih₃ => exact fun hm => .conditional (ih₁ hm) (ih₂ hm) (ih₃ hm)
  | chain _ _ ih₁ ih₂ => exact fun hm => .chain (ih₁ hm) (ih₂ hm)
  | chainRest_stop hstop => exact fun _ => .chainRest_stop hstop
  | chainRest_step hk _ _ ih₁ ih₂ =>
    intro m hm
    obtain ⟨m, rfl⟩ := Nat.exists_eq_add_of_le' hm
    exact .chainRest_step hk (ih₁ (Nat.le_add_left _ _)) (ih₂ (Nat.le_add_left _ _))
  | relation _ hstop ih => exact fun hm => .relation (ih hm) hstop
  | relation_binary _ hk _ ih₁ ih₂ => exact fun hm => .relation_binary (ih₁ hm) hk (ih₂ hm)
  | relation_has _ hk ih => exact fun hm => .relation_has (ih hm) hk
  | relation_like _ hp ih => exact fun hm => .relation_like (ih hm) hp
  | relation_is _ hend hin ih => exact fun hm => .relation_is (ih hm) hend hin
  | relation_isIn _ _ ih₁ ih₂ => exact fun hm => .relation_isIn (ih₁ hm) (ih₂ hm)
  | unary_not _ ih =>
    intro m hm
    obtain ⟨m, rfl⟩ := Nat.exists_eq_add_of_le' hm
    exact .unary_not (ih (Nat.le_add_left _ _))
  | unary_neg hint _ ih =>
    intro m hm
    obtain ⟨m, rfl⟩ := Nat.exists_eq_add_of_le' hm
    exact .unary_neg hint (ih (Nat.le_add_left _ _))
  | unary_long hi _ ih =>
    intro m hm
    obtain ⟨m, rfl⟩ := Nat.exists_eq_add_of_le' hm
    exact .unary_long hi (ih (Nat.le_add_left _ _))
  | unary hbang hminus _ _ ih₁ ih₂ => exact fun hm => .unary hbang hminus (ih₁ hm) (ih₂ hm)
  | steps_stop hstop => exact fun _ => .steps_stop hstop
  | steps_method _ _ ih₁ ih₂ =>
    intro m hm
    obtain ⟨m, rfl⟩ := Nat.exists_eq_add_of_le' hm
    exact .steps_method (ih₁ (Nat.le_add_left _ _)) (ih₂ (Nat.le_add_left _ _))
  | steps_attr hparen _ ih =>
    intro m hm
    obtain ⟨m, rfl⟩ := Nat.exists_eq_add_of_le' hm
    exact .steps_attr hparen (ih (Nat.le_add_left _ _))
  | steps_index hd _ ih =>
    intro m hm
    obtain ⟨m, rfl⟩ := Nat.exists_eq_add_of_le' hm
    exact .steps_index hd (ih (Nat.le_add_left _ _))
  | items_nil => exact fun _ => .items_nil
  | items_last hhead _ ih => exact fun hm => .items_last hhead (ih hm)
  | items_cons hhead hclose _ _ ih₁ ih₂ =>
    exact fun hm => .items_cons hhead hclose (ih₁ hm) (ih₂ hm)
  | fields_nil => exact fun _ => .fields_nil
  | fields_last hk hseen _ ih => exact fun hm => .fields_last hk hseen (ih hm)
  | fields_cons hk hseen _ _ ih₁ ih₂ => exact fun hm => .fields_cons hk hseen (ih₁ hm) (ih₂ hm)
  | primary_int hi => exact fun _ => .primary_int hi
  | primary_string hd => exact fun _ => .primary_string hd
  | primary_paren _ ih => exact fun hm => .primary_paren (ih hm)
  | primary_set _ ih => exact fun hm => .primary_set (ih hm)
  | primary_record _ ih => exact fun hm => .primary_record (ih hm)
  | primary_if _ ih =>
    intro m hm
    obtain ⟨m, rfl⟩ := Nat.exists_eq_add_of_le' hm
    exact .primary_if (ih (Nat.le_add_left _ _))
  | primary_true => exact fun _ => .primary_true
  | primary_false => exact fun _ => .primary_false
  | primary_entity hword hd => exact fun _ => .primary_entity hword hd
  | primary_call hword _ ih => exact fun hm => .primary_call hword (ih hm)
  | primary_name hword hcolons hparen => exact fun _ => .primary_name hword hcolons hparen

/-! ## From readers to phrases -/

/-- The first of the tokens, up to `rest`, are the phrase that the reader takes. -/
def Reader.Phrase : Reader → List Kind → Tree → List Kind → Prop
  | .expr, ts, .expr e, rest => ∃ us, ts = us ++ rest ∧ Derives .expr us (.expr e) rest
  | .conditional, ts, .expr e, rest =>
    ∃ us, ts = us ++ rest ∧ Derives .expr (.ident "if" :: us) (.expr e) rest
  | .chain l, ts, .expr e, rest => ∃ us, ts = us ++ rest ∧ Derives (.chain l) us (.expr e) rest
  | .chainRest l lhs, ts, .expr e, rest => ∃ us fs,
    ts = us ++ rest ∧ e = applyAll fs lhs ∧ Derives (.operators l) us (.suffixes fs) rest
  | .relation, ts, .expr e, rest => ∃ us, ts = us ++ rest ∧ Derives .relation us (.expr e) rest
  | .unary, ts, .expr e, rest => ∃ us, ts = us ++ rest ∧ Derives .unary us (.expr e) rest
  | .steps e, ts, .expr e', rest => ∃ us fs,
    ts = us ++ rest ∧ e' = applyAll fs e ∧ Derives .steps us (.suffixes fs) rest
  | .items close, ts, .items es, rest => ∀ enc : Enclosure, enc.close = close →
    ∃ us, ts = us ++ rest ∧ Derives (.items enc) us (.items es) rest
  | .fields seen, ts, .fields fs, rest =>
    ((fs.map Prod.fst).Nodup ∧ ∀ key ∈ fs.map Prod.fst, key ∉ seen) ∧
      ∃ us, ts = us ++ rest ∧ Derives .fields us (.fields fs) rest
  | .primary, ts, .expr e, rest => ∃ us, ts = us ++ rest ∧ Derives .primary us (.expr e) rest
  | _, _, _, _ => True

theorem Level.phrase_inner {l : Level} (h : l.inner.Phrase ts (.expr e) rest) :
    ∃ us, ts = us ++ rest ∧ Derives l.operand us (.expr e) rest := by
  cases l <;> exact h

theorem head?_ne_of_append {k : Kind} {us : List Kind} (h : (us ++ rest).head? ≠ some k) :
    us.head? ≠ some k := by
  cases us with
  | nil => simp
  | cons u us => exact h

theorem Reads.phrase {r : Reader} {n : Nat} {t : Tree} (h : Reads r n ts t rest) :
    r.Phrase ts t rest := by
  induction h with
  | expr_if _ ih =>
    obtain ⟨us, rfl, hd⟩ := ih
    exact ⟨_, rfl, hd⟩
  | expr_chain hif _ ih =>
    obtain ⟨us, rfl, hd⟩ := ih
    exact ⟨us, rfl, .expr_chain (head?_ne_of_append hif) hd⟩
  | conditional _ _ _ ih₁ ih₂ ih₃ =>
    obtain ⟨vs, rfl, helse⟩ := ih₃
    obtain ⟨us, rfl, hthen⟩ := ih₂
    obtain ⟨ts, rfl, htest⟩ := ih₁
    exact ⟨_, by simp, .expr_cond htest hthen helse⟩
  | chain _ _ ih₁ ih₂ =>
    obtain ⟨us, fs, rfl, rfl, hops⟩ := ih₂
    obtain ⟨ts, rfl, hlhs⟩ := Level.phrase_inner ih₁
    exact ⟨_, by simp, .chain hlhs hops⟩
  | chainRest_stop hstop => exact ⟨[], [], rfl, rfl, .operators_nil hstop⟩
  | chainRest_step hk _ _ ih₁ ih₂ =>
    obtain ⟨us, fs, rfl, rfl, hops⟩ := ih₂
    obtain ⟨ts, rfl, hrhs⟩ := Level.phrase_inner ih₁
    exact ⟨_, _, by simp, rfl, .operators_cons hk hrhs hops⟩
  | relation _ hstop ih =>
    obtain ⟨us, rfl, hd⟩ := ih
    exact ⟨us, rfl, .relation hd hstop⟩
  | relation_binary _ hk _ ih₁ ih₂ =>
    obtain ⟨us, rfl, hrhs⟩ := ih₂
    obtain ⟨ts, rfl, hlhs⟩ := ih₁
    exact ⟨_, by simp, .relation_binary hlhs hk hrhs⟩
  | relation_has _ hk ih =>
    obtain ⟨ts, rfl, hlhs⟩ := ih
    exact ⟨_, by simp, .relation_has hlhs hk⟩
  | relation_like _ hp ih =>
    obtain ⟨ts, rfl, hlhs⟩ := ih
    exact ⟨_, by simp, .relation_like hlhs hp⟩
  | relation_is _ hend hin ih =>
    obtain ⟨ts, rfl, hlhs⟩ := ih
    exact ⟨_, by simp, .relation_is hlhs hend hin⟩
  | relation_isIn _ _ ih₁ ih₂ =>
    obtain ⟨us, rfl, htarget⟩ := ih₂
    obtain ⟨ts, rfl, hlhs⟩ := ih₁
    exact ⟨_, by simp, .relation_isIn hlhs htarget⟩
  | unary_not _ ih =>
    obtain ⟨us, rfl, hd⟩ := ih
    exact ⟨_, rfl, .unary_not hd⟩
  | unary_neg hint _ ih =>
    obtain ⟨us, rfl, hd⟩ := ih
    refine ⟨_, rfl, .unary_neg (fun i => ?_) hd⟩
    exact head?_ne_of_append (head?_ne_of_forall fun vs hvs => hint i vs hvs)
  | unary_long hi _ ih =>
    obtain ⟨us, fs, rfl, rfl, hsteps⟩ := ih
    exact ⟨_, rfl, .unary_long hi hsteps⟩
  | unary _ _ _ _ ih₁ ih₂ =>
    obtain ⟨us, fs, rfl, rfl, hsteps⟩ := ih₂
    obtain ⟨ts, rfl, hd⟩ := ih₁
    exact ⟨_, by simp, .unary_member (.member hd hsteps)⟩
  | steps_stop hstop => exact ⟨[], [], rfl, rfl, .steps_nil hstop⟩
  | @steps_method n e name ts ts₁ rest args e' _ _ ih₁ ih₂ =>
    obtain ⟨us, fs, rfl, rfl, hsteps⟩ := ih₂
    obtain ⟨ts, rfl, hargs⟩ := ih₁ .parens rfl
    exact ⟨_, (.method · name args) :: fs, by simp, rfl, .steps_method hargs hsteps⟩
  | steps_attr hparen _ ih =>
    obtain ⟨us, fs, rfl, rfl, hsteps⟩ := ih
    exact ⟨_, _, rfl, rfl, .steps_attr hparen hsteps⟩
  | steps_index hraw _ ih =>
    obtain ⟨us, fs, rfl, rfl, hsteps⟩ := ih
    exact ⟨_, _, rfl, rfl, .steps_index hraw hsteps⟩
  | items_nil =>
    rintro enc rfl
    exact ⟨_, rfl, .items_nil⟩
  | items_last _ _ ih =>
    rintro enc rfl
    obtain ⟨us, rfl, hd⟩ := ih
    exact ⟨_, by simp, .items_last hd⟩
  | items_cons _ _ _ _ ih₁ ih₂ =>
    intro enc henc
    obtain ⟨us, rfl, hes⟩ := ih₂ enc henc
    obtain ⟨ts, rfl, hd⟩ := ih₁
    exact ⟨_, by simp, .items_cons hd hes⟩
  | fields_nil => exact ⟨⟨.nil, by simp⟩, _, rfl, .fields_nil⟩
  | fields_last hk hseen _ ih =>
    obtain ⟨us, rfl, hd⟩ := ih
    exact ⟨⟨by simp, by simpa using hseen⟩, _, by simp, .fields_last hk hd⟩
  | fields_cons hk hseen _ _ ih₁ ih₂ =>
    obtain ⟨⟨hnodup, hfresh⟩, us, rfl, hfs⟩ := ih₂
    obtain ⟨ts, rfl, hd⟩ := ih₁
    refine ⟨⟨?_, ?_⟩, _, by simp, .fields_cons hk hd hfs⟩
    · exact List.nodup_cons.2 ⟨fun hm => hfresh _ hm List.mem_cons_self, hnodup⟩
    · exact List.forall_mem_cons.2
        ⟨hseen, fun key hkey hm => hfresh key hkey (List.mem_cons_of_mem _ hm)⟩
  | primary_int hi => exact ⟨_, rfl, .primary_int hi⟩
  | primary_string hraw => exact ⟨_, rfl, .primary_string hraw⟩
  | primary_paren _ ih =>
    obtain ⟨us, rfl, hd⟩ := ih
    exact ⟨_, by simp, .primary_paren hd⟩
  | primary_set _ ih =>
    obtain ⟨us, rfl, hd⟩ := ih .brackets rfl
    exact ⟨_, rfl, .primary_set hd⟩
  | primary_record _ ih =>
    obtain ⟨⟨hnodup, -⟩, us, rfl, hd⟩ := ih
    exact ⟨_, rfl, .primary_record hd hnodup⟩
  | primary_if _ ih =>
    obtain ⟨us, rfl, hd⟩ := ih
    exact ⟨_, rfl, .primary_cond hd⟩
  | primary_true => exact ⟨_, rfl, .primary_true⟩
  | primary_false => exact ⟨_, rfl, .primary_false⟩
  | primary_entity hword hraw => exact ⟨_, by simp, .primary_entity hword hraw⟩
  | primary_call hword _ ih =>
    obtain ⟨us, rfl, hd⟩ := ih .parens rfl
    exact ⟨_, by simp, .primary_call hword hd⟩
  | primary_name hword hcolons hparen => exact ⟨_, rfl, .primary_name hword hcolons hparen⟩

/-! ## From phrases to readers -/

/-- With room enough, the reader of the category takes the phrase. -/
def Category.Readable (ts rest : List Kind) : Category → Meaning → Prop
  | .expr, .expr e => ∃ n, Reads .expr n ts (.expr e) rest
  | .chain l, .expr e => ∃ n, Reads (.chain l) n ts (.expr e) rest
  | .operators l, .suffixes fs =>
    ∀ lhs, ∃ n, Reads (.chainRest l lhs) n ts (.expr (applyAll fs lhs)) rest
  | .relation, .expr e => ∃ n, Reads .relation n ts (.expr e) rest
  | .unary, .expr e => ∃ n, Reads .unary n ts (.expr e) rest
  | .member, .expr e => ∃ n, Reads .unary n ts (.expr e) rest
  | .steps, .suffixes fs => ∀ e, ∃ n, Reads (.steps e) n ts (.expr (applyAll fs e)) rest
  | .items enc, .items es => ∃ n, Reads (.items enc.close) n ts (.items es) rest
  | .fields, .fields fs => ∀ seen, (fs.map Prod.fst).Nodup →
    (∀ key ∈ fs.map Prod.fst, key ∉ seen) → ∃ n, Reads (.fields seen) n ts (.fields fs) rest
  | .primary, .expr e => ∃ n, Reads .primary n ts (.expr e) rest
  | _, _ => True

theorem Level.readable_operand {l : Level} (h : l.operand.Readable ts rest (.expr e)) :
    ∃ n, Reads l.inner n ts (.expr e) rest := by
  cases l <;> exact h

/-- Two readers have room enough at once. -/
theorem exists_room {r r' : Reader} {t t' : Tree} {ts' rest' : List Kind}
    (h : ∃ n, Reads r n ts t rest) (h' : ∃ n, Reads r' n ts' t' rest') :
    ∃ n, Reads r n ts t rest ∧ Reads r' n ts' t' rest' := by
  obtain ⟨n, h⟩ := h
  obtain ⟨m, h'⟩ := h'
  exact ⟨max n m, h.mono (Nat.le_max_left n m), h'.mono (Nat.le_max_right n m)⟩

theorem head?_append_ne {p : Kind → Prop} {k : Kind} {us : List Kind}
    (h : ∃ k vs, us = k :: vs ∧ p k) (hk : ∀ {u}, p u → u ≠ k) :
    (us ++ rest).head? ≠ some k := by
  obtain ⟨u, vs, rfl, hu⟩ := h
  simpa using hk hu

theorem Derives.readable {c : Category} {us : List Kind} {m : Meaning}
    (h : Derives c us m rest) : c.Readable (us ++ rest) rest m := by
  induction h with
  | expr_cond _ _ _ ih₁ ih₂ ih₃ =>
    obtain ⟨n, hthen, helse⟩ := exists_room ih₂ ih₃
    obtain ⟨m, htest, hthen⟩ := exists_room ih₁ ⟨n, hthen⟩
    have hm := Nat.le_max_left m n
    have hn := Nat.le_max_right m n
    simp only [List.cons_append, List.append_assoc] at *
    exact ⟨_, .expr_if (.conditional (htest.mono hm) (hthen.mono hm) (helse.mono hn))⟩
  | @expr_chain ts rest e hif h ih =>
    obtain ⟨n, hr⟩ := ih
    obtain ⟨k, vs, rfl, -⟩ := h.startsWith
    exact ⟨_, .expr_chain hif hr⟩
  | chain _ _ ih₁ ih₂ =>
    obtain ⟨n, hlhs, hops⟩ := exists_room (Level.readable_operand ih₁) (ih₂ _)
    rw [List.append_assoc]
    exact ⟨n, .chain hlhs hops⟩
  | operators_nil hstop => exact fun _ => ⟨0, .chainRest_stop hstop⟩
  | operators_cons hk _ _ ih₁ ih₂ =>
    intro lhs
    obtain ⟨n, hrhs, hops⟩ := exists_room (Level.readable_operand ih₁) (ih₂ _)
    rw [List.cons_append, List.append_assoc]
    exact ⟨_, .chainRest_step hk hrhs hops⟩
  | relation _ hstop ih =>
    obtain ⟨n, hr⟩ := ih
    exact ⟨n, .relation hr hstop⟩
  | relation_binary _ hk _ ih₁ ih₂ =>
    obtain ⟨n, hlhs, hrhs⟩ := exists_room ih₁ ih₂
    rw [List.append_assoc]
    exact ⟨n, .relation_binary hlhs hk hrhs⟩
  | relation_has _ hk ih =>
    obtain ⟨n, hlhs⟩ := ih
    rw [List.append_assoc]
    exact ⟨n, .relation_has hlhs hk⟩
  | relation_like _ hp ih =>
    obtain ⟨n, hlhs⟩ := ih
    rw [List.append_assoc]
    exact ⟨n, .relation_like hlhs hp⟩
  | relation_is _ hend hin ih =>
    obtain ⟨n, hlhs⟩ := ih
    simp only [List.append_assoc, List.cons_append]
    exact ⟨n, .relation_is hlhs hend hin⟩
  | relation_isIn _ _ ih₁ ih₂ =>
    obtain ⟨n, hlhs, htarget⟩ := exists_room ih₁ ih₂
    simp only [List.append_assoc, List.cons_append]
    exact ⟨n, .relation_isIn hlhs htarget⟩
  | unary_not _ ih =>
    obtain ⟨n, hr⟩ := ih
    exact ⟨_, .unary_not hr⟩
  | unary_neg hint h ih =>
    obtain ⟨n, hr⟩ := ih
    obtain ⟨k, vs, rfl, -⟩ := h.startsWith
    refine ⟨_, .unary_neg ?_ hr⟩
    rintro i us hus
    cases hus
    exact hint i rfl
  | unary_long hi _ ih =>
    obtain ⟨n, hr⟩ := ih _
    exact ⟨_, .unary_long hi hr⟩
  | unary_member _ ih => exact ih
  | @member ts us rest e fs h _ ih₁ ih₂ =>
    obtain ⟨n, hr, hsteps⟩ := exists_room ih₁ (ih₂ e)
    rw [List.append_assoc]
    exact ⟨n, .unary (head?_append_ne h.startsWith StartsPrimary.ne_bang)
      (head?_append_ne h.startsWith StartsPrimary.ne_minus) hr hsteps⟩
  | steps_nil hstop => exact fun _ => ⟨0, .steps_stop hstop⟩
  | steps_method _ _ ih₁ ih₂ =>
    intro e
    obtain ⟨n, hargs, hsteps⟩ := exists_room ih₁ (ih₂ _)
    simp only [List.cons_append, List.append_assoc]
    exact ⟨_, .steps_method hargs hsteps⟩
  | steps_attr hparen _ ih =>
    intro e
    obtain ⟨n, hsteps⟩ := ih _
    exact ⟨_, .steps_attr hparen hsteps⟩
  | steps_index hraw _ ih =>
    intro e
    obtain ⟨n, hsteps⟩ := ih _
    exact ⟨_, .steps_index hraw hsteps⟩
  | items_nil => exact ⟨0, .items_nil⟩
  | @items_last enc ts rest e h ih =>
    obtain ⟨n, hr⟩ := ih
    rw [List.append_assoc]
    exact ⟨n, .items_last (head?_append_ne h.startsWith (StartsOperand.ne_close · enc)) hr⟩
  | @items_cons enc ts us rest e es h _ ih₁ ih₂ =>
    obtain ⟨n, hr, hes⟩ := exists_room ih₁ ih₂
    rw [List.append_assoc]
    exact ⟨n, .items_cons (head?_append_ne h.startsWith (StartsOperand.ne_close · enc))
      enc.close_ne_comma hr hes⟩
  | fields_nil => exact fun _ _ _ => ⟨0, .fields_nil⟩
  | fields_last hk _ ih =>
    intro seen _ hfresh
    obtain ⟨n, hr⟩ := ih
    simp only [List.cons_append, List.append_assoc]
    exact ⟨n, .fields_last hk (hfresh _ List.mem_cons_self) hr⟩
  | @fields_cons k key ts us rest e fs hk _ _ ih₁ ih₂ =>
    intro seen hnodup hfresh
    obtain ⟨hkey, hnodup⟩ := List.nodup_cons.1 hnodup
    obtain ⟨hseen, hfresh⟩ := List.forall_mem_cons.1 hfresh
    have hnew : ∀ j ∈ fs.map Prod.fst, j ∉ key :: seen := fun j hj hm =>
      (List.mem_cons.1 hm).elim (fun hjk => hkey (hjk ▸ hj)) (hfresh j hj)
    obtain ⟨n, hr, hfs⟩ := exists_room ih₁ (ih₂ (key :: seen) hnodup hnew)
    simp only [List.cons_append, List.append_assoc]
    exact ⟨n, .fields_cons hk hseen hr hfs⟩
  | primary_int hi => exact ⟨0, .primary_int hi⟩
  | primary_string hraw => exact ⟨0, .primary_string hraw⟩
  | primary_true => exact ⟨0, .primary_true⟩
  | primary_false => exact ⟨0, .primary_false⟩
  | primary_name hword hcolons hparen => exact ⟨0, .primary_name hword hcolons hparen⟩
  | primary_entity hword hraw =>
    rw [List.cons_append, List.append_assoc]
    exact ⟨0, .primary_entity hword hraw⟩
  | primary_call hword _ ih =>
    obtain ⟨n, hargs⟩ := ih
    rw [List.cons_append, List.append_assoc]
    exact ⟨n, .primary_call hword hargs⟩
  | primary_paren _ ih =>
    obtain ⟨n, hr⟩ := ih
    rw [List.cons_append, List.append_assoc]
    exact ⟨n, .primary_paren hr⟩
  | primary_set _ ih =>
    obtain ⟨n, hr⟩ := ih
    exact ⟨n, .primary_set hr⟩
  | primary_record _ hkeys ih =>
    obtain ⟨n, hr⟩ := ih [] hkeys (by simp)
    exact ⟨n, .primary_record hr⟩
  | primary_cond _ ih =>
    obtain ⟨n, hr⟩ := ih
    cases hr with
    | expr_if hr => exact ⟨_, .primary_if hr⟩
    | expr_chain hif => exact absurd rfl hif

/-- **The expressions are what the reader of expressions takes, given room enough.** -/
theorem derives_expr_iff {us : List Kind} :
    Derives .expr us (.expr e) rest ↔ ∃ n, Reads .expr n (us ++ rest) (.expr e) rest := by
  constructor
  · exact fun h => h.readable
  · rintro ⟨n, h⟩
    obtain ⟨vs, hvs, hd⟩ := h.phrase
    exact List.append_cancel_right hvs ▸ hd

end Parse

end AccessPolicy
