import AccessPolicy.Proofs.Parse.Derivation
import AccessPolicy.Proofs.Policy.Grammar
import AccessPolicy.Proofs.Token.Brackets
import Mathlib.Data.List.Basic

/-! # Policies of a text as spans of its tokens

A semicolon ends a policy and stands nowhere else, so the policies of an accepted text are told by
its tokens without the parser. In front of the conditions there are no curly brackets either, so
that whatever stands there is told by the same lemmas. -/

namespace AccessPolicy

/-- The tokens before `rest` all have a property. -/
def AllTo (P : Kind → Prop) (ts rest : List Kind) : Prop := ∃ us, ts = us ++ rest ∧ ∀ k ∈ us, P k

namespace AllTo

variable {P Q : Kind → Prop} {ts ts' rest : List Kind}

theorem refl (ts : List Kind) : AllTo P ts ts := ⟨[], rfl, List.forall_mem_nil P⟩

theorem cons {k : Kind} (hk : P k) (h : AllTo P ts rest) : AllTo P (k :: ts) rest := by
  obtain ⟨us, rfl, hus⟩ := h
  exact ⟨k :: us, rfl, List.forall_mem_cons.2 ⟨hk, hus⟩⟩

theorem one {k : Kind} (hk : P k) : AllTo P (k :: ts) ts := (refl ts).cons hk

theorem trans (h : AllTo P ts ts') (h' : AllTo P ts' rest) : AllTo P ts rest := by
  obtain ⟨us, rfl, hus⟩ := h
  obtain ⟨vs, rfl, hvs⟩ := h'
  exact ⟨us ++ vs, (List.append_assoc us vs rest).symm, List.forall_mem_append.2 ⟨hus, hvs⟩⟩

theorem mono (h : AllTo P ts rest) (hPQ : ∀ k, P k → Q k) : AllTo Q ts rest := by
  obtain ⟨us, hts, hus⟩ := h
  exact ⟨us, hts, fun k hk => hPQ k (hus k hk)⟩

end AllTo

/-- The token can stand in front of the conditions of a policy. -/
def Plain (k : Kind) : Prop := NoBrace k ∧ k ≠ .symbol .semicolon

instance : DecidablePred Plain := fun _ => inferInstanceAs (Decidable (_ ∧ _))

theorem plain_ident (name : String) : Plain (.ident name) := ⟨noBrace_ident name, nofun⟩

theorem plain_string (raw : List Char) : Plain (.string raw) := ⟨noBrace_string raw, nofun⟩

theorem AllTo.sameBodies {ts rest : List Kind} (h : AllTo Plain ts rest) : SameBodies ts rest := by
  obtain ⟨us, rfl, hus⟩ := h
  induction us with
  | nil => exact .refl rest
  | cons k us ih =>
    obtain ⟨hk, hus⟩ := List.forall_mem_cons.1 hus
    exact (ih hus).cons hk.1

namespace Parse

variable {ts rest : List Kind}

/-! ## Before the conditions -/

theorem plain_segments (names : List String) : ∀ k ∈ segmentKinds names, Plain k := by
  induction names with
  | nil => exact List.forall_mem_nil _
  | cons name names ih =>
    exact List.forall_mem_cons.2 ⟨by decide, List.forall_mem_cons.2 ⟨plain_ident name, ih⟩⟩

theorem plain_of_path {name : String} (h : Takes (path ts) name rest) : AllTo Plain ts rest := by
  obtain ⟨word, names, rfl, -, -⟩ := takes_path_iff.1 h
  exact .cons (plain_ident word) ⟨_, rfl, plain_segments names⟩

theorem plain_of_uid {u : Uid} (h : Takes (uid ts) u rest) : AllTo Plain ts rest := by
  obtain ⟨word, names, raw, rfl, -, -⟩ := takes_uid_iff.1 h
  refine .cons (plain_ident word) (.trans ⟨_, rfl, plain_segments names⟩ ?_)
  exact .cons (by decide) (.one (plain_string raw))

theorem ReadsUids.plain {us : List Uid} (h : ReadsUids ts us rest) : AllTo Plain ts rest := by
  induction h with
  | nil => exact .one (by decide)
  | last hu => exact (plain_of_uid hu).trans (.one (by decide))
  | cons hu _ ih => exact (plain_of_uid hu).trans (ih.cons (by decide))

theorem ReadsConstraint.plain {slot : Slot} {c : ScopeConstraint}
    (h : ReadsConstraint slot ts c rest) : AllTo Plain ts rest := by
  cases h with
  | any => exact .refl _
  | equal hu | within hu => exact (plain_of_uid hu).cons (by decide)
  | withinAny _ hus => exact (hus.plain.cons (by decide)).cons (by decide)
  | is hname => exact (plain_of_path hname).cons (by decide)
  | isIn hname hu =>
    exact ((plain_of_path hname).trans ((plain_of_uid hu).cons (plain_ident "in"))).cons
      (by decide)

theorem ReadsScope.plain {s : Scope} (h : ReadsScope ts s rest) : AllTo Plain ts rest := by
  obtain ⟨hprincipal, haction, hresource⟩ := h
  refine .cons (plain_ident _) (hprincipal.plain.trans ?_)
  refine .cons (by decide) (.cons (plain_ident _) (haction.plain.trans ?_))
  exact .cons (by decide) (.cons (plain_ident _) hresource.plain)

theorem ReadsAnnotations.plain {acc notes : Annotations}
    (h : ReadsAnnotations acc ts notes rest) : AllTo Plain ts rest := by
  induction h with
  | stop => exact .refl _
  | valued _ _ ih =>
    refine .cons (by decide) (.cons (plain_ident _) (.cons (by decide) ?_))
    exact .cons (plain_string _) (.cons (by decide) ih)
  | bare _ _ ih => exact (ih.cons (plain_ident _)).cons (by decide)

/-! ## Conditions -/

theorem NameToken.ne_semicolon {k : Kind} {key : String} (h : NameToken k key) :
    .symbol .semicolon ≠ k := by
  rintro rfl
  cases h

theorem semicolon_ne_of_join {l : Level} {k : Kind} {join : Expr → Expr → Expr}
    (h : l.join? k = some join) : .symbol .semicolon ≠ k := by
  rintro rfl
  cases l <;> cases h

theorem semicolon_ne_of_relationOp {k : Kind} {op : BinaryOp} (h : relationOp? k = some op) :
    .symbol .semicolon ≠ k := by
  rintro rfl
  cases h

@[simp] theorem semicolon_ne_close (enc : Enclosure) : .semicolon ≠ enc.close := by
  cases enc <;> decide

@[simp] theorem semicolon_notMem_segments (names : List String) :
    .symbol .semicolon ∉ segmentKinds names :=
  fun h => (plain_segments names _ h).2 rfl

/-- No phrase has a semicolon in it. -/
theorem Derives.semicolon_notMem {c : Category} {us : List Kind} {m : Meaning}
    (h : Derives c us m rest) : .symbol .semicolon ∉ us := by
  -- Each form is put together from phrases and from tokens that are its own.
  induction h with
  | expr_cond _ _ _ ih₁ ih₂ ih₃ => simp [ih₁, ih₂, ih₃]
  | operators_cons hk _ _ ih₁ ih₂ => simp [semicolon_ne_of_join hk, ih₁, ih₂]
  | relation_binary _ hk _ ih₁ ih₂ => simp [semicolon_ne_of_relationOp hk, ih₁, ih₂]
  | relation_has _ hk ih | fields_last hk _ ih => simp [hk.ne_semicolon, ih]
  | fields_cons hk _ _ ih₁ ih₂ => simp [hk.ne_semicolon, ih₁, ih₂]
  | chain _ _ ih₁ ih₂ | relation_isIn _ _ ih₁ ih₂ | member _ _ ih₁ ih₂ | steps_method _ _ ih₁ ih₂
  | items_cons _ _ ih₁ ih₂ => simp [ih₁, ih₂]
  | expr_chain _ _ ih | relation _ _ ih | unary_member _ ih | primary_cond _ ih => exact ih
  | relation_like _ _ ih | relation_is _ _ _ ih | unary_not _ ih | unary_neg _ _ ih
  | unary_long _ _ ih | steps_attr _ _ ih | steps_index _ _ ih | items_last _ ih
  | primary_call _ _ ih | primary_paren _ ih | primary_set _ ih | primary_record _ _ ih =>
    simp [ih]
  | operators_nil | steps_nil | items_nil | fields_nil | primary_int | primary_string
  | primary_true | primary_false | primary_name | primary_entity => simp

theorem Reads.semicolon_notMem {n : Nat} {e : Expr} (h : Reads .expr n ts (.expr e) rest) :
    AllTo (· ≠ .symbol .semicolon) ts rest := by
  obtain ⟨us, rfl, hus⟩ := h.phrase
  exact ⟨us, rfl, fun k hk he => hus.semicolon_notMem (he ▸ hk)⟩

theorem ReadsConditions.semicolon_notMem {n : Nat} {cs : List Condition}
    (h : ReadsConditions n ts cs rest) : AllTo (· ≠ .symbol .semicolon) ts rest := by
  induction h with
  | stop => exact .refl _
  | cons hk hbody _ ih =>
    refine .cons ?_ (.cons (by decide) (hbody.semicolon_notMem.trans (ih.cons (by decide))))
    rintro rfl
    cases hk

/-! ## Policies -/

/-- Behind its annotations a policy has no semicolon but its last token. -/
theorem ReadsPolicy.behind_notes {bound : Nat} {p : Policy} (h : ReadsPolicy bound p ts rest) :
    ∃ us, ReadsAnnotations {} ts p.annotations (.ident p.effect.text :: us) ∧
      AllTo (· ≠ .symbol .semicolon) us (.symbol .semicolon :: rest) := by
  obtain ⟨hnotes, hscope, hconditions⟩ := h
  have hplain := hscope.plain.mono fun k hk => (hk.2 : k ≠ .symbol .semicolon)
  refine ⟨_, hnotes, .cons (by decide) (hplain.trans ?_)⟩
  exact hconditions.semicolon_notMem.cons (by decide)

end Parse

theorem splitOn_semicolon {span : List Kind} (h : ∀ k ∈ span, k ≠ .symbol .semicolon)
    (rest : List Kind) :
    (span ++ .symbol .semicolon :: rest).splitOn (.symbol .semicolon) =
      span :: rest.splitOn (.symbol .semicolon) :=
  List.splitOnP_append_cons_of_forall_mem (fun k hk => beq_eq_false_iff_ne.2 (h k hk)) _
    (beq_self_eq_true _) rest

end AccessPolicy
