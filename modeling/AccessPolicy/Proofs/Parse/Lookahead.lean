import AccessPolicy.Proofs.Parse.Complete

/-! # How far readers look ahead

A reader decides where to stop by the next two tokens at most. If it leaves two tokens or more, then
it takes the same when the list goes on behind them. -/

namespace AccessPolicy

namespace Parse

variable {ts rest us : List Kind}

/-! ## Tokens that are there -/

theorem head?_append_of_length (h : 0 < ts.length) (us : List Kind) :
    (ts ++ us).head? = ts.head? := by
  cases ts with
  | nil => cases h
  | cons k ts => rfl

theorem head?_append_ne_of_length {k : Kind} (hlen : 0 < ts.length) (h : ts.head? ≠ some k) :
    (ts ++ us).head? ≠ some k := by rwa [head?_append_of_length hlen]

/-- Two tokens tell whether a name goes on. -/
theorem not_nameGoesOn_append (hlen : 2 ≤ ts.length) (h : ¬ NameGoesOn ts) :
    ¬ NameGoesOn (ts ++ us) := by
  rintro ⟨name, vs, hvs⟩
  match ts, hlen with
  | k :: k' :: ts, _ =>
    cases hvs
    exact h ⟨name, ts, rfl⟩

/-! ## Expressions -/

theorem Takes.length_lt {α : Type} {n : Nat} {x : Step α n} {a : α} (h : Takes x a rest) :
    rest.length < n := h.1

/-- No reader leaves more tokens than it was given. -/
theorem Reads.length_le {r : Reader} {n : Nat} {t : Tree} (h : Reads r n ts t rest) :
    rest.length ≤ ts.length := by
  have htakes : r.Takes n 0 ts t rest := h.takes (Nat.sub_zero n)
  cases r <;> cases t <;> first
    | exact htakes.elim
    | exact Nat.le_of_lt htakes.length_lt
    | exact Nat.le_of_lt_succ htakes.length_lt

/-- **A reader that leaves two tokens takes the same when more tokens follow.** -/
theorem Reads.append {r : Reader} {n : Nat} {t : Tree} (h : Reads r n ts t rest)
    (hlen : 2 ≤ rest.length) (us : List Kind) : Reads r n (ts ++ us) t (rest ++ us) := by
  -- Every part of a derivation leaves at least what the whole leaves, so two tokens are there
  -- wherever a rule looks ahead.
  induction h with
  | expr_if _ ih => exact .expr_if (ih hlen)
  | expr_chain hif h ih =>
    have hts := h.length_le
    exact .expr_chain (head?_append_ne_of_length (by omega) hif) (ih hlen)
  | conditional _ hthen helse ih₁ ih₂ ih₃ =>
    have h₁ := hthen.length_le
    have h₂ := helse.length_le
    simp only [List.length_cons] at h₁
    exact .conditional (ih₁ (by simp only [List.length_cons]; omega))
      (ih₂ (by simp only [List.length_cons]; omega)) (ih₃ hlen)
  | chain _ hrest ih₁ ih₂ => exact .chain (ih₁ (hlen.trans hrest.length_le)) (ih₂ hlen)
  | chainRest_stop hstop =>
    refine .chainRest_stop ?_
    rwa [Level.StopsAt, head?_append_of_length (by omega)]
  | chainRest_step hk _ hrest ih₁ ih₂ =>
    exact .chainRest_step hk (ih₁ (hlen.trans hrest.length_le)) (ih₂ hlen)
  | relation _ hstop ih =>
    refine .relation (ih hlen) ?_
    rwa [RelationStopsAt, head?_append_of_length (by omega)]
  | relation_binary _ hk hrhs ih₁ ih₂ =>
    have h₁ := hrhs.length_le
    exact .relation_binary (ih₁ (by simp only [List.length_cons]; omega)) hk (ih₂ hlen)
  | relation_has _ hk ih => exact .relation_has (ih (by simp only [List.length_cons]; omega)) hk
  | relation_like _ hp ih =>
    exact .relation_like (ih (by simp only [List.length_cons]; omega)) hp
  | relation_is _ hend hin ih =>
    have h := ih (by simp only [List.length_cons, List.length_append]; omega)
    simp only [List.cons_append, List.append_assoc] at h
    exact .relation_is h (not_nameGoesOn_append hlen hend)
      (head?_append_ne_of_length (by omega) hin)
  | relation_isIn _ htarget ih₁ ih₂ =>
    have h₁ := htarget.length_le
    have h := ih₁ (by simp only [List.length_cons, List.length_append]; omega)
    simp only [List.cons_append, List.append_assoc] at h
    exact .relation_isIn h (ih₂ hlen)
  | unary_not _ ih => exact .unary_not (ih hlen)
  | @unary_neg n ts rest e hint h ih =>
    have h₁ := h.length_le
    refine .unary_neg (fun i vs hvs => ?_) (ih hlen)
    obtain ⟨k, ts, rfl⟩ := List.exists_cons_of_length_pos (l := ts) (by omega)
    cases hvs
    exact hint i ts rfl
  | unary_long hi _ ih => exact .unary_long hi (ih hlen)
  | unary hbang hminus h hsteps ih₁ ih₂ =>
    have h₂ := hsteps.length_le
    have h₁ := h.length_le
    exact .unary (head?_append_ne_of_length (by omega) hbang)
      (head?_append_ne_of_length (by omega) hminus) (ih₁ (hlen.trans h₂)) (ih₂ hlen)
  | steps_stop hstop =>
    refine .steps_stop ?_
    rwa [StepsStopAt, head?_append_of_length (by omega)]
  | steps_method _ h ih₁ ih₂ => exact .steps_method (ih₁ (hlen.trans h.length_le)) (ih₂ hlen)
  | steps_attr hparen h ih =>
    have h₁ := h.length_le
    exact .steps_attr (head?_append_ne_of_length (by omega) hparen) (ih hlen)
  | steps_index hd _ ih => exact .steps_index hd (ih hlen)
  | items_nil => exact .items_nil
  | items_last hhead h ih =>
    have h₁ := h.length_le
    simp only [List.length_cons] at h₁
    exact .items_last (head?_append_ne_of_length (by omega) hhead)
      (ih (by simp only [List.length_cons]; omega))
  | items_cons hhead hclose h hes ih₁ ih₂ =>
    have h₂ := hes.length_le
    have h₁ := h.length_le
    simp only [List.length_cons] at h₁
    exact .items_cons (head?_append_ne_of_length (by omega) hhead) hclose
      (ih₁ (by simp only [List.length_cons]; omega)) (ih₂ hlen)
  | fields_nil => exact .fields_nil
  | fields_last hk hseen _ ih =>
    exact .fields_last hk hseen (ih (by simp only [List.length_cons]; omega))
  | fields_cons hk hseen _ hfs ih₁ ih₂ =>
    have h₁ := hfs.length_le
    exact .fields_cons hk hseen (ih₁ (by simp only [List.length_cons]; omega)) (ih₂ hlen)
  | primary_int hi => exact .primary_int hi
  | primary_string hd => exact .primary_string hd
  | primary_paren _ ih => exact .primary_paren (ih (by simp only [List.length_cons]; omega))
  | primary_set _ ih => exact .primary_set (ih hlen)
  | primary_record _ ih => exact .primary_record (ih hlen)
  | primary_if _ ih => exact .primary_if (ih hlen)
  | primary_true => exact .primary_true
  | primary_false => exact .primary_false
  | primary_entity hword hd =>
    simp only [List.cons_append, List.append_assoc]
    exact .primary_entity hword hd
  | primary_call hword _ ih =>
    simp only [List.cons_append, List.append_assoc]
    exact .primary_call hword (ih hlen)
  | primary_name hword hcolons hparen =>
    exact .primary_name hword (head?_append_ne_of_length (by omega) hcolons)
      (head?_append_ne_of_length (by omega) hparen)

end Parse

end AccessPolicy
