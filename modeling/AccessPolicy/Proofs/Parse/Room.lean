import AccessPolicy.Proofs.Parse.Sound

/-! # Bounds with room enough

A reader either fails at its bound, or hands back the same under every larger bound. The levels that
it can take grow with the tokens that are left, two for each of them, so some bound is large enough
for a given list. -/

namespace AccessPolicy

namespace Parse

variable {α β : Type}

/-- The reading failed at the nesting bound. -/
def TooDeep (x : Except Failure α) : Prop := ∃ f b, x = .error f ∧ f.fault = .tooDeep b

@[simp] theorem not_tooDeep_ok (a : α) : ¬ TooDeep (.ok a : Except Failure α) := by
  rintro ⟨f, b, h, -⟩
  cases h

@[simp] theorem tooDeep_fail {ts : List Kind} {fault : ParseFault} :
    TooDeep (fail ts fault : Except Failure α) ↔ ∃ b, fault = .tooDeep b := by
  constructor
  · rintro ⟨f, b, hf, hb⟩
    cases hf
    exact ⟨b, hb⟩
  · rintro ⟨b, hb⟩
    exact ⟨_, b, rfl, hb⟩

@[simp] theorem not_tooDeep_expected {what : Expectation} {ts : List Kind} :
    ¬ TooDeep (expected what ts : Except Failure α) := by simp [expected]

theorem TooDeep.of_bind {x : Except Failure α} {f : α → Except Failure β}
    (h : TooDeep (x >>= f)) : TooDeep x ∨ ∃ a, x = .ok a ∧ TooDeep (f a) := by
  cases x with
  | error e =>
    obtain ⟨e', b, he, hb⟩ := h
    cases he
    exact .inl ⟨e, b, rfl, hb⟩
  | ok a => exact .inr ⟨a, rfl, h⟩

/-! ## Readers without depth -/

theorem not_tooDeep_expect (k : Kind) (what : Expectation) (ts : List Kind) :
    ¬ TooDeep (expect k what ts) := by
  unfold expect
  split <;> simp

theorem not_tooDeep_ident (what : Expectation) (ts : List Kind) : ¬ TooDeep (ident what ts) := by
  unfold ident
  split <;> simp

theorem not_tooDeep_string (what : Expectation) (ts : List Kind) : ¬ TooDeep (string what ts) := by
  unfold string
  split
  · split <;> simp
  · simp

theorem not_tooDeep_identOrString (what : Expectation) (ts : List Kind) :
    ¬ TooDeep (identOrString what ts) := by
  unfold identOrString
  split
  · simp
  · exact not_tooDeep_string _ _

theorem not_tooDeep_pattern (ts : List Kind) : ¬ TooDeep (pattern ts) := by
  unfold pattern
  split
  · split <;> simp
  · simp

theorem not_tooDeep_path (ts : List Kind) : ¬ TooDeep (path ts) := by
  unfold path
  split <;> simp

theorem not_tooDeep_reference (before : List String) (ts : List Kind) :
    ¬ TooDeep (reference before ts) := by
  induction before, ts using reference.induct with
  | case1 path raw ts =>
    rw [reference]
    intro h
    obtain h | ⟨a, -, h⟩ := h.of_bind
    · exact not_tooDeep_string _ _ h
    · exact not_tooDeep_ok _ h
  | case2 path name ts ih =>
    rw [reference]
    intro h
    obtain h | ⟨a, -, h⟩ := h.of_bind
    · exact ih h
    · exact not_tooDeep_ok _ h
  | case3 path ts hs hi =>
    rw [reference]
    · exact not_tooDeep_expected
    · exact fun raw us hu => hs raw us hu
    · exact fun name us hu => hi name us hu
  | case4 ts path hs hi hc =>
    rw [reference]
    · exact not_tooDeep_ok _
    all_goals assumption

/-! ## Steadiness -/

/-- A result under a bound, `x`, next to the one under a larger bound, `y`: they are the same unless
the smaller bound is reached, which it is not when it is `enough`. -/
def Steady (enough : Prop) (x y : Except Failure α) : Prop :=
  x = y ∧ ¬ TooDeep x ∨ TooDeep x ∧ ¬ enough

variable {enough : Prop}

theorem Steady.of_not_tooDeep {x : Except Failure α} (h : ¬ TooDeep x) : Steady enough x x :=
  .inl ⟨rfl, h⟩

theorem Steady.ok (a : α) : Steady enough (.ok a) (.ok a) := .of_not_tooDeep (not_tooDeep_ok a)

theorem Steady.tooDeep {ts : List Kind} {b : Nat} {y : Except Failure α} (h : ¬ enough) :
    Steady enough (fail ts (.tooDeep b)) y := .inr ⟨tooDeep_fail.2 ⟨b, rfl⟩, h⟩

theorem Steady.weaken {enough' : Prop} {x y : Except Failure α} (h : Steady enough' x y)
    (he : enough → enough') : Steady enough x y :=
  h.imp_right (And.imp_right (mt he))

theorem Steady.bind {x y : Except Failure α} {f g : α → Except Failure β}
    (hx : Steady enough x y) (hf : ∀ a, Steady enough (f a) (g a)) :
    Steady enough (x >>= f) (y >>= g) := by
  obtain ⟨rfl, hx⟩ | ⟨⟨e, b, rfl, he⟩, hn⟩ := hx
  · cases x with
    | error e =>
      refine .inl ⟨rfl, ?_⟩
      rintro ⟨_, b, h, hb⟩
      cases h
      exact hx ⟨e, b, rfl, hb⟩
    | ok a => exact hf a
  · exact .inr ⟨⟨e, b, rfl, he⟩, hn⟩

/-- Levels that are enough for a reader before the tokens. -/
def Reader.need : Reader → List Kind → Nat
  | .expr, ts | .conditional, ts | .items _, ts => 2 * ts.length + 1
  | _, ts => 2 * ts.length

/-- The reader does the same under both bounds, unless it reaches the smaller one. -/
def Reader.Steady (bound bound' depth : Nat) (ts : List Kind) (r : Reader) : Prop :=
  let enough := r.need ts ≤ bound - depth
  match r with
  | .expr => Parse.Steady enough (Parse.expr bound depth ts) (Parse.expr bound' depth ts)
  | .conditional =>
    Parse.Steady enough (Parse.conditional bound depth ts) (Parse.conditional bound' depth ts)
  | .chain l =>
    Parse.Steady enough (Parse.chain bound l depth ts) (Parse.chain bound' l depth ts)
  | .chainRest l lhs =>
    Parse.Steady enough (Parse.chainRest bound l depth lhs ts)
      (Parse.chainRest bound' l depth lhs ts)
  | .relation =>
    Parse.Steady enough (Parse.relation bound depth ts) (Parse.relation bound' depth ts)
  | .unary => Parse.Steady enough (Parse.unary bound depth ts) (Parse.unary bound' depth ts)
  | .steps e => Parse.Steady enough (Parse.steps bound depth e ts) (Parse.steps bound' depth e ts)
  | .items close =>
    Parse.Steady enough (Parse.items bound depth close ts) (Parse.items bound' depth close ts)
  | .fields seen =>
    Parse.Steady enough (Parse.fields bound depth seen ts) (Parse.fields bound' depth seen ts)
  | .primary =>
    Parse.Steady enough (Parse.primary bound depth ts) (Parse.primary bound' depth ts)

def SteadyBelow (bound bound' m : Nat) : Prop :=
  ∀ (r : Reader) (depth : Nat) (ts : List Kind), r.measure ts < m → r.Steady bound bound' depth ts

variable {bound bound' depth : Nat} {ts : List Kind}

theorem expr_steady (hb : bound ≤ bound') (ih : SteadyBelow bound bound' (Reader.expr.measure ts)) :
    Reader.expr.Steady bound bound' depth ts := by
  unfold Reader.Steady
  dsimp only [Reader.need]
  rw [expr.eq_def bound, expr.eq_def bound']
  by_cases hd : depth < bound
  · rw [if_pos hd, if_pos (hd.trans_le hb)]
    split
    · rename_i us
      have h := ih .conditional (depth + 1) us (measure_lt_of_length (by simp))
      refine .bind (h.weaken ?_) fun e => .ok _
      simp only [Reader.need, List.length_cons]
      omega
    · have h := ih (.chain .or) (depth + 1) ts (measure_lt_of_rank (by decide))
      exact h.weaken (by simp only [Reader.need]; omega)
  · rw [if_neg hd]
    exact .tooDeep (by omega)

theorem conditional_steady (ih : SteadyBelow bound bound' (Reader.conditional.measure ts)) :
    Reader.conditional.Steady bound bound' depth ts := by
  unfold Reader.Steady
  rw [conditional.eq_def bound, conditional.eq_def bound']
  have hsub : ∀ us : List Kind, us.length ≤ ts.length → Reader.expr.Steady bound bound' depth us :=
    fun us hus => ih .expr depth us (by simp only [Reader.measure, Reader.rank]; omega)
  refine .bind (hsub ts le_rfl) ?_
  rintro ⟨test, ts₁, h₁⟩
  refine .bind (.of_not_tooDeep (not_tooDeep_expect _ _ _)) ?_
  rintro ⟨_, ts₂, h₂⟩
  refine .bind ((hsub ts₂ (by omega)).weaken (by simp only [Reader.need]; omega)) ?_
  rintro ⟨thenE, ts₃, h₃⟩
  refine .bind (.of_not_tooDeep (not_tooDeep_expect _ _ _)) ?_
  rintro ⟨_, ts₄, h₄⟩
  exact .bind ((hsub ts₄ (by omega)).weaken (by simp only [Reader.need]; omega)) fun e => .ok _

/-! ## Chains and relations -/

theorem operand_steady {l : Level} (h : l.inner.Steady bound bound' depth ts) :
    Steady (2 * ts.length ≤ bound - depth) (operand bound l depth ts)
      (operand bound' l depth ts) := by
  rw [operand.eq_def bound, operand.eq_def bound']
  cases l <;> exact h

theorem chain_steady {l : Level} (ih : SteadyBelow bound bound' ((Reader.chain l).measure ts)) :
    (Reader.chain l).Steady bound bound' depth ts := by
  unfold Reader.Steady
  dsimp only [Reader.need]
  rw [chain.eq_def bound, chain.eq_def bound']
  refine .bind (operand_steady (ih _ _ _ (measure_lt_of_rank l.rank_inner_lt))) ?_
  rintro ⟨lhs, ts₁, h₁⟩
  have h := ih (.chainRest l lhs) depth ts₁ (measure_lt_of_length h₁)
  exact .bind (h.weaken (by simp only [Reader.need]; omega)) fun e => .ok _

theorem chainRest_steady {l : Level} {lhs : Expr} (hb : bound ≤ bound')
    (ih : SteadyBelow bound bound' ((Reader.chainRest l lhs).measure ts)) :
    (Reader.chainRest l lhs).Steady bound bound' depth ts := by
  unfold Reader.Steady
  dsimp only [Reader.need]
  rw [chainRest.eq_def bound, chainRest.eq_def bound']
  cases ts with
  | nil => exact .ok _
  | cons k us =>
    dsimp only
    cases l.join? k with
    | none => exact .ok _
    | some join =>
      dsimp only
      by_cases hd : depth < bound
      · rw [if_pos hd, if_pos (hd.trans_le hb)]
        have hrhs := operand_steady (ih l.inner (depth + 1) us (measure_lt_of_length (by simp)))
        refine .bind (hrhs.weaken (by simp only [List.length_cons]; omega)) ?_
        rintro ⟨rhs, ts₁, h₁⟩
        have h := ih (.chainRest l (join lhs rhs)) (depth + 1) ts₁
          (measure_lt_of_length (h₁.trans (Nat.lt_succ_self _)))
        refine .bind (h.weaken ?_) fun e => .ok _
        simp only [Reader.need, List.length_cons]
        omega
      · rw [if_neg hd]
        exact .tooDeep (by simp only [List.length_cons]; omega)

theorem relation_steady (ih : SteadyBelow bound bound' (Reader.relation.measure ts)) :
    Reader.relation.Steady bound bound' depth ts := by
  unfold Reader.Steady
  dsimp only [Reader.need]
  rw [relation.eq_def bound, relation.eq_def bound']
  refine .bind (ih (.chain .add) depth ts (measure_lt_of_rank (by decide))) ?_
  rintro ⟨lhs, ts₁, h₁⟩
  have hadd : ∀ us : List Kind, us.length < ts.length →
      Steady (2 * ts.length ≤ bound - depth) (chain bound .add depth us)
        (chain bound' .add depth us) :=
    fun us hus => (ih (.chain .add) depth us (measure_lt_of_length hus)).weaken
      (by simp only [Reader.need]; omega)
  cases ts₁ with
  | nil => exact .ok _
  | cons k ts₂ =>
    have h₂ : ts₂.length < ts.length := (Nat.lt_succ_self _).trans h₁
    dsimp only
    cases relationOp? k with
    | some op => exact .bind (hadd ts₂ h₂) fun rhs => .ok _
    | none =>
      dsimp only
      split
      · exact .bind (.of_not_tooDeep (not_tooDeep_identOrString _ _)) fun attr => .ok _
      · split
        · exact .bind (.of_not_tooDeep (not_tooDeep_pattern _)) fun p => .ok _
        · split
          · refine .bind (.of_not_tooDeep (not_tooDeep_path _)) ?_
            rintro ⟨entityType, ts₃, h₃⟩
            dsimp only
            split
            · rename_i ts₄ h₄ _
              exact .bind (hadd ts₄ (h₄.trans (h₃.trans h₂))) fun target => .ok _
            · exact .ok _
          · exact .ok _

/-! ## Operands -/

theorem unary_steady (hb : bound ≤ bound')
    (ih : SteadyBelow bound bound' (Reader.unary.measure ts)) :
    Reader.unary.Steady bound bound' depth ts := by
  unfold Reader.Steady
  dsimp only [Reader.need]
  rw [unary.eq_def bound, unary.eq_def bound']
  split
  · rename_i us
    by_cases hd : depth < bound
    · rw [if_pos hd, if_pos (hd.trans_le hb)]
      have h := ih .unary (depth + 1) us (measure_lt_of_length (by simp))
      refine .bind (h.weaken ?_) fun e => .ok _
      simp only [Reader.need, List.length_cons]
      omega
    · rw [if_neg hd]
      exact .tooDeep (by simp only [List.length_cons]; omega)
  · rename_i us
    by_cases hd : depth < bound
    · rw [if_pos hd, if_pos (hd.trans_le hb)]
      split
      · rename_i i vs
        split
        · have h := ih (.steps (.literal (.long (-i)))) (depth + 1) vs
            (measure_lt_of_length (by simp only [List.length_cons]; omega))
          refine .bind (h.weaken ?_) fun e => .ok _
          simp only [Reader.need, List.length_cons]
          omega
        · exact .of_not_tooDeep (by simp)
      · have h := ih .unary (depth + 1) us (measure_lt_of_length (by simp))
        refine .bind (h.weaken ?_) fun e => .ok _
        simp only [Reader.need, List.length_cons]
        omega
    · rw [if_neg hd]
      exact .tooDeep (by simp only [List.length_cons]; omega)
  · refine .bind (ih .primary depth ts (measure_lt_of_rank (by decide))) ?_
    rintro ⟨e, ts₁, h₁⟩
    have h := ih (.steps e) depth ts₁ (measure_lt_of_length h₁)
    exact .bind (h.weaken (by simp only [Reader.need]; omega)) fun e => .ok _

theorem steps_steady {e : Expr} (hb : bound ≤ bound')
    (ih : SteadyBelow bound bound' ((Reader.steps e).measure ts)) :
    (Reader.steps e).Steady bound bound' depth ts := by
  unfold Reader.Steady
  dsimp only [Reader.need]
  rw [steps.eq_def bound, steps.eq_def bound']
  have hsub : ∀ (r : Reader) (us : List Kind), us.length < ts.length →
      r.Steady bound bound' (depth + 1) us :=
    fun r us hus => ih r (depth + 1) us (measure_lt_of_length hus)
  split
  · rename_i us
    by_cases hd : depth < bound
    · rw [if_pos hd, if_pos (hd.trans_le hb)]
      refine .bind (.of_not_tooDeep (not_tooDeep_ident _ _)) ?_
      rintro ⟨name, ts₁, h₁⟩
      have h₁' : ts₁.length < (Kind.symbol .dot :: us).length := h₁.trans (Nat.lt_succ_self _)
      dsimp only
      split
      · rename_i ts₂ h₂ _
        refine .bind ((hsub (.items .rightParen) ts₂ (h₂.trans h₁')).weaken ?_) ?_
        · simp only [Reader.need, List.length_cons] at *
          omega
        rintro ⟨args, ts₃, h₃⟩
        refine .bind ((hsub (.steps _) ts₃ (h₃.trans (h₂.trans h₁'))).weaken ?_) fun e => .ok _
        simp only [Reader.need, List.length_cons] at *
        omega
      · refine .bind ((hsub (.steps _) ts₁ h₁').weaken ?_) fun e => .ok _
        simp only [Reader.need, List.length_cons] at *
        omega
    · rw [if_neg hd]
      exact .tooDeep (by simp only [List.length_cons]; omega)
  · rename_i us
    by_cases hd : depth < bound
    · rw [if_pos hd, if_pos (hd.trans_le hb)]
      refine .bind (.of_not_tooDeep (not_tooDeep_string _ _)) ?_
      rintro ⟨attr, ts₁, h₁⟩
      refine .bind (.of_not_tooDeep (not_tooDeep_expect _ _ _)) ?_
      rintro ⟨_, ts₂, h₂⟩
      have h₂' : ts₂.length < (Kind.symbol .leftBracket :: us).length :=
        h₂.trans (h₁.trans (Nat.lt_succ_self _))
      refine .bind ((hsub (.steps _) ts₂ h₂').weaken ?_) fun e => .ok _
      simp only [Reader.need, List.length_cons] at *
      omega
    · rw [if_neg hd]
      exact .tooDeep (by simp only [List.length_cons]; omega)
  · exact .ok _

/-! ## Lists, fields and primary expressions -/

theorem items_steady {close : Symbol}
    (ih : SteadyBelow bound bound' ((Reader.items close).measure ts)) :
    (Reader.items close).Steady bound bound' depth ts := by
  unfold Reader.Steady
  dsimp only [Reader.need]
  rw [items.eq_def bound, items.eq_def bound']
  split
  · exact .ok _
  · refine .bind (ih .expr depth ts (measure_lt_of_rank (Nat.lt_succ_self _))) ?_
    rintro ⟨e, ts₁, h₁⟩
    dsimp only
    split
    · exact .ok _
    · refine .bind (.of_not_tooDeep (not_tooDeep_expect _ _ _)) ?_
      rintro ⟨_, ts₂, h₂⟩
      have h := ih (.items close) depth ts₂ (measure_lt_of_length (h₂.trans h₁))
      exact .bind (h.weaken (by simp only [Reader.need]; omega)) fun es => .ok _

theorem fields_steady {seen : List String}
    (ih : SteadyBelow bound bound' ((Reader.fields seen).measure ts)) :
    (Reader.fields seen).Steady bound bound' depth ts := by
  unfold Reader.Steady
  dsimp only [Reader.need]
  rw [fields.eq_def bound, fields.eq_def bound']
  split
  · exact .ok _
  · refine .bind (.of_not_tooDeep (not_tooDeep_identOrString _ _)) ?_
    rintro ⟨key, ts₁, h₁⟩
    dsimp only
    split
    · exact .of_not_tooDeep (by simp)
    · refine .bind (.of_not_tooDeep (not_tooDeep_expect _ _ _)) ?_
      rintro ⟨_, ts₂, h₂⟩
      have h := ih .expr depth ts₂ (measure_lt_of_length (h₂.trans h₁))
      refine .bind (h.weaken (by simp only [Reader.need]; omega)) ?_
      rintro ⟨e, ts₃, h₃⟩
      dsimp only
      split
      · exact .ok _
      · refine .bind (.of_not_tooDeep (not_tooDeep_expect _ _ _)) ?_
        rintro ⟨_, ts₄, h₄⟩
        have hlt : ts₄.length < ts.length := h₄.trans (h₃.trans (h₂.trans h₁))
        have h := ih (.fields (key :: seen)) depth ts₄ (measure_lt_of_length hlt)
        exact .bind (h.weaken (by simp only [Reader.need]; omega)) fun fs => .ok _

theorem primary_steady (hb : bound ≤ bound')
    (ih : SteadyBelow bound bound' (Reader.primary.measure ts)) :
    Reader.primary.Steady bound bound' depth ts := by
  unfold Reader.Steady
  dsimp only [Reader.need]
  rw [primary.eq_def bound, primary.eq_def bound']
  have hsub : ∀ (r : Reader) (us : List Kind), us.length < ts.length →
      r.Steady bound bound' depth us :=
    fun r us hus => ih r depth us (measure_lt_of_length hus)
  split
  · split
    · exact .ok _
    · exact .of_not_tooDeep (by simp)
  · exact .bind (.of_not_tooDeep (not_tooDeep_string _ _)) fun s => .ok _
  · rename_i us
    refine .bind ((hsub .expr us (by simp)).weaken ?_) ?_
    · simp only [Reader.need, List.length_cons]
      omega
    rintro ⟨e, ts₁, h₁⟩
    exact .bind (.of_not_tooDeep (not_tooDeep_expect _ _ _)) fun r => .ok _
  · rename_i us
    refine .bind ((hsub (.items _) us (by simp)).weaken ?_) fun es => .ok _
    simp only [Reader.need, List.length_cons]
    omega
  · rename_i us
    refine .bind ((hsub (.fields _) us (by simp)).weaken ?_) fun fs => .ok _
    simp only [Reader.need, List.length_cons]
    omega
  · rename_i us
    by_cases hd : depth < bound
    · rw [if_pos hd, if_pos (hd.trans_le hb)]
      have h := ih .conditional (depth + 1) us (measure_lt_of_length (by simp))
      refine .bind (h.weaken ?_) fun e => .ok _
      simp only [Reader.need, List.length_cons]
      omega
    · rw [if_neg hd]
      exact .tooDeep (by simp only [List.length_cons]; omega)
  · exact .ok _
  · exact .ok _
  · rename_i word us _ _ _
    split
    · exact .of_not_tooDeep not_tooDeep_expected
    · refine .bind (.of_not_tooDeep (not_tooDeep_reference _ _)) ?_
      rintro ⟨r, ts₁, h₁⟩
      dsimp only
      split
      · exact .ok _
      · split
        · rename_i ts₂ h₂ _
          refine .bind ((hsub (.items _) ts₂ (h₂.trans h₁)).weaken ?_) fun args => .ok _
          simp only [Reader.need, List.length_cons] at *
          omega
        · split
          · exact .ok _
          · exact .of_not_tooDeep not_tooDeep_expected
  · exact .of_not_tooDeep not_tooDeep_expected

/-- **A reader that does not reach its bound does the same under every larger one**, and with the
room that it needs it does not reach it. -/
theorem Reader.steady (hb : bound ≤ bound') (r : Reader) : r.Steady bound bound' depth ts := by
  suffices h : ∀ m, SteadyBelow bound bound' m from h _ r depth ts (Nat.lt_succ_self _)
  intro m
  induction m using Nat.strongRecOn with
  | ind m ih =>
    intro r depth ts hm
    have ih := ih _ hm
    cases r with
    | expr => exact expr_steady hb ih
    | conditional => exact conditional_steady ih
    | chain l => exact chain_steady ih
    | chainRest l lhs => exact chainRest_steady hb ih
    | relation => exact relation_steady ih
    | unary => exact unary_steady hb ih
    | steps e => exact steps_steady hb ih
    | items close => exact items_steady ih
    | fields seen => exact fields_steady ih
    | primary => exact primary_steady hb ih

end Parse

end AccessPolicy
