import AccessPolicy.Eval.Basic

/-! # Arithmetic is exact or an error

`Calculation` is the part of the expressions made of longs, the prefix minus and the three
operations, with its value over unbounded integers. Evaluation follows `Calculation.steps`, where
operands stand in front of their operation: up to the first step out of range the values are the
exact ones, and that step names the operator of the error (`Calculation.evaluate_endsWith`). -/

namespace AccessPolicy

/-- An expression of longs, prefix minus, addition, subtraction and multiplication. -/
inductive Calculation where
  | literal (n : Int) (h : InLongRange n)
  | neg (a : Calculation)
  | binary (op : ArithOp) (lhs rhs : Calculation)

namespace Calculation

def expr : Calculation → Expr
  | .literal n _ => .literal (.long n)
  | .neg a => .neg a.expr
  | .binary op lhs rhs => .binary (.arith op) lhs.expr rhs.expr

/-- The value over unbounded integers. -/
def exactValue : Calculation → Int
  | .literal n _ => n
  | .neg a => -a.exactValue
  | .binary .add lhs rhs => lhs.exactValue + rhs.exactValue
  | .binary .sub lhs rhs => lhs.exactValue - rhs.exactValue
  | .binary .mul lhs rhs => lhs.exactValue * rhs.exactValue

/-- The operator that an error names; a prefix minus counts as a subtraction. -/
def operator? : Calculation → Option ArithOp
  | .literal _ _ => none
  | .neg _ => some .sub
  | .binary op _ _ => some op

/-- The calculation and all inside it, from left to right and operands first. -/
def steps : Calculation → List Calculation
  | .literal n h => [.literal n h]
  | .neg a => a.steps ++ [.neg a]
  | .binary op lhs rhs => lhs.steps ++ rhs.steps ++ [.binary op lhs rhs]

/-- The first step whose value is no long. -/
def overflow? (a : Calculation) : Option Calculation :=
  a.steps.find? fun b => decide (¬ InLongRange b.exactValue)

theorem exactValue_binary (op : ArithOp) (lhs rhs : Calculation) :
    (binary op lhs rhs).exactValue = op.apply lhs.exactValue rhs.exactValue := by
  cases op <;> rfl

theorem overflow?_eq_none_iff {a : Calculation} :
    a.overflow? = none ↔ ∀ b ∈ a.steps, InLongRange b.exactValue := by
  simp [overflow?]

theorem overflow?_literal {n : Int} (h : InLongRange n) : (literal n h).overflow? = none := by
  simp [overflow?, steps, exactValue, h]

theorem overflow?_neg (a : Calculation) :
    (neg a).overflow? =
      a.overflow?.or (if InLongRange (-a.exactValue) then none else some (neg a)) := by
  rw [overflow?, steps, List.find?_append, ← overflow?]
  by_cases h : InLongRange (-a.exactValue) <;> simp [exactValue, h]

theorem overflow?_binary (op : ArithOp) (lhs rhs : Calculation) :
    (binary op lhs rhs).overflow? =
      (lhs.overflow?.or rhs.overflow?).or
        (if InLongRange (op.apply lhs.exactValue rhs.exactValue) then none
          else some (binary op lhs rhs)) := by
  rw [overflow?, steps, List.find?_append, List.find?_append, ← overflow?, ← overflow?]
  by_cases h : InLongRange (op.apply lhs.exactValue rhs.exactValue) <;>
    simp [exactValue_binary, h]

/-! ## Evaluation -/

/-- How a calculation ends: with its exact value if no step is out of range, and else with the
operator of the first step that is. -/
inductive EndsWith (a : Calculation) : Result Value → Prop where
  | value (h : a.overflow? = none) : EndsWith a (.ok (.long a.exactValue))
  | overflow {b op} (h : a.overflow? = some b) (hop : b.operator? = some op) :
      EndsWith a (.error (.overflow op))

/-- The last step, when its operands have had their exact values. -/
theorem endsWith_checked {a : Calculation} {op : ArithOp} {n : Int} (hn : a.exactValue = n)
    (hop : a.operator? = some op)
    (h : a.overflow? = if InLongRange n then none else some a) :
    EndsWith a (Eval.checked op n) := by
  rw [Eval.checked]
  by_cases hrange : InLongRange n
  · rw [if_pos hrange] at h ⊢
    exact hn ▸ .value h
  · rw [if_neg hrange] at h ⊢
    exact .overflow h hop

theorem evaluate_endsWith (env : Env) (a : Calculation) : EndsWith a (evaluate env a.expr) := by
  induction a with
  | literal n h => exact .value (overflow?_literal h)
  | neg a ih =>
    have hover := overflow?_neg a
    rw [expr, evaluate]
    generalize evaluate env a.expr = r at ih
    cases ih with
    | value h =>
      rw [h, Option.none_or] at hover
      exact endsWith_checked rfl rfl hover
    | overflow h hop =>
      rw [h, Option.some_or] at hover
      exact .overflow hover hop
  | binary op lhs rhs ihl ihr =>
    have hover := overflow?_binary op lhs rhs
    rw [expr, evaluate]
    generalize evaluate env lhs.expr = r at ihl
    generalize evaluate env rhs.expr = r' at ihr
    cases ihl with
    | overflow h hop =>
      rw [h, Option.some_or, Option.some_or] at hover
      exact .overflow hover hop
    | value h =>
      rw [h, Option.none_or] at hover
      cases ihr with
      | overflow h' hop =>
        rw [h', Option.some_or] at hover
        exact .overflow hover hop
      | value h' =>
        rw [h', Option.none_or] at hover
        exact endsWith_checked (exactValue_binary op lhs rhs) rfl hover

theorem EndsWith.eq_ok_iff {a : Calculation} {r : Result Value} (h : EndsWith a r) {v : Value} :
    r = .ok v ↔ (∀ b ∈ a.steps, InLongRange b.exactValue) ∧ v = .long a.exactValue := by
  rw [← overflow?_eq_none_iff]
  cases h with
  | value h => simp [h, eq_comm]
  | overflow h hop => simp [h]

theorem EndsWith.eq_error_iff {a : Calculation} {r : Result Value} (h : EndsWith a r)
    {e : EvalError} :
    r = .error e ↔
      ∃ b op, a.overflow? = some b ∧ b.operator? = some op ∧ e = .overflow op := by
  cases h with
  | value h => simp [h]
  | overflow h hop => simp [h, hop, eq_comm]

/-- Comparing the expressions gives what comparing the integers gives. -/
structure ComparesAs (env : Env) (lhs rhs : Expr) (m n : Int) : Prop where
  less : evaluate env (.binary (.order .less) lhs rhs) = .ok (.bool (decide (m < n)))
  lessEqual : evaluate env (.binary (.order .lessEqual) lhs rhs) = .ok (.bool (decide (m ≤ n)))
  greater : evaluate env (.binary (.order .greater) lhs rhs) = .ok (.bool (decide (m > n)))
  greaterEqual :
    evaluate env (.binary (.order .greaterEqual) lhs rhs) = .ok (.bool (decide (m ≥ n)))
  equal : evaluate env (.binary .equal lhs rhs) = .ok (.bool (decide (m = n)))
  notEqual : evaluate env (.binary .notEqual lhs rhs) = .ok (.bool (decide (m ≠ n)))

theorem comparesAs_of_values {env : Env} {lhs rhs : Expr} {m n : Int}
    (hl : evaluate env lhs = .ok (.long m)) (hr : evaluate env rhs = .ok (.long n)) :
    ComparesAs env lhs rhs m n := by
  have hbinary : ∀ op, evaluate env (.binary op lhs rhs) =
      Eval.binary env.store op (.long m) (.long n) := by
    intro op
    rw [evaluate, hl, hr]
    rfl
  refine ⟨hbinary _, hbinary _, hbinary _, hbinary _, ?_, ?_⟩
  · simp only [hbinary, Eval.binary, Value.long.injEq]
  · simp only [hbinary, Eval.binary, ne_eq, Value.long.injEq]

/-- **Arithmetic is exact or an error.** A calculation has its exact value exactly if the values
of all its steps are longs, and else the error names the operator of the first step whose value
is none. Two calculations that have values compare as their exact values do. -/
theorem evaluate_exact (env : Env) (a : Calculation) :
    (∀ v, evaluate env a.expr = .ok v ↔
      (∀ b ∈ a.steps, InLongRange b.exactValue) ∧ v = .long a.exactValue) ∧
    (∀ e, evaluate env a.expr = .error e ↔
      ∃ b op, a.overflow? = some b ∧ b.operator? = some op ∧ e = .overflow op) ∧
    ∀ (b : Calculation) v w, evaluate env a.expr = .ok v → evaluate env b.expr = .ok w →
      ComparesAs env a.expr b.expr a.exactValue b.exactValue := by
  have hends := evaluate_endsWith env a
  refine ⟨fun v => hends.eq_ok_iff, fun e => hends.eq_error_iff, fun b v w ha hb => ?_⟩
  obtain ⟨-, rfl⟩ := hends.eq_ok_iff.1 ha
  obtain ⟨-, rfl⟩ := (evaluate_endsWith env b).eq_ok_iff.1 hb
  exact comparesAs_of_values ha hb

/-- An overflow that a later step would undo, and the least long, which the greatest long and two
subtractions reach. -/
theorem evaluate_exact_extremes (env : Env) :
    let one : Calculation := .literal 1 (by decide)
    let greatest : Calculation := .literal 0x7fffffffffffffff (by decide)
    let least : Calculation := .binary .sub (.neg greatest) one
    evaluate env (.binary (.arith .sub) (.binary (.arith .add) greatest.expr one.expr) one.expr) =
        .error (.overflow .add) ∧
      evaluate env least.expr = .ok (.long (-0x8000000000000000)) ∧
      evaluate env (.neg least.expr) = .error (.overflow .sub) ∧
      evaluate env (.binary (.order .less) least.expr greatest.expr) = .ok (.bool true) := by
  intro one greatest least
  have hsum := (evaluate_exact env (.binary .sub (.binary .add greatest one) one)).2.1
  have hneg := (evaluate_exact env (.neg least)).2.1
  have hgreatest := (evaluate_exact env greatest).1 (.long 0x7fffffffffffffff)
  obtain ⟨hleast, -, hcompare⟩ := evaluate_exact env least
  have hvalue := (hleast (.long (-0x8000000000000000))).2 ⟨by decide, rfl⟩
  refine ⟨(hsum _).2 ⟨.binary .add greatest one, .add, rfl, rfl, rfl⟩, hvalue,
    (hneg _).2 ⟨.neg least, .sub, rfl, rfl, rfl⟩, ?_⟩
  exact (hcompare greatest _ _ hvalue (hgreatest.2 ⟨by decide, rfl⟩)).less

end Calculation

end AccessPolicy
