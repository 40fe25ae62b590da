import AccessPolicy.Proofs.Parse.Complete

/-! # How high a tree the readers build

A chain and a run of steps take a level for each operator and give the levels back when they end,
so each of them can use the whole room again around what it wraps. Four chains and the steps can
stand around one primary expression, with a relation among them, and inside that expression one
level less is left; so the bound grows with the square of the room. -/

namespace AccessPolicy

mutual

/-- The number of expressions on the longest path from the root to a leaf. -/
def Expr.height : Expr → Nat
  | .literal _ => 1
  | .var _ => 1
  | .name _ => 1
  | .not e => e.height + 1
  | .neg e => e.height + 1
  | .and lhs rhs => max lhs.height rhs.height + 1
  | .or lhs rhs => max lhs.height rhs.height + 1
  | .binary _ lhs rhs => max lhs.height rhs.height + 1
  | .cond test thenE elseE => max test.height (max thenE.height elseE.height) + 1
  | .getAttr e _ => e.height + 1
  | .hasAttr e _ => e.height + 1
  | .like e _ => e.height + 1
  | .is e _ => e.height + 1
  | .isIn e _ target => max e.height target.height + 1
  | .set items => itemsHeight items + 1
  | .record fields => fieldsHeight fields + 1
  | .method receiver _ args => max receiver.height (itemsHeight args) + 1
  | .call _ args => itemsHeight args + 1

/-- The height of the highest of some expressions. -/
def itemsHeight : List Expr → Nat
  | [] => 0
  | e :: es => max e.height (itemsHeight es)

def fieldsHeight : List (String × Expr) → Nat
  | [] => 0
  | (_, e) :: fs => max e.height (fieldsHeight fs)

end

namespace Parse

def Tree.height : Tree → Nat
  | .expr e => e.height
  | .items es => itemsHeight es
  | .fields fs => fieldsHeight fs

/-- The height that the expressions read with room for `n` levels can reach. -/
def greatestHeight : Nat → Nat
  | 0 => 0
  | n + 1 => greatestHeight n + 5 * n + 2

theorem two_mul_greatestHeight (n : Nat) : 2 * greatestHeight n + n = 5 * (n * n) := by
  induction n with
  | zero => rfl
  | succ n ih =>
    have hs : (n + 1) * (n + 1) = n * n + 2 * n + 1 := by
      simp only [Nat.add_mul, Nat.mul_add]
      omega
    simp only [greatestHeight]
    omega

theorem greatestHeight_eq (n : Nat) : greatestHeight n = n * (5 * n - 1) / 2 := by
  have h := two_mul_greatestHeight n
  have hm : n * (5 * n - 1) = 5 * (n * n) - n := by
    rw [Nat.mul_sub, Nat.mul_one, Nat.mul_left_comm]
  omega

/-- The height that the operands of a chain can reach. -/
def Level.operandBound (n : Nat) : Level → Nat
  | .mult => greatestHeight n + n + 1
  | .add => greatestHeight n + 2 * n + 1
  | .and => greatestHeight n + 3 * n + 2
  | .or => greatestHeight n + 4 * n + 2

/-- The height that a reader can reach with room for `n` levels. -/
def Reader.heightBound (n : Nat) : Reader → Nat
  | .expr => greatestHeight n
  | .conditional => greatestHeight n + 1
  | .chain l => l.operandBound n + n
  | .chainRest l lhs => max lhs.height (l.operandBound n) + n
  | .relation => Level.and.operandBound n
  | .unary => Level.mult.operandBound n
  | .steps e => max e.height (greatestHeight n) + n
  | .items _ => greatestHeight n
  | .fields _ => greatestHeight n
  | .primary => greatestHeight n + 1

theorem Level.heightBound_inner (l : Level) (n : Nat) :
    l.inner.heightBound n = l.operandBound n := by
  cases l <;> simp only [inner, Reader.heightBound, operandBound] <;> omega

theorem Level.operandBound_succ (l : Level) (n : Nat) :
    l.operandBound n ≤ l.operandBound (n + 1) := by
  cases l <;> simp only [operandBound, greatestHeight] <;> omega

theorem Level.height_join {l : Level} {k : Kind} {join : Expr → Expr → Expr}
    (hk : l.join? k = some join) (lhs rhs : Expr) :
    (join lhs rhs).height = max lhs.height rhs.height + 1 := by
  unfold join? at hk
  split at hk <;> cases hk <;> rfl

theorem height_bareName (name : String) : (bareName name).height = 1 := by
  unfold bareName
  cases Var.ofName? name <;> rfl

/-- **A reader builds no higher tree than its room allows.** -/
theorem Reads.height_le {r : Reader} {n : Nat} {ts rest : List Kind} {t : Tree}
    (h : Reads r n ts t rest) : t.height ≤ r.heightBound n := by
  -- The room shrinks by one wherever the tree may grow by one; what was read before a chain or a
  -- run of steps enters their bounds as it is.
  induction h with
  | @chain l n ts ts₁ rest lhs e _ _ ih₁ ih₂ =>
    rw [l.heightBound_inner] at ih₁
    simp only [Tree.height, Reader.heightBound] at *
    omega
  | @chainRest_step l n lhs k join ts ts₁ rest rhs e hk _ _ ih₁ ih₂ =>
    rw [l.heightBound_inner] at ih₁
    have hsucc := l.operandBound_succ n
    simp only [Tree.height, Reader.heightBound, Level.height_join hk] at *
    omega
  | chainRest_stop | steps_stop =>
    simp only [Tree.height, Reader.heightBound]
    omega
  | primary_name =>
    simp only [Tree.height, Reader.heightBound, height_bareName]
    omega
  | _ =>
    simp only [Tree.height, Expr.height, itemsHeight, fieldsHeight, Reader.heightBound,
      Level.operandBound, greatestHeight] at *
    omega

end Parse

end AccessPolicy
