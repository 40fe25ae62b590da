import AccessPolicy.Proofs.Parse.Grammar

/-! # Where operands end

How loosely a token binds what stands before it: steps bind closest, then the operators of the
chains and the relation, and all other tokens end an expression. An operand of a chain ends before
a token that binds no closer than the chain's own operators. -/

namespace AccessPolicy

namespace Parse

/-- How loosely a token binds what stands before it. -/
def looseness : Kind → Nat
  | .symbol .dot => 0
  | .symbol .leftBracket => 0
  | .symbol .star => 1
  | .symbol .plus => 2
  | .symbol .minus => 2
  | .symbol .equalEqual => 3
  | .symbol .notEqual => 3
  | .symbol .less => 3
  | .symbol .lessEqual => 3
  | .symbol .greater => 3
  | .symbol .greaterEqual => 3
  | .ident "in" => 3
  | .ident "has" => 3
  | .ident "like" => 3
  | .ident "is" => 3
  | .symbol .andAnd => 4
  | .symbol .orOr => 5
  | _ => 6

/-- The looseness of the operators of a chain. -/
def Level.looseness : Level → Nat
  | .mult => 1
  | .add => 2
  | .and => 4
  | .or => 5

/-- No token comes next that binds closer. -/
def EndsAt (b : Nat) (ts : List Kind) : Prop := ∀ k ∈ ts.head?, b ≤ looseness k

@[simp] theorem endsAt_cons {b : Nat} {k : Kind} {ts : List Kind} :
    EndsAt b (k :: ts) ↔ b ≤ looseness k := by simp [EndsAt]

theorem EndsAt.mono {a b : Nat} {ts : List Kind} (h : EndsAt b ts) (hab : a ≤ b) : EndsAt a ts :=
  fun k hk => Nat.le_trans hab (h k hk)

theorem looseness_of_join? {l : Level} {k : Kind} {join : Expr → Expr → Expr}
    (h : l.join? k = some join) : looseness k = l.looseness := by
  unfold Level.join? at h
  split at h <;> first | rfl | cases h

theorem looseness_of_relational {k : Kind} (h : Relational k) : looseness k = 3 := by
  obtain h | rfl | rfl | rfl := h
  · unfold relationOp? at h
    split at h <;> first | rfl | exact absurd rfl h
  all_goals rfl

theorem EndsAt.stepsStopAt {ts : List Kind} (h : EndsAt 1 ts) : StepsStopAt ts := by
  refine ⟨fun hd => ?_, fun hb => ?_⟩
  · exact absurd (h _ hd) (by decide)
  · exact absurd (h _ hb) (by decide)

theorem EndsAt.stopsAt {l : Level} {ts : List Kind} (h : EndsAt (l.looseness + 1) ts) :
    l.StopsAt ts := by
  intro k hk
  cases hj : l.join? k with
  | none => rfl
  | some join =>
    have hb := h k hk
    rw [looseness_of_join? hj] at hb
    omega

theorem EndsAt.relationStopsAt {ts : List Kind} (h : EndsAt 4 ts) : RelationStopsAt ts := by
  intro k hk hr
  have hb := h k hk
  rw [looseness_of_relational hr] at hb
  omega

/-! ## Operands as they are -/

variable {n : Nat} {ts rest : List Kind} {e : Expr}

theorem Reads.chain_of_inner {l : Level} (h : Reads l.inner n ts (.expr e) rest)
    (hend : EndsAt (l.looseness + 1) rest) : Reads (.chain l) n ts (.expr e) rest :=
  .chain h (.chainRest_stop hend.stopsAt)

theorem Reads.unary_of_primary (h : Reads .primary n ts (.expr e) rest)
    (hbang : ts.head? ≠ some (.symbol .bang)) (hminus : ts.head? ≠ some (.symbol .minus))
    (hend : EndsAt 1 rest) : Reads .unary n ts (.expr e) rest :=
  .unary hbang hminus h (.steps_stop hend.stepsStopAt)

/-- What stands alone up to a token that binds no closer is an operand of the chain. -/
theorem Reads.inner_of_unary (h : Reads .unary n ts (.expr e) rest) (l : Level)
    (hend : EndsAt l.looseness rest) : Reads l.inner n ts (.expr e) rest := by
  cases l with
  | mult => exact h
  | add => exact .chain_of_inner (l := .mult) h hend
  | and =>
    have hmult := Reads.chain_of_inner (l := .mult) h (hend.mono (by decide))
    have hadd := Reads.chain_of_inner (l := .add) hmult (hend.mono (by decide))
    exact .relation hadd hend.relationStopsAt
  | or =>
    have hmult := Reads.chain_of_inner (l := .mult) h (hend.mono (by decide))
    have hadd := Reads.chain_of_inner (l := .add) hmult (hend.mono (by decide))
    have hrel := Reads.relation hadd (EndsAt.relationStopsAt (hend.mono (by decide)))
    exact .chain_of_inner (l := .and) hrel hend

/-- What stands alone up to a token that ends expressions is an expression. -/
theorem Reads.expr_of_unary (h : Reads .unary n ts (.expr e) rest)
    (hif : ts.head? ≠ some (.ident "if")) (hend : EndsAt 6 rest) :
    Reads .expr (n + 1) ts (.expr e) rest := by
  have hand : Reads (.chain .and) n ts (.expr e) rest :=
    h.inner_of_unary .or (hend.mono (by decide))
  exact .expr_chain hif (.chain_of_inner (l := .or) hand hend)

end Parse

end AccessPolicy
