import AccessPolicy.Proofs.Expr.Height
import AccessPolicy.Proofs.Parse.Precedence
import AccessPolicy.Proofs.Policy.Grammar
import AccessPolicy.Proofs.Token.Spelling

/-! # The highest condition that a nesting bound admits

Around a set stand as many steps, multiplications, additions, conjunctions and disjunctions as there
is room for, with one comparison among them; inside the set stands the same again with one level
less. Each of these texts is accepted and reaches the height that no accepted text exceeds, so the
height of the trees is quadratic in the bound. It stays within twice the bound only for bound
one. -/

namespace AccessPolicy

namespace Parse

def one : Expr := .literal (.long 1)

/-- The operator `k` with the operand one, `m` times. -/
def chainKinds (k : Kind) (rest : List Kind) : Nat → List Kind
  | 0 => rest
  | m + 1 => k :: .int 1 :: chainKinds k rest m

def chainExpr (join : Expr → Expr → Expr) : Nat → Expr → Expr
  | 0, e => e
  | m + 1, e => chainExpr join m (join e one)

/-- An attribute step, `m` times. -/
def stepKinds (rest : List Kind) : Nat → List Kind
  | 0 => rest
  | m + 1 => .symbol .dot :: .ident "a" :: stepKinds rest m

def stepExpr : Nat → Expr → Expr
  | 0, e => e
  | m + 1, e => stepExpr m (.getAttr e "a")

/-- What stands behind the primary expression of the highest expression. -/
def aroundKinds (m : Nat) (rest : List Kind) : List Kind :=
  stepKinds (chainKinds (.symbol .star) (chainKinds (.symbol .plus)
    (.symbol .equalEqual :: .int 1 ::
      chainKinds (.symbol .andAnd) (chainKinds (.symbol .orOr) rest m) m) m) m) m

def aroundExpr (m : Nat) (e : Expr) : Expr :=
  chainExpr .or m (chainExpr .and m (.binary .equal
    (chainExpr (.binary (.arith .add)) m (chainExpr (.binary (.arith .mul)) m (stepExpr m e))) one))

/-- The highest expression for room `n`, or nothing for no room, as the contents of a set. -/
def deepestKinds : Nat → List Kind → List Kind
  | 0, rest => rest
  | n + 1, rest =>
    .symbol .leftBracket :: deepestKinds n (.symbol .rightBracket :: aroundKinds n rest)

def deepestItems : Nat → List Expr
  | 0 => []
  | n + 1 => [aroundExpr n (.set (deepestItems n))]

/-! ## Its height -/

theorem height_chainExpr {join : Expr → Expr → Expr}
    (hj : ∀ lhs rhs, (join lhs rhs).height = max lhs.height rhs.height + 1) (m : Nat) {e : Expr}
    (he : 1 ≤ e.height) : (chainExpr join m e).height = e.height + m := by
  induction m generalizing e with
  | zero => rfl
  | succ m ih =>
    have hone : one.height = 1 := rfl
    have hje : (join e one).height = e.height + 1 := by
      rw [hj, hone]
      omega
    rw [chainExpr, ih (by omega), hje]
    omega

theorem height_stepExpr (m : Nat) (e : Expr) : (stepExpr m e).height = e.height + m := by
  induction m generalizing e with
  | zero => rfl
  | succ m ih =>
    rw [stepExpr, ih, Expr.height]
    omega

theorem height_aroundExpr (m : Nat) {e : Expr} (he : 1 ≤ e.height) :
    (aroundExpr m e).height = e.height + 5 * m + 1 := by
  have hbinary (op : BinaryOp) (lhs rhs : Expr) :
      (Expr.binary op lhs rhs).height = max lhs.height rhs.height + 1 := by rw [Expr.height]
  have hconj (lhs rhs : Expr) : (Expr.and lhs rhs).height = max lhs.height rhs.height + 1 := by
    rw [Expr.height]
  have hdisj (lhs rhs : Expr) : (Expr.or lhs rhs).height = max lhs.height rhs.height + 1 := by
    rw [Expr.height]
  have hstep := height_stepExpr m e
  have hmul := height_chainExpr (hbinary (.arith .mul)) m (e := stepExpr m e) (by omega)
  have hadd := height_chainExpr (hbinary (.arith .add)) m (Nat.le_trans (by omega) hmul.ge)
  have hequal := hbinary .equal (chainExpr (.binary (.arith .add)) m
    (chainExpr (.binary (.arith .mul)) m (stepExpr m e))) one
  have hone : one.height = 1 := rfl
  have hand := height_chainExpr hconj m (Nat.le_trans (by omega) hequal.ge)
  have hor := height_chainExpr hdisj m (Nat.le_trans (by omega) hand.ge)
  rw [aroundExpr, hor, hand, hequal]
  omega

theorem height_deepestItems (n : Nat) : itemsHeight (deepestItems n) = greatestHeight n := by
  induction n with
  | zero => rfl
  | succ n ih =>
    have hset : (Expr.set (deepestItems n)).height = greatestHeight n + 1 := by
      rw [Expr.height, ih]
    rw [deepestItems, itemsHeight, itemsHeight, height_aroundExpr n (by omega), hset,
      greatestHeight]
    omega

/-! ## Its derivation -/

theorem reads_one {n : Nat} {l : Level} {rest : List Kind} (hend : EndsAt l.looseness rest) :
    Reads l.inner n (.int 1 :: rest) (.expr one) rest := by
  have hprimary : Reads .primary n (.int 1 :: rest) (.expr one) rest := .primary_int (by decide)
  refine .inner_of_unary (.unary_of_primary hprimary (by simp) (by simp) ?_) l hend
  exact hend.mono (by cases l <;> decide)

theorem endsAt_chainKinds {b m : Nat} {k : Kind} {rest : List Kind} (hk : b ≤ looseness k)
    (hr : EndsAt b rest) : EndsAt b (chainKinds k rest m) := by
  cases m with
  | zero => exact hr
  | succ m => exact endsAt_cons.2 hk

theorem reads_chainRest {l : Level} {k : Kind} {join : Expr → Expr → Expr}
    (hk : l.join? k = some join) {rest : List Kind} (hr : EndsAt (l.looseness + 1) rest)
    {m n : Nat} (hm : m ≤ n) (e : Expr) :
    Reads (.chainRest l e) n (chainKinds k rest m) (.expr (chainExpr join m e)) rest := by
  induction m generalizing n e with
  | zero => exact .chainRest_stop hr.stopsAt
  | succ m ih =>
    obtain ⟨n, rfl⟩ : ∃ n', n = n' + 1 := ⟨n - 1, by omega⟩
    refine .chainRest_step hk (reads_one ?_) (ih (by omega) _)
    exact endsAt_chainKinds (looseness_of_join? hk).ge (hr.mono (Nat.le_succ _))

theorem reads_chain {l : Level} {k : Kind} {join : Expr → Expr → Expr}
    (hk : l.join? k = some join) {ts rest : List Kind} (hr : EndsAt (l.looseness + 1) rest)
    {m n : Nat} (hm : m ≤ n) {e : Expr}
    (he : Reads l.inner n ts (.expr e) (chainKinds k rest m)) :
    Reads (.chain l) n ts (.expr (chainExpr join m e)) rest :=
  .chain he (reads_chainRest hk hr hm e)

theorem reads_steps {rest : List Kind} (hr : EndsAt 1 rest)
    (hparen : rest.head? ≠ some (.symbol .leftParen)) {m n : Nat} (hm : m ≤ n) (e : Expr) :
    Reads (.steps e) n (stepKinds rest m) (.expr (stepExpr m e)) rest := by
  induction m generalizing n e with
  | zero => exact .steps_stop hr.stepsStopAt
  | succ m ih =>
    obtain ⟨n, rfl⟩ : ∃ n', n = n' + 1 := ⟨n - 1, by omega⟩
    refine .steps_attr ?_ (ih (by omega) _)
    cases m with
    | zero => exact hparen
    | succ m => simp [stepKinds]

/-- Around a primary expression there is room for all levels of each kind. -/
theorem reads_around {n : Nat} {ts rest : List Kind} {e : Expr} (hr : EndsAt 6 rest)
    (hbang : ts.head? ≠ some (.symbol .bang)) (hminus : ts.head? ≠ some (.symbol .minus))
    (h : Reads .primary n ts (.expr e) (aroundKinds n rest)) :
    Reads (.chain .or) n ts (.expr (aroundExpr n e)) rest := by
  have hor : EndsAt 5 (chainKinds (.symbol .orOr) rest n) :=
    endsAt_chainKinds (by decide) (hr.mono (by decide))
  have hand : EndsAt 4 (chainKinds (.symbol .andAnd) (chainKinds (.symbol .orOr) rest n) n) :=
    endsAt_chainKinds (by decide) (hor.mono (by decide))
  have hplus : EndsAt 2 (chainKinds (.symbol .plus) (.symbol .equalEqual :: .int 1 ::
      chainKinds (.symbol .andAnd) (chainKinds (.symbol .orOr) rest n) n) n) :=
    endsAt_chainKinds (by decide) (endsAt_cons.2 (by decide))
  -- The right side of the comparison is the number one.
  have hright : Reads (.chain .add) n
      (.int 1 :: chainKinds (.symbol .andAnd) (chainKinds (.symbol .orOr) rest n) n) (.expr one)
      (chainKinds (.symbol .andAnd) (chainKinds (.symbol .orOr) rest n) n) :=
    .chain_of_inner (reads_one (hand.mono (by decide))) (hand.mono (by decide))
  refine reads_chain (l := .or) (k := .symbol .orOr) rfl hr (Nat.le_refl n) ?_
  refine reads_chain (l := .and) (k := .symbol .andAnd) rfl hor (Nat.le_refl n) ?_
  refine .relation_binary (k := .symbol .equalEqual) ?_ rfl hright
  refine reads_chain (l := .add) (k := .symbol .plus) rfl (endsAt_cons.2 (by decide))
    (Nat.le_refl n) ?_
  refine reads_chain (l := .mult) (k := .symbol .star) rfl hplus (Nat.le_refl n) ?_
  refine .unary hbang hminus h (reads_steps ?_ ?_ (Nat.le_refl n) e)
  · exact endsAt_chainKinds (by decide) (hplus.mono (by decide))
  · cases n <;> simp [chainKinds]

theorem reads_deepest_succ {n : Nat} {rest : List Kind} (hr : EndsAt 6 rest)
    (h : Reads (.items .rightBracket) n
      (deepestKinds n (.symbol .rightBracket :: aroundKinds n rest)) (.items (deepestItems n))
      (aroundKinds n rest)) :
    Reads .expr (n + 1) (deepestKinds (n + 1) rest)
      (.expr (aroundExpr n (.set (deepestItems n)))) rest := by
  refine .expr_chain (by simp [deepestKinds]) ?_
  exact reads_around hr (by simp [deepestKinds]) (by simp [deepestKinds]) (.primary_set h)

theorem reads_deepestItems (n : Nat) (rest : List Kind) :
    Reads (.items .rightBracket) n (deepestKinds n (.symbol .rightBracket :: rest))
      (.items (deepestItems n)) rest := by
  induction n generalizing rest with
  | zero => exact .items_nil
  | succ n ih =>
    exact .items_last (by simp [deepestKinds]) (reads_deepest_succ (by simp [looseness]) (ih _))

/-- The highest expression for room `n + 1` is read from its tokens. -/
theorem reads_deepest (n : Nat) {rest : List Kind} (hr : EndsAt 6 rest) :
    Reads .expr (n + 1) (deepestKinds (n + 1) rest)
      (.expr (aroundExpr n (.set (deepestItems n)))) rest :=
  reads_deepest_succ hr (reads_deepestItems n _)

/-! ## Its text -/

theorem spellable_chainKinds {k : Kind} {rest : List Kind} (hk : k.Spellable)
    (hr : ∀ k' ∈ rest, k'.Spellable) (m : Nat) : ∀ k' ∈ chainKinds k rest m, k'.Spellable := by
  induction m with
  | zero => exact hr
  | succ m ih =>
    have hone : (Kind.int 1).Spellable := by decide
    exact List.forall_mem_cons.2 ⟨hk, List.forall_mem_cons.2 ⟨hone, ih⟩⟩

theorem spellable_stepKinds {rest : List Kind} (hr : ∀ k ∈ rest, k.Spellable) (m : Nat) :
    ∀ k ∈ stepKinds rest m, k.Spellable := by
  induction m with
  | zero => exact hr
  | succ m ih =>
    have ha : (Kind.ident "a").Spellable := by decide
    exact List.forall_mem_cons.2 ⟨trivial, List.forall_mem_cons.2 ⟨ha, ih⟩⟩

theorem spellable_deepestKinds (n : Nat) {rest : List Kind} (hr : ∀ k ∈ rest, k.Spellable) :
    ∀ k ∈ deepestKinds n rest, k.Spellable := by
  induction n generalizing rest with
  | zero => exact hr
  | succ n ih =>
    have hor := spellable_chainKinds (k := .symbol .orOr) (by decide) hr n
    have hand := spellable_chainKinds (k := .symbol .andAnd) (by decide) hor n
    have hequal : ∀ k ∈ Kind.symbol .equalEqual :: .int 1 :: chainKinds (.symbol .andAnd)
        (chainKinds (.symbol .orOr) rest n) n, k.Spellable :=
      List.forall_mem_cons.2 ⟨by decide, List.forall_mem_cons.2 ⟨by decide, hand⟩⟩
    have hadd := spellable_chainKinds (k := .symbol .plus) (by decide) hequal n
    have hmul := spellable_chainKinds (k := .symbol .star) (by decide) hadd n
    have hclose : ∀ k ∈ Kind.symbol .rightBracket :: aroundKinds n rest, k.Spellable :=
      List.forall_mem_cons.2 ⟨by decide, spellable_stepKinds hmul n⟩
    exact List.forall_mem_cons.2 ⟨by decide, ih hclose⟩

/-- The tokens of a policy whose only condition is the highest one for room `n`. -/
def deepestPolicyKinds (n : Nat) : List Kind :=
  [.ident "permit", .symbol .leftParen, .ident "principal", .symbol .comma, .ident "action",
    .symbol .comma, .ident "resource", .symbol .rightParen, .ident "when", .symbol .leftBrace] ++
    deepestKinds n [.symbol .rightBrace, .symbol .semicolon]

def deepestPolicy (n : Nat) : Policy :=
  ⟨.ofIndex 0, .permit, ⟨.any, .any, .any⟩, (deepestItems n).map (⟨.when, ·⟩), {}⟩

theorem readsScope_any (ts : List Kind) :
    ReadsScope (.ident "principal" :: .symbol .comma :: .ident "action" :: .symbol .comma ::
      .ident "resource" :: .symbol .rightParen :: ts) ⟨.any, .any, .any⟩
      (.symbol .rightParen :: ts) :=
  .intro (.any (by simp) (by simp) (by simp)) (.any (by simp) (by simp) (by simp))
    (.any (by simp) (by simp) (by simp))

theorem readsPolicy_deepest (n : Nat) :
    ReadsPolicy (n + 1) (deepestPolicy (n + 1)) (deepestPolicyKinds (n + 1)) [] := by
  have hclose : EndsAt 6 [Kind.symbol .rightBrace, .symbol .semicolon] :=
    endsAt_cons.2 (by decide)
  have hcs : ReadsConditions (n + 1)
      (.ident "when" :: .symbol .leftBrace ::
        deepestKinds (n + 1) [.symbol .rightBrace, .symbol .semicolon])
      (deepestPolicy (n + 1)).conditions [.symbol .semicolon] :=
    .cons rfl (reads_deepest n hclose) (.stop (by simp [conditionKind?]))
  exact .intro (.stop (by simp [deepestPolicyKinds])) (readsScope_any _) hcs

theorem spellable_deepestPolicyKinds (n : Nat) : ∀ k ∈ deepestPolicyKinds n, k.Spellable :=
  List.forall_mem_append.2 ⟨by decide, spellable_deepestKinds n (by decide)⟩

end Parse

/-- The text of a policy whose only condition is the highest one for the bound. -/
def Policy.deepestText (bound : Nat) : String :=
  String.ofList (spelled (Parse.deepestPolicyKinds bound))

theorem Policy.parseAll_deepestText (n : Nat) :
    Policy.parseAll (n + 1) (Policy.deepestText (n + 1)) = .ok [Parse.deepestPolicy (n + 1)] := by
  obtain ⟨ts, hts, hkinds⟩ := Tokens.ofText_spelled (Parse.spellable_deepestPolicyKinds (n + 1))
  refine Policy.parseAll_eq_ok_iff.2 ⟨ts, hts, ?_⟩
  rw [hkinds]
  exact Parse.policies_eq_ok_iff.2 (.cons rfl (Parse.readsPolicy_deepest n) .nil)

theorem Policy.bodies_deepestPolicy (n : Nat) :
    Policy.bodies [Parse.deepestPolicy n] = Parse.deepestItems n := by
  simp [Policy.bodies, Parse.deepestPolicy, Function.comp_def]

/-! ## The bound -/

theorem Policy.height_le_of_mem_bodies {bound : Nat} {text : String} {ps : List Policy}
    (h : Policy.parseAll bound text = .ok ps) :
    ∀ e ∈ Policy.bodies ps, e.height ≤ Parse.greatestHeight bound := by
  intro e he
  obtain ⟨ts, rest, hr⟩ := Policy.reads_of_mem_bodies h e he
  exact hr.height_le

theorem Policy.exists_body_of_height (n : Nat) :
    ∃ e ∈ Policy.bodies [Parse.deepestPolicy (n + 1)],
      e.height = Parse.greatestHeight (n + 1) := by
  rw [Policy.bodies_deepestPolicy]
  have hh := Parse.height_deepestItems (n + 1)
  rw [Parse.deepestItems, itemsHeight, itemsHeight, Nat.max_zero] at hh
  exact ⟨_, List.mem_singleton.2 rfl, hh⟩

theorem Parse.greatestHeight_le_two_mul_iff {d : Nat} (hd : 1 ≤ d) :
    Parse.greatestHeight d ≤ 2 * d ↔ d = 1 := by
  constructor
  · intro h
    have hsq := Parse.two_mul_greatestHeight d
    have hle : d * d ≤ d * 1 := by omega
    exact Nat.le_antisymm (Nat.le_of_mul_le_mul_left hle hd) hd
  · rintro rfl
    decide

/-- **Accepted conditions reach a height that is quadratic in the nesting bound and none is higher;
they all stay within twice the bound only when the bound is one.** -/
theorem Policy.parseAll_height (d : Nat) (hd : 1 ≤ d) :
    (∀ text ps, Policy.parseAll d text = .ok ps →
        ∀ e ∈ Policy.bodies ps, e.height ≤ d * (5 * d - 1) / 2) ∧
      (∃ text ps, Policy.parseAll d text = .ok ps ∧
        ∃ e ∈ Policy.bodies ps, e.height = d * (5 * d - 1) / 2) ∧
      ((∀ text ps, Policy.parseAll d text = .ok ps →
        ∀ e ∈ Policy.bodies ps, e.height ≤ 2 * d) ↔ d = 1) := by
  obtain ⟨n, rfl⟩ : ∃ n, d = n + 1 := ⟨d - 1, by omega⟩
  rw [← Parse.greatestHeight_eq, ← Parse.greatestHeight_le_two_mul_iff hd]
  refine ⟨fun text ps h => Policy.height_le_of_mem_bodies h, ?_, ?_, ?_⟩
  · exact ⟨_, _, Policy.parseAll_deepestText n, Policy.exists_body_of_height n⟩
  · intro h
    obtain ⟨e, he, hheight⟩ := Policy.exists_body_of_height n
    rw [← hheight]
    exact h _ _ (Policy.parseAll_deepestText n) e he
  · intro h text ps hps e he
    exact Nat.le_trans (Policy.height_le_of_mem_bodies hps e he) h

theorem Policy.parseAll_height_two :
    (∃ text ps, Policy.parseAll 2 text = .ok ps ∧ ∃ e ∈ Policy.bodies ps, e.height = 9) ∧
      ¬ ∀ text ps, Policy.parseAll 2 text = .ok ps → ∀ e ∈ Policy.bodies ps, e.height ≤ 2 * 2 := by
  obtain ⟨-, hreached, htwice⟩ := Policy.parseAll_height 2 (by decide)
  exact ⟨hreached, fun h => absurd (htwice.1 h) (by decide)⟩

theorem Policy.height_exceeds_twice_bound :
    ∃ ps, Policy.parseAll 2 ("permit ( principal , action , resource ) when \x7b " ++
        "[ [ ] == 1 ] . a * 1 + 1 == 1 && 1 || 1 \x7d ;") = .ok ps ∧
      ∃ e ∈ Policy.bodies ps, ¬ e.height ≤ 2 * 2 := by
  have htext : Policy.deepestText 2 = "permit ( principal , action , resource ) when \x7b " ++
      "[ [ ] == 1 ] . a * 1 + 1 == 1 && 1 || 1 \x7d ;" := by decide
  refine ⟨_, htext ▸ Policy.parseAll_deepestText 1, ?_⟩
  obtain ⟨e, he, hheight⟩ := Policy.exists_body_of_height 1
  refine ⟨e, he, ?_⟩
  rw [hheight]
  decide

end AccessPolicy
