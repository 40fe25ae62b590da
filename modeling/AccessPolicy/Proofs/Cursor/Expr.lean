import AccessPolicy.Proofs.Cursor.Names
import AccessPolicy.Proofs.Parse.Sound

/-! # Expressions with a cursor

The readers of expressions call each other on fewer tokens, or on the same tokens in a fixed order.
Along that order each procedure does what its reader does, and calls nest no deeper than its measure
says. Loops start behind something that was read, and leave the level wherever it is within the
bound; the procedure around them sets it back. -/

namespace AccessPolicy.Cursor

open Parse (Level Reader joinPath measure_lt_of_length measure_lt_of_rank)

variable {α : Type} {input : Input} {s : State} {ts : List Kind} {d n : Nat}

/-- The procedure of a reader, with calls that nest `n` deep, does what the reader does. -/
def Follows (input : Input) (n d : Nat) (ts : List Kind) : Reader → Prop
  | .expr => ∀ s, s.Before input d ts →
    Ends input (Parse.expr input.bound d ts) (Took input d) (exec (within input n).expr s)
  | .conditional => ∀ s, s.Before input d ts →
    Ends input (Parse.conditional input.bound d ts) (Took input d)
      (exec (conditional input (within input n)) s)
  | .chain l => ∀ s, s.Before input d ts →
    Ends input (Parse.chain input.bound l d ts) (Took input d)
      (exec ((within input n).chain l) s)
  | .chainRest l lhs => ∀ s, s.Before input d ts →
    Ends input (Parse.chainRest input.bound l d lhs ts) (TookUp input)
      (exec ((within input n).chainLoop l lhs) s)
  | .relation => ∀ s, s.Before input d ts →
    Ends input (Parse.relation input.bound d ts) (Took input d)
      (exec (relation input (within input n)) s)
  | .unary => ∀ s k ops, s.Before input d ts → ts.length < k →
    (∀ rest i, ops = .neg :: rest → ts.head? ≠ some (.int i)) →
    Ends input (Parse.unary input.bound d ts) (fun t => TookUp input (t.map (applyAll ops)))
      (exec ((within input k).prefixLoop ops >>= prefixed input (within input n)) s)
  | .steps e => ∀ s, s.Before input d ts →
    Ends input (Parse.steps input.bound d e ts) (TookUp input)
      (exec ((within input n).suffixLoop e) s)
  | .items close => ∀ s es, s.Before input d ts →
    Ends input (Parse.items input.bound d close ts) (fun t => Took input d (t.map (es ++ ·)))
      (exec ((within input n).itemLoop close es) s)
  | .fields seen => ∀ s fields, s.Before input d ts →
    (∀ key, key ∈ fields.map Prod.fst ↔ key ∈ seen) →
    Ends input (Parse.fields input.bound d seen ts) (fun t => Took input d (t.map (fields ++ ·)))
      (exec ((within input n).fieldLoop fields) s)
  | .primary => ∀ s, s.Before input d ts →
    Ends input (Parse.primary input.bound d ts) (Took input d)
      (exec (primary input (within input n)) s)

/-- The procedures of the readers of smaller measure do what they do. -/
def FollowsBelow (input : Input) (n m : Nat) : Prop :=
  ∀ (r : Reader) (d : Nat) (ts : List Kind), r.measure ts < m → Follows input n d ts r

theorem length_lt_of_measure_le {r : Reader} {us : List Kind} (hn : r.measure ts ≤ n)
    (hus : us.length < ts.length) : us.length < n := by
  unfold Reader.measure at hn
  omega

theorem pattern_ends (h : s.Before input d ts) :
    Ends input (Parse.pattern ts) (Took input d) (exec (pattern input) s) := by
  rw [pattern, exec_bind_ok (exec_peek h), Parse.pattern.eq_def]
  match ts with
  | .string raw :: us =>
    dsimp only [List.head?_cons]
    cases Pattern.compile raw with
    | ok p =>
      dsimp only
      rw [exec_bind_ok (exec_advance h)]
      exact .pure ⟨rfl, h.next⟩
    | error fault => exact ⟨_, rfl, rfl, h.orderly⟩
  | [] | .ident _ :: _ | .int _ :: _ | .symbol _ :: _ => exact .expected h .patternString

/-- Behind the word `if` a condition goes on a level higher. -/
theorem expr_if_ends (h : s.Before input d (.ident "if" :: ts))
    (hcond : Follows input n (d + 1) ts .conditional) :
    Ends input (if d < input.bound then do
        let e ← Parse.conditional input.bound (d + 1) ts
        .ok e.wider
      else (Parse.fail (.ident "if" :: ts) (.tooDeep input.bound) :
        Parse.Step Expr (ts.length + 1))) (Took input d) (exec (within input (n + 1)).expr s) := by
  change Ends input _ _ (exec (expr input (within input n)) s)
  rw [expr]
  refine Ends.descend h fun hd s' hs' => ?_
  dsimp only
  rw [exec_ite_pos hs', exec_bind_ok (exec_advance hs')]
  exact ((hcond _ hs'.next).ascend h.le_bound).pack fun t a s h => h

theorem expr_follows (ih : FollowsBelow input n (Reader.expr.measure ts)) :
    Follows input (n + 1) d ts .expr := by
  intro s h
  change Ends input _ _ (exec (expr input (within input n)) s)
  rw [Parse.expr.eq_def]
  rcases eq_cons_or_head?_ne (.ident "if") ts with ⟨us, rfl⟩ | hk
  · exact expr_if_ends h (ih .conditional (d + 1) us (measure_lt_of_length (by simp)))
  rw [expr]
  refine Ends.descend h fun hd s' hs' => ?_
  dsimp only
  rw [exec_ite_neg hs' hk]
  split
  · exact absurd rfl hk
  · exact (ih (.chain .or) (d + 1) ts (measure_lt_of_rank (by decide)) _ hs').ascend h.le_bound

theorem conditional_follows (ih : FollowsBelow input n (Reader.conditional.measure ts)) :
    Follows input n d ts .conditional := by
  intro s h
  rw [conditional, Parse.conditional.eq_def]
  have hexpr : ∀ us : List Kind, us.length ≤ ts.length → ∀ s, s.Before input d us →
      Ends input (Parse.expr input.bound d us) (Took input d) (exec (within input n).expr s) :=
    fun us hus => ih .expr d us (by simp only [Reader.measure, Reader.rank]; omega)
  refine (hexpr ts (Nat.le_refl _) s h).bind ?_
  rintro ⟨_, ts₁, hlt₁⟩ test s₁ - ⟨rfl, h₁⟩
  refine (expect_ends h₁ _ _).bind ?_
  rintro ⟨_, ts₂, hlt₂⟩ _ s₂ - ⟨rfl, h₂⟩
  have hlt₂' : ts₂.length < ts.length := hlt₂.trans hlt₁
  refine (hexpr ts₂ hlt₂'.le s₂ h₂).bind ?_
  rintro ⟨_, ts₃, hlt₃⟩ thenE s₃ - ⟨rfl, h₃⟩
  refine (expect_ends h₃ _ _).bind ?_
  rintro ⟨_, ts₄, hlt₄⟩ _ s₄ - ⟨rfl, h₄⟩
  refine (hexpr ts₄ (hlt₄.trans (hlt₃.trans hlt₂')).le s₄ h₄).bind ?_
  rintro ⟨_, ts₅, hlt₅⟩ elseE s₅ - ⟨rfl, h₅⟩
  exact .pure ⟨rfl, h₅⟩

/-! ## Chains -/

theorem unary_ends (h : s.Before input d ts) (hn : ts.length < n)
    (hunary : Follows input n d ts .unary) :
    Ends input (Parse.unary input.bound d ts) (Took input d)
      (exec (unary input (within input n)) s) := by
  have hfrom := (hunary s n [] h hn nofun).mono fun t a s' hs' => show TookUp input t a s' from hs'
  have hrestore := hfrom.restore h.le_bound
  rw [bind_assoc] at hrestore
  rw [unary, exec_bind_ok exec_level, h.depth_eq]
  exact hrestore

theorem operand_ends {l : Level} (h : s.Before input d ts) (hn : ts.length < n)
    (hl : Follows input n d ts l.inner) :
    Ends input (Parse.operand input.bound l d ts) (Took input d)
      (exec (operand input (within input n) l) s) := by
  rw [Parse.operand.eq_def, operand.eq_def]
  cases l with
  | or => exact hl s h
  | and => exact hl s h
  | add => exact hl s h
  | mult => exact unary_ends h hn hl

theorem chain_follows {l : Level} (hn : (Reader.chain l).measure ts ≤ n)
    (ih : FollowsBelow input n ((Reader.chain l).measure ts)) :
    Follows input (n + 1) d ts (.chain l) := by
  intro s h
  have hts : ts.length < n := by
    simp only [Reader.measure, Reader.rank] at hn
    omega
  change Ends input _ _ (exec (chain input (within input n) l) s)
  rw [chain, Parse.chain.eq_def, exec_bind_ok exec_level, h.depth_eq]
  refine (operand_ends h hts (ih _ _ _ (measure_lt_of_rank l.rank_inner_lt))).bind ?_
  rintro ⟨_, ts₁, hlt₁⟩ lhs s₁ - ⟨rfl, h₁⟩
  have hloop := ih (.chainRest l lhs) d ts₁ (measure_lt_of_length hlt₁) s₁ h₁
  exact (hloop.restore h.le_bound).pack fun t a s h => h

theorem chainRest_follows {l : Level} {lhs : Expr}
    (hn : (Reader.chainRest l lhs).measure ts ≤ n)
    (ih : FollowsBelow input n ((Reader.chainRest l lhs).measure ts)) :
    Follows input (n + 1) d ts (.chainRest l lhs) := by
  intro s h
  change Ends input _ _ (exec (chainLoop input (within input n) l lhs) s)
  rw [chainLoop, Parse.chainRest.eq_def, exec_bind_ok (exec_peek h)]
  cases ts with
  | nil => exact .pure ⟨d, rfl, h⟩
  | cons k us =>
    dsimp only [List.head?_cons, Option.bind_some]
    cases l.join? k with
    | none => exact .pure ⟨d, rfl, h⟩
    | some join =>
      dsimp only
      rw [exec_bind_ok (exec_advance h)]
      refine Ends.descend h.next fun hd s' hs' => ?_
      have hus : us.length < (k :: us).length := Nat.lt_succ_self _
      refine (operand_ends hs' (length_lt_of_measure_le hn hus)
        (ih _ _ us (measure_lt_of_length hus))).bind ?_
      rintro ⟨_, ts₁, hlt₁⟩ rhs s₁ - ⟨rfl, h₁⟩
      have hloop := ih (.chainRest l (join lhs rhs)) (d + 1) ts₁
        (measure_lt_of_length (Nat.lt_succ_of_lt hlt₁)) s₁ h₁
      exact hloop.pack fun t a s h => h

/-! ## Relations -/

theorem relation_follows (hn : Reader.relation.measure ts ≤ n)
    (ih : FollowsBelow input n (Reader.relation.measure ts)) :
    Follows input n d ts .relation := by
  intro s h
  rw [relation, Parse.relation.eq_def]
  refine (ih (.chain .add) d ts (measure_lt_of_rank (by decide)) s h).bind ?_
  rintro ⟨_, ts₁, hlt₁⟩ lhs s₁ - ⟨rfl, h₁⟩
  have hadd : ∀ us : List Kind, us.length < ts.length → ∀ s, s.Before input d us →
      Ends input (Parse.chain input.bound .add d us) (Took input d)
        (exec ((within input n).chain .add) s) :=
    fun us hus => ih (.chain .add) d us (measure_lt_of_length hus)
  rw [exec_bind_ok (exec_peek h₁)]
  cases ts₁ with
  | nil =>
    dsimp only [List.head?_nil, Option.bind_none]
    rw [exec_ite_neg h₁ nofun, exec_ite_neg h₁ nofun, exec_ite_neg h₁ nofun]
    exact .pure ⟨rfl, h₁⟩
  | cons k us =>
    have hus : us.length < ts.length := (Nat.lt_succ_self _).trans hlt₁
    dsimp only [List.head?_cons, Option.bind_some]
    cases hop : Parse.relationOp? k with
    | some op =>
      dsimp only
      rw [exec_bind_ok (exec_advance h₁)]
      refine (hadd us hus _ h₁.next).bind ?_
      rintro t rhs s₂ - ⟨rfl, h₂⟩
      exact .pure ⟨rfl, h₂⟩
    | none =>
      dsimp only
      by_cases hhas : k = .ident "has"
      · subst hhas
        rw [if_pos rfl, exec_ite_pos h₁, exec_bind_ok (exec_advance h₁)]
        refine (identOrString_ends h₁.next _).bind ?_
        rintro t attr s₂ - ⟨rfl, h₂⟩
        exact .pure ⟨rfl, h₂⟩
      rw [if_neg hhas, exec_ite_neg h₁ (by simpa using hhas)]
      by_cases hlike : k = .ident "like"
      · subst hlike
        rw [if_pos rfl, exec_ite_pos h₁, exec_bind_ok (exec_advance h₁)]
        refine (pattern_ends h₁.next).bind ?_
        rintro t p s₂ - ⟨rfl, h₂⟩
        exact .pure ⟨rfl, h₂⟩
      rw [if_neg hlike, exec_ite_neg h₁ (by simpa using hlike)]
      by_cases his : k = .ident "is"
      · subst his
        rw [if_pos rfl, exec_ite_pos h₁, exec_bind_ok (exec_advance h₁)]
        refine (path_ends h₁.next (length_lt_of_measure_le hn hus).le).bind ?_
        rintro ⟨_, ts₂, hlt₂⟩ entityType s₂ - ⟨rfl, h₂⟩
        rcases eq_cons_or_head?_ne (.ident "in") ts₂ with ⟨ts₃, rfl⟩ | hk
        · rw [exec_ite_pos h₂, exec_bind_ok (exec_advance h₂)]
          dsimp only
          rw [Parse.accept?_cons_self]
          have hlt₃ : ts₃.length < ts.length := (Nat.lt_succ_self _).trans (hlt₂.trans hus)
          refine (hadd ts₃ hlt₃ _ h₂.next).bind ?_
          rintro t target s₃ - ⟨rfl, h₃⟩
          exact .pure ⟨rfl, h₃⟩
        · rw [exec_ite_neg h₂ hk]
          dsimp only
          rw [Parse.accept?_eq_none_iff.2 hk]
          exact .pure ⟨rfl, h₂⟩
      · rw [if_neg his, exec_ite_neg h₁ (by simpa using his)]
        exact .pure ⟨rfl, h₁⟩

/-! ## Operators in front of an operand, and steps behind it -/

/-- The steps of an expression, with the level set back behind them. -/
theorem suffixes_ends {e : Expr} (h : s.Before input d ts)
    (hsteps : Follows input n d ts (.steps e)) :
    Ends input (Parse.steps input.bound d e ts) (Took input d)
      (exec (suffixes (within input n) e) s) := by
  rw [suffixes, exec_bind_ok exec_level, h.depth_eq]
  exact (hsteps s h).restore h.le_bound

/-- A primary expression and the steps behind it. -/
def memberReader (input : Input) (d : Nat) (ts : List Kind) : Parse.Step Expr ts.length := do
  let ⟨e, rest, h⟩ ← Parse.primary input.bound d ts
  let e ← Parse.steps input.bound d e rest
  .ok (e.optionalAfter h)

theorem member_ends (h : s.Before input d ts) (hprimary : Follows input n d ts .primary)
    (hsteps : ∀ (e : Expr) (us : List Kind), us.length < ts.length →
      Follows input n d us (.steps e)) :
    Ends input (memberReader input d ts) (Took input d)
      (exec (member input (within input n)) s) := by
  rw [member]
  refine (hprimary s h).bind ?_
  rintro ⟨_, ts₁, hlt₁⟩ e s₁ - ⟨rfl, h₁⟩
  exact (suffixes_ends h₁ (hsteps e ts₁ hlt₁)).pack fun t a s h => h

/-- No operator comes next. -/
theorem exec_prefixLoop_stop (h : s.Before input d ts) (hn : 0 < n)
    (hbang : ts.head? ≠ some (.symbol .bang)) (hminus : ts.head? ≠ some (.symbol .minus))
    (ops : List Prefix) : exec ((within input n).prefixLoop ops) s = some (.ok ops, s) := by
  cases n with
  | zero => exact absurd hn (Nat.lt_irrefl 0)
  | succ n =>
    change exec (prefixLoop input (within input n) ops) s = _
    rw [prefixLoop, exec_bind_ok (exec_peek h)]
    dsimp only
    split
    · exact absurd ‹_› hbang
    · exact absurd ‹_› hminus
    · rfl

/-- An integer directly behind a sign. -/
theorem prefixed_int_ends {i : Nat} (h : s.Before input d (.int i :: ts))
    (hsteps : Follows input n d ts (.steps (.literal (.long (-i))))) (ops : List Prefix) :
    Ends input (if i ≤ 0x8000000000000000 then do
        let e ← Parse.steps input.bound d (.literal (.long (-i))) ts
        .ok e.wider
      else (Parse.fail (.int i :: ts) (.integerRange ("-" ++ toString i)) :
        Parse.Step Expr (ts.length + 2)))
      (fun t => TookUp input (t.map (applyAll ops)))
      (exec (prefixed input (within input n) (.neg :: ops)) s) := by
  rw [prefixed, exec_bind_ok (exec_peek h)]
  dsimp only [List.head?_cons]
  by_cases hi : i ≤ 0x8000000000000000
  · rw [if_pos hi, if_pos hi, exec_bind_ok (exec_advance h)]
    refine (suffixes_ends h.next hsteps).bind ?_
    rintro t e s₁ - ⟨rfl, h₁⟩
    exact .pure ⟨d, rfl, h₁⟩
  · rw [if_neg hi, if_neg hi]
    exact .failHere h _

/-- An operand without operators, behind operators of which none is a sign of it. -/
theorem prefixed_ends {ops : List Prefix} (h : s.Before input d ts)
    (hops : ∀ rest i, ops = .neg :: rest → ts.head? ≠ some (.int i))
    (hmember : Ends input (memberReader input d ts) (Took input d)
      (exec (member input (within input n)) s)) :
    Ends input (memberReader input d ts) (fun t => TookUp input (t.map (applyAll ops)))
      (exec (prefixed input (within input n) ops) s) := by
  rw [prefixed, exec_bind_ok (exec_peek h)]
  dsimp only
  split
  · exact absurd ‹_› (hops _ _ rfl)
  · refine hmember.bindPure ?_
    rintro t e s' ⟨rfl, hs'⟩
    exact .pure ⟨d, rfl, hs'⟩

theorem unary_follows (ih : FollowsBelow input n (Reader.unary.measure ts)) :
    Follows input n d ts .unary := by
  intro s k ops h hk hops
  obtain ⟨k, rfl⟩ := Nat.exists_eq_succ_of_ne_zero (Nat.ne_zero_of_lt hk)
  rw [Parse.unary.eq_def]
  split
  · rename_i us
    have hus : us.length < k := Nat.lt_of_succ_lt_succ hk
    have hnot : ∀ rest i, Prefix.not :: ops = .neg :: rest → us.head? ≠ some (.int i) := by
      intro rest i h
      cases h
    change Ends input _ _ (exec (prefixLoop input (within input k) ops >>= prefixed input _) s)
    rw [prefixLoop, bind_assoc, exec_bind_ok (exec_peek h)]
    dsimp only [List.head?_cons]
    rw [bind_assoc, exec_bind_ok (exec_advance h), bind_assoc]
    refine Ends.descend h.next fun hd s' hs' => ?_
    have hrest := ih .unary (d + 1) us (measure_lt_of_length (by simp)) s' k _ hs' hus hnot
    exact hrest.pack fun t a s h => h
  · rename_i us
    have hus : us.length < k := Nat.lt_of_succ_lt_succ hk
    change Ends input _ _ (exec (prefixLoop input (within input k) ops >>= prefixed input _) s)
    rw [prefixLoop, bind_assoc, exec_bind_ok (exec_peek h)]
    dsimp only [List.head?_cons]
    rw [bind_assoc, exec_bind_ok (exec_advance h), bind_assoc]
    refine Ends.descend h.next fun hd s' hs' => ?_
    split
    · rename_i i vs
      have hsteps := ih (.steps (.literal (.long (-i)))) (d + 1) vs
        (measure_lt_of_length (by simp only [List.length_cons]; omega))
      rw [exec_bind_ok (exec_prefixLoop_stop hs' (Nat.zero_lt_of_lt hus) (by simp) (by simp) _)]
      exact prefixed_int_ends hs' hsteps ops
    · rename_i hint
      have hsign : ∀ rest n, Prefix.neg :: ops = .neg :: rest → us.head? ≠ some (.int n) :=
        fun _ n _ => Parse.head?_ne_of_forall (hint n)
      have hrest := ih .unary (d + 1) us (measure_lt_of_length (by simp)) s' k _ hs' hus hsign
      exact hrest.pack fun t a s h => h
  · rename_i hbang hminus
    rw [exec_bind_ok (exec_prefixLoop_stop h (Nat.succ_pos k) (Parse.head?_ne_of_forall hbang)
      (Parse.head?_ne_of_forall hminus) _)]
    exact prefixed_ends h hops (member_ends h (ih .primary d ts (measure_lt_of_rank (by decide)))
      fun e us hus => ih (.steps e) d us (measure_lt_of_length hus))

/-- Arguments behind an opening parenthesis. -/
theorem args_ends (h : s.Before input d (.symbol .leftParen :: ts))
    (hitems : Follows input n d ts (.items .rightParen)) :
    Ends input (Parse.items input.bound d .rightParen ts) (Took input d)
      (exec (args input (within input n)) s) := by
  rw [args, symbol, exec_bind_ok (exec_expect h _)]
  exact (hitems _ [] h.next).mono fun t a s h => h

theorem steps_follows {e : Expr} (ih : FollowsBelow input n ((Reader.steps e).measure ts)) :
    Follows input (n + 1) d ts (.steps e) := by
  intro s h
  change Ends input _ _ (exec (suffixLoop input (within input n) e) s)
  rw [suffixLoop, exec_bind_ok (exec_peek h), Parse.steps.eq_def]
  split
  · rename_i us
    dsimp only [List.head?_cons]
    rw [exec_bind_ok (exec_advance h)]
    refine Ends.descend h.next fun hd s' hs' => ?_
    refine (ident_ends hs' _).bind ?_
    rintro ⟨_, ts₁, hlt₁⟩ name s₁ - ⟨rfl, h₁⟩
    have hlt₁' : ts₁.length < us.length + 1 := hlt₁.trans (Nat.lt_succ_self _)
    dsimp only
    rcases eq_cons_or_head?_ne (.symbol .leftParen) ts₁ with ⟨ts₂, rfl⟩ | hk
    · rw [exec_ite_pos h₁, Parse.accept?_cons_self]
      have hlt₂ : ts₂.length < us.length + 1 := (Nat.lt_succ_self _).trans hlt₁'
      refine (args_ends h₁ (ih _ _ ts₂ (measure_lt_of_length hlt₂))).bind ?_
      rintro ⟨_, ts₃, hlt₃⟩ es s₃ - ⟨rfl, h₃⟩
      have hloop := ih (.steps (.method e name es)) (d + 1) ts₃
        (measure_lt_of_length (hlt₃.trans hlt₂)) s₃ h₃
      exact hloop.pack fun t a s h => h
    · rw [exec_ite_neg h₁ hk, Parse.accept?_eq_none_iff.2 hk]
      have hloop := ih (.steps (.getAttr e name)) (d + 1) ts₁ (measure_lt_of_length hlt₁') s₁ h₁
      exact hloop.pack fun t a s h => h
  · rename_i us
    dsimp only [List.head?_cons]
    rw [exec_bind_ok (exec_advance h)]
    refine Ends.descend h.next fun hd s' hs' => ?_
    refine (string_ends hs' _).bind ?_
    rintro ⟨_, ts₁, hlt₁⟩ attr s₁ - ⟨rfl, h₁⟩
    refine (expect_ends h₁ _ _).bind ?_
    rintro ⟨_, ts₂, hlt₂⟩ _ s₂ - ⟨rfl, h₂⟩
    have hlt₂' : ts₂.length < us.length + 1 := (hlt₂.trans hlt₁).trans (Nat.lt_succ_self _)
    have hloop := ih (.steps (.getAttr e attr)) (d + 1) ts₂ (measure_lt_of_length hlt₂') s₂ h₂
    exact hloop.pack fun t a s h => h
  · rename_i hdot hbracket
    dsimp only
    split
    · rename_i hhead
      exact absurd hhead (Parse.head?_ne_of_forall hdot)
    · rename_i hhead
      exact absurd hhead (Parse.head?_ne_of_forall hbracket)
    · exact .pure ⟨d, rfl, h⟩

/-! ## Lists -/

/-- A list that ends here. -/
theorem exec_itemLoop_close {close : Symbol} (h : s.Before input d (.symbol close :: ts))
    (hn : 0 < n) (es : List Expr) :
    exec ((within input n).itemLoop close es) s = some (.ok es, s.next) := by
  cases n with
  | zero => exact absurd hn (Nat.lt_irrefl 0)
  | succ n =>
    change exec (itemLoop input (within input n) close es) s = _
    rw [itemLoop, exec_ite_pos h, exec_bind_ok (exec_advance h)]
    rfl

theorem items_follows {close : Symbol} (hn : (Reader.items close).measure ts ≤ n)
    (ih : FollowsBelow input n ((Reader.items close).measure ts)) :
    Follows input (n + 1) d ts (.items close) := by
  intro s es h
  rw [Parse.items.eq_def]
  rcases eq_cons_or_head?_ne (.symbol close) ts with ⟨us, rfl⟩ | hk
  · rw [exec_itemLoop_close h (Nat.succ_pos n), Parse.accept?_cons_self]
    exact ⟨_, rfl, (List.append_nil es).symm, h.next⟩
  change Ends input _ _ (exec (itemLoop input (within input n) close es) s)
  rw [itemLoop, exec_ite_neg h hk, Parse.accept?_eq_none_iff.2 hk]
  refine (ih .expr d ts (measure_lt_of_rank (Nat.lt_succ_self _)) s h).bind ?_
  rintro ⟨_, ts₁, hlt₁⟩ e s₁ - ⟨rfl, h₁⟩
  have hpos : 0 < n := Nat.zero_lt_of_lt (length_lt_of_measure_le hn hlt₁)
  dsimp only
  rcases eq_cons_or_head?_ne (.symbol close) ts₁ with ⟨ts₂, rfl⟩ | hk₁
  · rw [exec_ite_pos h₁, exec_itemLoop_close h₁ hpos, Parse.accept?_cons_self]
    exact ⟨_, rfl, rfl, h₁.next⟩
  rw [exec_ite_neg h₁ hk₁, Parse.accept?_eq_none_iff.2 hk₁]
  refine (expect_ends h₁ _ _).bind ?_
  rintro ⟨_, ts₂, hlt₂⟩ _ s₂ - ⟨rfl, h₂⟩
  have hloop := ih (.items close) d ts₂ (measure_lt_of_length (hlt₂.trans hlt₁)) s₂ (es ++ [e]) h₂
  refine hloop.pack fun t a s' hs' => ⟨?_, hs'.2⟩
  rw [hs'.1, Taken.value_map, List.append_assoc]
  rfl

/-- A record that ends here. -/
theorem exec_fieldLoop_close (h : s.Before input d (.symbol .rightBrace :: ts)) (hn : 0 < n)
    (fields : List (String × Expr)) :
    exec ((within input n).fieldLoop fields) s = some (.ok fields, s.next) := by
  cases n with
  | zero => exact absurd hn (Nat.lt_irrefl 0)
  | succ n =>
    change exec (fieldLoop input (within input n) fields) s = _
    rw [fieldLoop, exec_ite_pos h, exec_bind_ok (exec_advance h)]
    rfl

theorem fields_follows {seen : List String} (hn : (Reader.fields seen).measure ts ≤ n)
    (ih : FollowsBelow input n ((Reader.fields seen).measure ts)) :
    Follows input (n + 1) d ts (.fields seen) := by
  intro s fields h hseen
  rw [Parse.fields.eq_def]
  rcases eq_cons_or_head?_ne (.symbol .rightBrace) ts with ⟨us, rfl⟩ | hk
  · rw [exec_fieldLoop_close h (Nat.succ_pos n), Parse.accept?_cons_self]
    exact ⟨_, rfl, (List.append_nil fields).symm, h.next⟩
  change Ends input _ _ (exec (fieldLoop input (within input n) fields) s)
  rw [fieldLoop, exec_ite_neg h hk, Parse.accept?_eq_none_iff.2 hk, exec_bind_ok (exec_peek h)]
  refine (identOrString_ends h _).bind ?_
  rintro ⟨_, ts₁, hlt₁⟩ key s₁ - ⟨rfl, h₁⟩
  dsimp only
  by_cases hkey : key ∈ seen
  · rw [if_pos hkey, if_pos ((hseen key).2 hkey)]
    exact ⟨_, rfl, rfl, h₁.orderly⟩
  rw [if_neg hkey, if_neg (mt (hseen key).1 hkey)]
  refine (expect_ends h₁ _ _).bind ?_
  rintro ⟨_, ts₂, hlt₂⟩ _ s₂ - ⟨rfl, h₂⟩
  have hlt₂' : ts₂.length < ts.length := hlt₂.trans hlt₁
  have hpos : 0 < n := Nat.zero_lt_of_lt (length_lt_of_measure_le hn hlt₂')
  refine (ih .expr d ts₂ (measure_lt_of_length hlt₂') s₂ h₂).bind ?_
  rintro ⟨_, ts₃, hlt₃⟩ e s₃ - ⟨rfl, h₃⟩
  dsimp only
  rcases eq_cons_or_head?_ne (.symbol .rightBrace) ts₃ with ⟨ts₄, rfl⟩ | hk₃
  · rw [exec_ite_pos h₃, exec_fieldLoop_close h₃ hpos, Parse.accept?_cons_self]
    exact ⟨_, rfl, rfl, h₃.next⟩
  rw [exec_ite_neg h₃ hk₃, Parse.accept?_eq_none_iff.2 hk₃]
  refine (expect_ends h₃ _ _).bind ?_
  rintro ⟨_, ts₄, hlt₄⟩ _ s₄ - ⟨rfl, h₄⟩
  have hseen' : ∀ k, k ∈ (fields ++ [(key, e)]).map Prod.fst ↔ k ∈ key :: seen := by
    intro k
    rw [List.map_append, List.mem_append, hseen, List.mem_cons, or_comm]
    simp
  have hloop := ih (.fields (key :: seen)) d ts₄
    (measure_lt_of_length (hlt₄.trans (hlt₃.trans hlt₂'))) s₄ (fields ++ [(key, e)]) h₄ hseen'
  refine hloop.pack fun t a s' hs' => ⟨?_, hs'.2⟩
  rw [hs'.1, Taken.value_map, List.append_assoc]
  rfl

/-- A record whose brace opens here. -/
theorem record_ends (h : s.Before input d (.symbol .leftBrace :: ts))
    (hfields : Follows input n d ts (.fields [])) :
    Ends input (Parse.fields input.bound d [] ts) (fun t => Took input d (t.map .record))
      (exec (record input (within input n)) s) := by
  rw [record, symbol, exec_bind_ok (exec_expect h _)]
  refine (hfields _ [] h.next fun key => Iff.rfl).bindPure ?_
  rintro t fields s' ⟨rfl, hs'⟩
  exact .pure ⟨rfl, hs'⟩

/-! ## Primary expressions -/

/-- A variable, a name, a reference or a call that starts with a word. -/
def nameReader (input : Input) (d : Nat) (word : String) (ts : List Kind) :
    Parse.Step Expr (ts.length + 1) := do
  let ⟨r, ts₁, h₁⟩ ← Parse.reference [word] ts
  match r with
  | .entity u => .ok ⟨.literal (.entity u), ts₁, h₁⟩
  | .name path =>
    match Taken.accept? (.symbol .leftParen) ts₁ with
    | some ⟨_, ts₂, h₂⟩ => do
      let args ← Parse.items input.bound d .rightParen ts₂
      .ok (((args.map (.call (joinPath path))).after h₂).after h₁)
    | none =>
      match path with
      | [name] => .ok ⟨((Var.ofName? name).map Expr.var).getD (.name name), ts₁, h₁⟩
      | _ => Parse.expected .colonsAndEntityId ts₁

theorem nameRest_ends (h : s.Before input d ts) (hn : ts.length < n) (word : String)
    (hitems : ∀ us : List Kind, us.length < ts.length → Follows input n d us (.items .rightParen)) :
    Ends input (nameReader input d word ts) (Took input d)
      (exec (nameRest input (within input n) word) s) := by
  rw [nameRest, nameReader]
  refine (referenceLoop_ends h hn [word]).bind ?_
  rintro ⟨_, ts₁, hlt₁⟩ r s₁ hr ⟨rfl, h₁⟩
  cases r with
  | entity u => exact .pure ⟨rfl, h₁⟩
  | name path =>
    obtain ⟨names, _, _, hend⟩ := Parse.takes_reference_iff.1 ⟨hlt₁, hr⟩
    cases hend
    dsimp only
    rcases eq_cons_or_head?_ne (.symbol .leftParen) ts₁ with ⟨ts₂, rfl⟩ | hk
    · rw [exec_ite_pos h₁, Parse.accept?_cons_self]
      refine (args_ends h₁ (hitems ts₂ (Nat.lt_of_succ_lt_succ hlt₁))).bind ?_
      rintro t es s₂ - ⟨rfl, h₂⟩
      exact .pure ⟨rfl, h₂⟩
    · rw [exec_ite_neg h₁ hk, Parse.accept?_eq_none_iff.2 hk]
      cases names with
      | nil => exact .pure ⟨rfl, h₁⟩
      | cons name names => exact .expected h₁ _

theorem primary_follows (hn : Reader.primary.measure ts ≤ n + 1)
    (ih : FollowsBelow input (n + 1) (Reader.primary.measure ts))
    (hcond : ∀ us : List Kind, us.length < ts.length → Follows input n (d + 1) us .conditional) :
    Follows input (n + 1) d ts .primary := by
  intro s h
  rw [primary, exec_bind_ok (exec_peek h), Parse.primary.eq_def]
  have hsub : ∀ (r : Reader) (d : Nat) (us : List Kind), us.length < ts.length →
      Follows input (n + 1) d us r := fun r d us hus => ih r d us (measure_lt_of_length hus)
  split
  · rename_i i us
    dsimp only [List.head?_cons]
    by_cases hi : i < 0x8000000000000000
    · rw [if_pos hi, if_pos hi, exec_bind_ok (exec_advance h)]
      exact .pure ⟨rfl, h.next⟩
    · rw [if_neg hi, if_neg hi]
      exact .failHere h _
  · refine (string_ends h _).bind ?_
    rintro t a s' - ⟨rfl, hs'⟩
    exact .pure ⟨rfl, hs'⟩
  · rename_i us
    dsimp only [List.head?_cons]
    rw [exec_bind_ok (exec_advance h)]
    refine (hsub .expr d us (by simp) _ h.next).bind ?_
    rintro ⟨_, ts₁, hlt₁⟩ e s₁ - ⟨rfl, h₁⟩
    refine (expect_ends h₁ _ _).bind ?_
    rintro t _ s₂ - ⟨rfl, h₂⟩
    exact .pure ⟨rfl, h₂⟩
  · rename_i us
    dsimp only [List.head?_cons]
    rw [exec_bind_ok (exec_advance h)]
    refine (hsub (.items _) d us (by simp) _ [] h.next).bind ?_
    rintro t es s₁ - ⟨rfl, h₁⟩
    exact .pure ⟨rfl, h₁⟩
  · rename_i us
    exact (record_ends h (hsub (.fields []) d us (by simp))).pack fun t a s h => h
  · rename_i us
    dsimp only [List.head?_cons]
    rw [if_pos rfl]
    exact expr_if_ends h (hcond us (by simp))
  · dsimp only [List.head?_cons]
    rw [if_neg (by decide), if_pos (by decide), exec_bind_ok (exec_advance h)]
    exact .pure ⟨rfl, h.next⟩
  · dsimp only [List.head?_cons]
    rw [if_neg (by decide), if_pos (by decide), exec_bind_ok (exec_advance h)]
    exact .pure ⟨rfl, h.next⟩
  · rename_i word us hif htrue hfalse
    dsimp only [List.head?_cons]
    rw [if_neg hif, if_neg (not_or.2 ⟨htrue, hfalse⟩)]
    by_cases hword : word ∈ Parse.reserved
    · rw [if_pos hword, if_pos hword]
      exact .expected h _
    rw [if_neg hword, if_neg hword, nameOrReference, exec_bind_ok (exec_ident h _)]
    have hus : us.length < n + 1 := length_lt_of_measure_le hn (Nat.lt_succ_self _)
    exact nameRest_ends h.next hus word fun rest hrest =>
      hsub _ d rest (Nat.lt_succ_of_lt hrest)
  · rename_i hint hstring hparen hbracket hbrace _ _ _ hident
    dsimp only
    split
    · exact absurd ‹_› (Parse.head?_ne_of_forall (hint _))
    · exact absurd ‹_› (Parse.head?_ne_of_forall (hstring _))
    · exact absurd ‹_› (Parse.head?_ne_of_forall hparen)
    · exact absurd ‹_› (Parse.head?_ne_of_forall hbracket)
    · exact absurd ‹_› (Parse.head?_ne_of_forall hbrace)
    · exact absurd ‹_› (Parse.head?_ne_of_forall (hident _))
    · exact .expected h _

/-- **The procedures for expressions do what their readers do**, if calls may nest deep enough. -/
theorem follows {r : Reader} (hn : r.measure ts < n) : Follows input n d ts r := by
  suffices h : ∀ m n, m ≤ n → FollowsBelow input n m from h _ n hn r d ts (Nat.lt_succ_self _)
  intro m
  induction m using Nat.strongRecOn with
  | ind m ih =>
    intro n hmn r d ts hm
    obtain ⟨n, rfl⟩ := Nat.exists_eq_succ_of_ne_zero (Nat.ne_zero_of_lt (hm.trans_le hmn))
    have hn : r.measure ts ≤ n := Nat.le_of_lt_succ (hm.trans_le hmn)
    -- A call leaves one level of calls less; what is no call has them all.
    have hcalled := ih _ hm n hn
    have hinside := ih _ hm (n + 1) (Nat.le_succ_of_le hn)
    cases r with
    | expr => exact expr_follows hcalled
    | conditional => exact conditional_follows hinside
    | chain l => exact chain_follows hn hcalled
    | chainRest l lhs => exact chainRest_follows hn hcalled
    | relation => exact relation_follows (Nat.le_succ_of_le hn) hinside
    | unary => exact unary_follows hinside
    | steps e => exact steps_follows hcalled
    | items close => exact items_follows hn hcalled
    | fields seen => exact fields_follows hn hcalled
    | primary =>
      exact primary_follows (Nat.le_succ_of_le hn) hinside fun us hus =>
        hcalled .conditional _ us (measure_lt_of_length hus)

end AccessPolicy.Cursor
