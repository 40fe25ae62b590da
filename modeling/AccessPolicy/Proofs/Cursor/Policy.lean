import AccessPolicy.Proofs.Cursor.Expr

/-! # Policies with a cursor

What stands around the expressions takes no level. -/

namespace AccessPolicy.Cursor

open Parse (Reader Slot)

variable {input : Input} {s : State} {ts : List Kind} {n : Nat}

/-! ## Annotations and effects -/

theorem annotationLoop_ends (h : s.Before input 0 ts) (hn : ts.length < n)
    (notes : Annotations) :
    Ends input (Parse.annotations notes ts) (Took input 0)
      (exec ((within input n).annotationLoop notes) s) := by
  induction n generalizing s ts notes with
  | zero => exact absurd hn (Nat.not_lt_zero _)
  | succ n ih =>
    change Ends input _ _ (exec (annotationLoop input (within input n) notes) s)
    rw [annotationLoop, Parse.annotations]
    rcases eq_cons_or_head?_ne (.symbol .at) ts with ⟨us, rfl⟩ | hk
    · rw [exec_ite_pos h, exec_bind_ok (exec_advance h), Parse.accept?_cons_self]
      have hus : us.length < n := Nat.lt_of_succ_lt_succ hn
      refine (ident_ends h.next _).bind ?_
      rintro ⟨_, ts₂, hlt₂⟩ key s₂ - ⟨rfl, h₂⟩
      dsimp only
      rcases eq_cons_or_head?_ne (.symbol .leftParen) ts₂ with ⟨ts₃, rfl⟩ | hk
      · rw [exec_ite_pos h₂, exec_bind_ok (exec_advance h₂), Parse.accept?_cons_self]
        refine (string_ends h₂.next _).bind ?_
        rintro ⟨_, ts₄, hlt₄⟩ value s₄ - ⟨rfl, h₄⟩
        refine (expect_ends h₄ _ _).bind ?_
        rintro ⟨_, ts₅, hlt₅⟩ _ s₅ - ⟨rfl, h₅⟩
        have hlt₅' : ts₅.length < us.length :=
          (hlt₅.trans (hlt₄.trans (Nat.lt_succ_self _))).trans hlt₂
        exact (ih h₅ (hlt₅'.trans hus) (notes.insert key value)).pack fun t a s h => h
      · rw [exec_ite_neg h₂ hk, Parse.accept?_eq_none_iff.2 hk]
        exact (ih h₂ (hlt₂.trans hus) (notes.insert key "")).pack fun t a s h => h
    · rw [exec_ite_neg h hk, Parse.accept?_eq_none_iff.2 hk]
      exact .pure ⟨rfl, h⟩

theorem effect_ends (h : s.Before input 0 ts) :
    Ends input (Parse.effect ts) (Took input 0) (exec (effect input) s) := by
  rw [effect]
  rcases eq_cons_or_head?_ne (.ident "permit") ts with ⟨us, rfl⟩ | hpermit
  · rw [exec_ite_pos h, exec_bind_ok (exec_advance h)]
    exact .pure ⟨rfl, h.next⟩
  rw [exec_ite_neg h hpermit]
  rcases eq_cons_or_head?_ne (.ident "forbid") ts with ⟨us, rfl⟩ | hforbid
  · rw [exec_ite_pos h, exec_bind_ok (exec_advance h)]
    exact .pure ⟨rfl, h.next⟩
  rw [exec_ite_neg h hforbid, Parse.effect.eq_def]
  split
  · exact absurd rfl hpermit
  · exact absurd rfl hforbid
  · exact .expected h _

/-! ## Scopes -/

theorem exec_uidLoop_close (h : s.Before input 0 (.symbol .rightBracket :: ts)) (hn : 0 < n)
    (us : List Uid) : exec ((within input n).uidLoop us) s = some (.ok us, s.next) := by
  cases n with
  | zero => exact absurd hn (Nat.lt_irrefl 0)
  | succ n =>
    change exec (uidLoop input (within input n) us) s = _
    rw [uidLoop, exec_ite_pos h, exec_bind_ok (exec_advance h)]
    rfl

theorem uidLoop_ends (h : s.Before input 0 ts) (hn : ts.length < n) (us : List Uid) :
    Ends input (Parse.uids ts) (fun t => Took input 0 (t.map (us ++ ·)))
      (exec ((within input n).uidLoop us) s) := by
  induction n generalizing s ts us with
  | zero => exact absurd hn (Nat.not_lt_zero _)
  | succ n ih =>
    rw [Parse.uids]
    rcases eq_cons_or_head?_ne (.symbol .rightBracket) ts with ⟨ts₁, rfl⟩ | hk
    · rw [exec_uidLoop_close h (Nat.succ_pos n), Parse.accept?_cons_self]
      exact ⟨_, rfl, (List.append_nil us).symm, h.next⟩
    change Ends input _ _ (exec (uidLoop input (within input n) us) s)
    rw [uidLoop, exec_ite_neg h hk, Parse.accept?_eq_none_iff.2 hk]
    have hn : ts.length ≤ n := Nat.le_of_lt_succ hn
    refine (uid_ends h hn).bind ?_
    rintro ⟨_, ts₁, hlt₁⟩ u s₁ - ⟨rfl, h₁⟩
    dsimp only
    rcases eq_cons_or_head?_ne (.symbol .rightBracket) ts₁ with ⟨ts₂, rfl⟩ | hk₁
    · rw [exec_ite_pos h₁, exec_uidLoop_close h₁ (Nat.zero_lt_of_lt (hlt₁.trans_le hn)),
        Parse.accept?_cons_self]
      exact ⟨_, rfl, rfl, h₁.next⟩
    rw [exec_ite_neg h₁ hk₁, Parse.accept?_eq_none_iff.2 hk₁]
    refine (expect_ends h₁ _ _).bind ?_
    rintro ⟨_, ts₂, hlt₂⟩ _ s₂ - ⟨rfl, h₂⟩
    have hlt₂' : ts₂.length < n := (hlt₂.trans hlt₁).trans_le hn
    refine (ih h₂ hlt₂' (us ++ [u])).pack fun t a s' hs' => ⟨?_, hs'.2⟩
    rw [hs'.1, Taken.value_map, List.append_assoc]
    rfl

theorem scopeTarget_ends (h : s.Before input 0 ts) (hn : ts.length ≤ n) (slot : Slot) :
    Ends input (Parse.scopeTarget slot ts) (Took input 0)
      (exec (scopeTarget input (within input n) slot) s) := by
  have huid : Ends input (Parse.uid ts >>= fun t => .ok (t.map .within)) (Took input 0)
      (exec (uid input (within input n) >>= fun u => pure (ScopeConstraint.within u)) s) := by
    refine (uid_ends h hn).bind ?_
    rintro t u s' - ⟨rfl, hs'⟩
    exact .pure ⟨rfl, hs'⟩
  rw [scopeTarget, Parse.scopeTarget]
  dsimp only
  by_cases hslot : slot = .action
  · rw [if_pos hslot, if_pos hslot]
    rcases eq_cons_or_head?_ne (.symbol .leftBracket) ts with ⟨us, rfl⟩ | hk
    · rw [exec_ite_pos h, exec_bind_ok (exec_advance h), Parse.accept?_cons_self]
      refine (uidLoop_ends h.next (Nat.lt_of_succ_le hn) []).bind ?_
      rintro t us s' - ⟨rfl, hs'⟩
      exact .pure ⟨rfl, hs'⟩
    · rw [exec_ite_neg h hk, Parse.accept?_eq_none_iff.2 hk]
      exact huid
  · rw [if_neg hslot, if_neg hslot]
    exact huid

theorem scopeClause_ends (h : s.Before input 0 ts) (hn : ts.length ≤ n) (slot : Slot) :
    Ends input (Parse.scopeClause slot ts) (Took input 0)
      (exec (scopeClause input (within input n) slot) s) := by
  rw [scopeClause, Parse.scopeClause]
  refine (expect_ends h _ _).bind ?_
  rintro ⟨_, ts₁, hlt₁⟩ _ s₁ - ⟨rfl, h₁⟩
  have hn₁ : ts₁.length ≤ n := hlt₁.le.trans hn
  dsimp only
  suffices hc : Ends input (Parse.scopeConstraint slot ts₁) (Took input 0) _ from
    hc.pack fun t a s h => h
  rcases eq_cons_or_head?_ne (.symbol .equalEqual) ts₁ with ⟨us, rfl⟩ | hequal
  · rw [exec_ite_pos h₁, exec_bind_ok (exec_advance h₁)]
    refine (uid_ends h₁.next (Nat.le_of_succ_le hn₁)).bind ?_
    rintro t u s₂ - ⟨rfl, h₂⟩
    exact .pure ⟨rfl, h₂⟩
  rw [exec_ite_neg h₁ hequal]
  rcases eq_cons_or_head?_ne (.ident "in") ts₁ with ⟨us, rfl⟩ | hin
  · rw [exec_ite_pos h₁, exec_bind_ok (exec_advance h₁)]
    exact (scopeTarget_ends h₁.next (Nat.le_of_succ_le hn₁) slot).pack fun t a s h => h
  rw [exec_ite_neg h₁ hin]
  rcases eq_cons_or_head?_ne (.ident "is") ts₁ with ⟨us, rfl⟩ | his
  · rw [exec_ite_pos h₁, exec_bind_ok (exec_advance h₁)]
    refine (path_ends h₁.next (Nat.le_of_succ_le hn₁)).bind ?_
    rintro ⟨_, ts₂, hlt₂⟩ entityType s₂ - ⟨rfl, h₂⟩
    dsimp only
    rcases eq_cons_or_head?_ne (.ident "in") ts₂ with ⟨vs, rfl⟩ | hk
    · rw [exec_ite_pos h₂, exec_bind_ok (exec_advance h₂), Parse.accept?_cons_self]
      have hlt₂' : vs.length < us.length := (Nat.lt_succ_self _).trans hlt₂
      refine (uid_ends h₂.next (hlt₂'.le.trans (Nat.le_of_succ_le hn₁))).bind ?_
      rintro t u s₃ - ⟨rfl, h₃⟩
      exact .pure ⟨rfl, h₃⟩
    · rw [exec_ite_neg h₂ hk, Parse.accept?_eq_none_iff.2 hk]
      exact .pure ⟨rfl, h₂⟩
  rw [exec_ite_neg h₁ his, Parse.scopeConstraint.eq_def]
  split
  · exact absurd rfl hequal
  · exact absurd rfl hin
  · exact absurd rfl his
  · exact .pure ⟨rfl, h₁⟩

theorem scope_ends (h : s.Before input 0 ts) (hn : ts.length ≤ n) :
    Ends input (Parse.scope ts) (Took input 0) (exec (scope input (within input n)) s) := by
  refine (scopeClause_ends h hn _).bind ?_
  rintro ⟨_, ts₁, hlt₁⟩ principal s₁ - ⟨rfl, h₁⟩
  refine (expect_ends h₁ _ _).bind ?_
  rintro ⟨_, ts₂, hlt₂⟩ _ s₂ - ⟨rfl, h₂⟩
  have hn₂ : ts₂.length ≤ n := (hlt₂.trans hlt₁).le.trans hn
  refine (scopeClause_ends h₂ hn₂ _).bind ?_
  rintro ⟨_, ts₃, hlt₃⟩ action s₃ - ⟨rfl, h₃⟩
  refine (expect_ends h₃ _ _).bind ?_
  rintro ⟨_, ts₄, hlt₄⟩ _ s₄ - ⟨rfl, h₄⟩
  refine (scopeClause_ends h₄ ((hlt₄.trans hlt₃).le.trans hn₂) _).bind ?_
  rintro t resource s₅ - ⟨rfl, h₅⟩
  exact .pure ⟨rfl, h₅⟩

/-! ## Policies -/

theorem conditionLoop_ends (h : s.Before input 0 ts) (hn : 16 * ts.length < n)
    (conditions : List Condition) :
    Ends input (Parse.conditions input.bound ts)
      (fun t => Took input 0 (t.map (conditions ++ ·)))
      (exec ((within input n).conditionLoop conditions) s) := by
  induction n generalizing s ts conditions with
  | zero => exact absurd hn (Nat.not_lt_zero _)
  | succ n ih =>
    change Ends input _ _ (exec (conditionLoop input (within input n) conditions) s)
    rw [conditionLoop, Parse.conditions.eq_def, exec_bind_ok (exec_peek h)]
    cases ts with
    | nil => exact .pure ⟨(List.append_nil conditions).symm, h⟩
    | cons k us =>
      dsimp only [List.head?_cons, Option.bind_some]
      cases Parse.conditionKind? k with
      | none => exact .pure ⟨(List.append_nil conditions).symm, h⟩
      | some kind =>
        dsimp only
        rw [exec_bind_ok (exec_advance h)]
        refine (expect_ends h.next _ _).bind ?_
        rintro ⟨_, ts₁, hlt₁⟩ _ s₁ - ⟨rfl, h₁⟩
        have hn₁ : Reader.expr.measure ts₁ < n := by
          simp only [Reader.measure, Reader.rank, List.length_cons] at hn ⊢
          omega
        refine (follows hn₁ s₁ h₁).bind ?_
        rintro ⟨_, ts₂, hlt₂⟩ body s₂ - ⟨rfl, h₂⟩
        refine (expect_ends h₂ _ _).bind ?_
        rintro ⟨_, ts₃, hlt₃⟩ _ s₃ - ⟨rfl, h₃⟩
        have hn₃ : 16 * ts₃.length < n := by
          have hlt₃' : ts₃.length < us.length := (hlt₃.trans hlt₂).trans hlt₁
          simp only [List.length_cons] at hn
          omega
        have hloop := ih h₃ hn₃ (conditions ++ [⟨kind, body⟩])
        refine hloop.pack fun t a s' hs' => ⟨?_, hs'.2⟩
        rw [hs'.1, Taken.value_map, List.append_assoc]
        rfl

theorem policy_ends (h : s.Before input 0 ts) (hn : 16 * ts.length < n) (index : Nat) :
    Ends input (Parse.policy input.bound index ts) (Took input 0)
      (exec (policy input (within input n) index) s) := by
  have hn₀ : ts.length < n := by omega
  refine (annotationLoop_ends h hn₀ _).bind ?_
  rintro ⟨_, ts₁, hle₁⟩ notes s₁ - ⟨rfl, h₁⟩
  refine (effect_ends h₁).bind ?_
  rintro ⟨_, ts₂, hlt₂⟩ eff s₂ - ⟨rfl, h₂⟩
  refine (expect_ends h₂ _ _).bind ?_
  rintro ⟨_, ts₃, hlt₃⟩ _ s₃ - ⟨rfl, h₃⟩
  have hlt₃' : ts₃.length < ts.length := (hlt₃.trans hlt₂).trans_le (Nat.le_of_lt_succ hle₁)
  refine (scope_ends h₃ (hlt₃'.trans hn₀).le).bind ?_
  rintro ⟨_, ts₄, hlt₄⟩ sc s₄ - ⟨rfl, h₄⟩
  refine (expect_ends h₄ _ _).bind ?_
  rintro ⟨_, ts₅, hlt₅⟩ _ s₅ - ⟨rfl, h₅⟩
  have hlt₅' : ts₅.length < ts.length := (hlt₅.trans hlt₄).trans hlt₃'
  have hn₅ : 16 * ts₅.length < n := by omega
  refine (conditionLoop_ends h₅ hn₅ []).bind ?_
  rintro ⟨_, ts₆, _⟩ conditions s₆ - ⟨rfl, h₆⟩
  refine (expect_ends h₆ _ _).bind ?_
  rintro t _ s₇ - ⟨rfl, h₇⟩
  exact .pure ⟨rfl, h₇⟩

theorem policyLoop_ends (h : s.Before input 0 ts) (hn : 16 * ts.length + 1 < n)
    (ps : List Policy) :
    Ends input (Parse.policies input.bound ps.length ts)
      (fun qs rs s' => rs = ps ++ qs ∧ s'.Before input 0 [])
      (exec ((within input n).policyLoop ps) s) := by
  induction n generalizing s ts ps with
  | zero => exact absurd hn (Nat.not_lt_zero _)
  | succ n ih =>
    change Ends input _ _ (exec (policyLoop input (within input n) ps) s)
    rw [policyLoop, Parse.policies, exec_bind_ok (exec_peek h)]
    cases ts with
    | nil => exact .pure ⟨(List.append_nil ps).symm, h⟩
    | cons k us =>
      rw [if_neg (List.cons_ne_nil k us)]
      refine (policy_ends h (Nat.lt_of_succ_lt_succ hn) ps.length).bind ?_
      rintro ⟨_, ts₁, hlt₁⟩ p s₁ - ⟨rfl, h₁⟩
      have hn₁ : 16 * ts₁.length + 1 < n := by omega
      have hloop := ih h₁ hn₁ (ps ++ [p])
      rw [List.length_append, List.length_singleton] at hloop
      refine hloop.pack fun qs rs s' hs' => ⟨?_, hs'.2⟩
      rw [hs'.1, List.append_assoc]
      rfl

end AccessPolicy.Cursor
