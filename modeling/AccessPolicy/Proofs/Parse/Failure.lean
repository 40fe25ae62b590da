import AccessPolicy.Policy.Parser
import AccessPolicy.Proofs.Parse.Sound

/-! # Where readers stop

A reader leaves an end of the tokens that it was given, and if it fails it does so at one of them or
behind the last. The fault is about the token it fails at: it names that token as the one that was
found, or the token holds the string, key or number that is refused. -/

namespace AccessPolicy

/-- What a fault has to do with the token it is found at, or with the end of the tokens. -/
inductive ParseFault.Concerns : Option Kind → ParseFault → Prop where
  | expected {k} (what : Expectation) : Concerns k (.expected what k)
  | badString {raw fault} (h : Text.unescape raw = .error fault) :
      Concerns (some (.string raw)) (.badString fault)
  | badPattern {raw fault} (h : Pattern.compile raw = .error fault) :
      Concerns (some (.string raw)) (.badString fault)
  | duplicateKey {k key} (h : Parse.NameToken k key) : Concerns (some k) (.duplicateKey key)
  | integerRange {n} (h : 0x8000000000000000 ≤ n) :
      Concerns (some (.int n)) (.integerRange (toString n))
  | negatedRange {n} (h : 0x8000000000000000 < n) :
      Concerns (some (.int n)) (.integerRange ("-" ++ toString n))
  | tooDeep {k} (bound : Nat) : Concerns k (.tooDeep bound)

namespace Parse

variable {α β : Type} {m n : Nat}

/-- A failure lies at one of the tokens, which its fault is about, or behind them. -/
def FailsAt (ts : List Kind) (x : Except Failure α) : Prop :=
  ∀ f, x = .error f →
    ∃ us, us <:+ ts ∧ f.remaining = us.length ∧ f.fault.Concerns us.head?

/-- A failure lies among the last `n` tokens or behind them. -/
def FailsWithin (n : Nat) (x : Except Failure α) : Prop := ∀ f, x = .error f → f.remaining ≤ n

/-- A step leaves an end of the tokens, or fails at one of them. -/
structure Within (ts : List Kind) (x : Step α n) : Prop where
  rest : ∀ t, x = .ok t → t.rest <:+ ts
  failsAt : FailsAt ts x

namespace FailsAt

theorem ok {ts : List Kind} (a : α) : FailsAt ts (.ok a : Except Failure α) := nofun

theorem fail {ts us : List Kind} (h : us <:+ ts) {fault : ParseFault}
    (hfault : fault.Concerns us.head?) : FailsAt ts (fail us fault : Except Failure α) := by
  rintro f ⟨⟩
  exact ⟨us, h, rfl, hfault⟩

theorem mono {ts us : List Kind} {x : Except Failure α} (h : FailsAt us x) (hus : us <:+ ts) :
    FailsAt ts x := by
  intro f hf
  obtain ⟨vs, hvs, hf⟩ := h f hf
  exact ⟨vs, hvs.trans hus, hf⟩

theorem failsWithin {ts : List Kind} {x : Except Failure α} (h : FailsAt ts x) :
    FailsWithin ts.length x := by
  intro f hf
  obtain ⟨us, hus, hremaining, -⟩ := h f hf
  rw [hremaining]
  exact hus.length_le

theorem pack {ts : List Kind} {x : Except Failure α} {f : α → β} (h : FailsAt ts x) :
    FailsAt ts (x >>= fun a => .ok (f a)) := by
  cases x with
  | error e =>
    rintro g ⟨⟩
    exact h e rfl
  | ok a => exact .ok (f a)

end FailsAt

namespace Within

variable {ts us : List Kind}

theorem ok {t : Taken Kind α n} (h : t.rest <:+ ts) : Within ts (.ok t) where
  rest := by
    rintro t ⟨⟩
    exact h
  failsAt := .ok t

theorem fail (h : us <:+ ts) {fault : ParseFault} (hfault : fault.Concerns us.head?) :
    Within ts (fail us fault : Step α n) := ⟨nofun, .fail h hfault⟩

theorem expected (h : us <:+ ts) (what : Expectation) :
    Within ts (expected what us : Step α n) := fail h (.expected what)

/-- A step behind another one that stayed within the tokens from `us` on. -/
theorem bind_failsAt {x : Step α m} {f : Taken Kind α m → Except Failure β} (hx : Within us x)
    (hus : us <:+ ts) (hf : ∀ t, x = .ok t → t.rest <:+ ts → FailsAt ts (f t)) :
    FailsAt ts (x >>= f) := by
  cases x with
  | error e =>
    rintro g ⟨⟩
    exact hx.failsAt.mono hus e rfl
  | ok t => exact hf t rfl ((hx.rest t rfl).trans hus)

theorem bind_eq {x : Step α m} {f : Taken Kind α m → Step β n} (hx : Within us x)
    (hus : us <:+ ts) (hf : ∀ t, x = .ok t → t.rest <:+ ts → Within ts (f t)) :
    Within ts (x >>= f) where
  rest := by
    intro t ht
    obtain ⟨s, hs, ht⟩ := bind_eq_ok_iff.1 ht
    exact (hf s hs ((hx.rest s hs).trans hus)).rest t ht
  failsAt := hx.bind_failsAt hus fun t h ht => (hf t h ht).failsAt

theorem bind {x : Step α m} {f : Taken Kind α m → Step β n} (hx : Within us x)
    (hus : us <:+ ts) (hf : ∀ t, t.rest <:+ ts → Within ts (f t)) : Within ts (x >>= f) :=
  hx.bind_eq hus fun t _ => hf t

/-- A last step whose value is packed. -/
theorem pack {x : Step α m} {f : Taken Kind α m → Taken Kind β n} (hx : Within us x)
    (hus : us <:+ ts) (hf : ∀ t, (f t).rest = t.rest) :
    Within ts (x >>= fun t => .ok (f t)) :=
  hx.bind hus fun t ht => .ok (hf t ▸ ht)

end Within

/-! ## Single tokens and names -/

theorem accept?_suffix {k : Kind} {ts : List Kind} {t : Taken Kind Unit ts.length}
    (h : Taken.accept? k ts = some t) : t.rest <:+ ts :=
  ⟨[k], (Taken.accept?_eq_some_iff.1 h).symm⟩

theorem expect_within (k : Kind) (what : Expectation) (ts : List Kind) :
    Within ts (expect k what ts) := by
  unfold expect
  split
  · rename_i h
    exact .ok (accept?_suffix h)
  · exact .expected List.suffix_rfl _

theorem ident_within (what : Expectation) (ts : List Kind) : Within ts (ident what ts) := by
  unfold ident
  split
  · exact .ok (List.suffix_cons _ _)
  · exact .expected List.suffix_rfl _

theorem string_within (what : Expectation) (ts : List Kind) : Within ts (string what ts) := by
  unfold string
  split
  · split
    · exact .ok (List.suffix_cons _ _)
    · rename_i h
      exact .fail List.suffix_rfl (.badString h)
  · exact .expected List.suffix_rfl _

theorem identOrString_within (what : Expectation) (ts : List Kind) :
    Within ts (identOrString what ts) := by
  unfold identOrString
  split
  · exact .ok (List.suffix_cons _ _)
  · exact string_within _ _

theorem pattern_within (ts : List Kind) : Within ts (pattern ts) := by
  unfold pattern
  split
  · split
    · exact .ok (List.suffix_cons _ _)
    · rename_i h
      exact .fail List.suffix_rfl (.badPattern h)
  · exact .expected List.suffix_rfl _

theorem segments_suffix (ts : List Kind) : (segments ts).rest <:+ ts := by
  fun_induction segments ts with
  | case1 name ts ih => exact (ih.trans (List.suffix_cons _ _)).trans (List.suffix_cons _ _)
  | case2 ts h => exact List.suffix_rfl

theorem path_within (ts : List Kind) : Within ts (path ts) := by
  unfold path
  split
  · exact .ok ((segments_suffix _).trans (List.suffix_cons _ _))
  · exact .expected List.suffix_rfl _

theorem uid_within (ts : List Kind) : Within ts (uid ts) := by
  unfold uid
  split
  · refine (path_within _).bind List.suffix_rfl ?_
    rintro ⟨entityType, ts₁, _⟩ h₁
    refine (expect_within _ _ _).bind h₁ ?_
    rintro ⟨_, ts₂, _⟩ h₂
    exact (string_within _ _).pack h₂ fun id => rfl
  · exact .expected List.suffix_rfl _

theorem reference_within (before : List String) (ts : List Kind) :
    Within ts (reference before ts) := by
  induction before, ts using reference.induct with
  | case1 path raw ts =>
    rw [reference]
    exact (string_within _ _).pack (List.suffix_cons _ _) fun id => rfl
  | case2 path name ts ih =>
    rw [reference]
    exact ih.pack ((List.suffix_cons _ _).trans (List.suffix_cons _ _)) fun r => rfl
  | case3 path ts hs hi =>
    rw [reference]
    · exact .expected (List.suffix_cons _ _) _
    · exact fun raw us hu => hs raw us hu
    · exact fun name us hu => hi name us hu
  | case4 ts path hs hi hc =>
    rw [reference]
    · exact .ok List.suffix_rfl
    all_goals assumption

/-! ## Expressions -/

/-- The reader stays within the tokens that it is given. -/
def Reader.Within (bound depth : Nat) (ts : List Kind) : Reader → Prop
  | .expr => Parse.Within ts (Parse.expr bound depth ts)
  | .conditional => Parse.Within ts (Parse.conditional bound depth ts)
  | .chain l => Parse.Within ts (Parse.chain bound l depth ts)
  | .chainRest l lhs => Parse.Within ts (Parse.chainRest bound l depth lhs ts)
  | .relation => Parse.Within ts (Parse.relation bound depth ts)
  | .unary => Parse.Within ts (Parse.unary bound depth ts)
  | .steps e => Parse.Within ts (Parse.steps bound depth e ts)
  | .items close => Parse.Within ts (Parse.items bound depth close ts)
  | .fields seen => Parse.Within ts (Parse.fields bound depth seen ts)
  | .primary => Parse.Within ts (Parse.primary bound depth ts)

/-- The calls of smaller measure stay within the tokens that they are given. -/
def WithinBelow (bound m : Nat) : Prop :=
  ∀ (r : Reader) (depth : Nat) (ts : List Kind), r.measure ts < m → r.Within bound depth ts

variable {bound depth : Nat} {ts : List Kind}

theorem expr_within (ih : WithinBelow bound (Reader.expr.measure ts)) :
    Reader.expr.Within bound depth ts := by
  unfold Reader.Within
  dsimp only
  rw [expr.eq_def]
  split
  · split
    · rename_i us
      have h := ih .conditional (depth + 1) us (measure_lt_of_length (by simp))
      exact h.pack (List.suffix_cons _ _) fun e => rfl
    · exact ih (.chain .or) (depth + 1) ts (measure_lt_of_rank (by decide))
  · exact .fail List.suffix_rfl (.tooDeep bound)

theorem conditional_within (ih : WithinBelow bound (Reader.conditional.measure ts)) :
    Reader.conditional.Within bound depth ts := by
  unfold Reader.Within
  dsimp only
  rw [conditional.eq_def]
  have hexpr : ∀ us : List Kind, us.length ≤ ts.length → Within us (expr bound depth us) :=
    fun us hus => ih .expr depth us (by simp only [Reader.measure, Reader.rank]; omega)
  refine (hexpr ts le_rfl).bind List.suffix_rfl ?_
  rintro ⟨test, ts₁, _⟩ h₁
  refine (expect_within _ _ _).bind h₁ ?_
  rintro ⟨_, ts₂, _⟩ h₂
  refine (hexpr ts₂ h₂.length_le).bind h₂ ?_
  rintro ⟨thenE, ts₃, _⟩ h₃
  refine (expect_within _ _ _).bind h₃ ?_
  rintro ⟨_, ts₄, _⟩ h₄
  exact (hexpr ts₄ h₄.length_le).pack h₄ fun e => rfl

theorem operand_within {l : Level} (h : l.inner.Within bound depth ts) :
    Within ts (operand bound l depth ts) := by
  rw [operand.eq_def]
  cases l <;> exact h

theorem chain_within {l : Level} (ih : WithinBelow bound ((Reader.chain l).measure ts)) :
    (Reader.chain l).Within bound depth ts := by
  unfold Reader.Within
  dsimp only
  rw [chain.eq_def]
  refine (operand_within (ih _ _ _ (measure_lt_of_rank l.rank_inner_lt))).bind List.suffix_rfl ?_
  rintro ⟨lhs, ts₁, hlt⟩ h₁
  have h := ih (.chainRest l lhs) depth ts₁ (measure_lt_of_length hlt)
  exact h.pack h₁ fun e => rfl

theorem chainRest_within {l : Level} {lhs : Expr}
    (ih : WithinBelow bound ((Reader.chainRest l lhs).measure ts)) :
    (Reader.chainRest l lhs).Within bound depth ts := by
  unfold Reader.Within
  dsimp only
  rw [chainRest.eq_def]
  cases ts with
  | nil => exact .ok List.suffix_rfl
  | cons k us =>
    have hus : us <:+ k :: us := List.suffix_cons k us
    dsimp only
    split
    · exact .ok List.suffix_rfl
    · rename_i join _
      split
      · have hrhs := operand_within (ih l.inner (depth + 1) us (measure_lt_of_length (by simp)))
        refine hrhs.bind hus ?_
        rintro ⟨rhs, ts₁, hlt⟩ h₁
        have h := ih (.chainRest l (join lhs rhs)) (depth + 1) ts₁
          (measure_lt_of_length (Nat.lt_succ_of_lt hlt))
        exact h.pack h₁ fun e => rfl
      · exact .fail hus (.tooDeep bound)

theorem relation_within (ih : WithinBelow bound (Reader.relation.measure ts)) :
    Reader.relation.Within bound depth ts := by
  unfold Reader.Within
  dsimp only
  rw [relation.eq_def]
  refine Within.bind (ih (.chain .add) depth ts (measure_lt_of_rank (by decide))) List.suffix_rfl ?_
  rintro ⟨lhs, ts₁, hlt⟩ h₁
  have hadd : ∀ us : List Kind, us.length < ts.length → Within us (chain bound .add depth us) :=
    fun us hus => ih (.chain .add) depth us (measure_lt_of_length hus)
  cases ts₁ with
  | nil => exact .ok h₁
  | cons k us =>
    have hus : us <:+ ts := (List.suffix_cons k us).trans h₁
    have hlen : us.length < ts.length := (Nat.lt_succ_self _).trans hlt
    dsimp only
    split
    · exact (hadd us hlen).pack hus fun rhs => rfl
    · split
      · exact (identOrString_within _ _).pack hus fun attr => rfl
      · split
        · exact (pattern_within _).pack hus fun p => rfl
        · split
          · refine (path_within _).bind hus ?_
            rintro ⟨entityType, ts₂, hlt₂⟩ h₂
            dsimp only
            split
            · rename_i ts₃ hlt₃ haccept
              have h₃ : ts₃ <:+ ts₂ := accept?_suffix haccept
              exact (hadd ts₃ (hlt₃.trans (hlt₂.trans hlen))).pack (h₃.trans h₂) fun target => rfl
            · exact .ok h₂
          · exact .ok h₁

theorem unary_within (ih : WithinBelow bound (Reader.unary.measure ts)) :
    Reader.unary.Within bound depth ts := by
  unfold Reader.Within
  dsimp only
  rw [unary.eq_def]
  split
  · rename_i us
    split
    · have h := ih .unary (depth + 1) us (measure_lt_of_length (by simp))
      exact h.pack (List.suffix_cons _ _) fun e => rfl
    · exact .fail (List.suffix_cons _ _) (.tooDeep bound)
  · rename_i us
    split
    · split
      · rename_i i vs
        split
        · have h := ih (.steps (.literal (.long (-i)))) (depth + 1) vs
            (measure_lt_of_length (by simp only [List.length_cons]; omega))
          exact h.pack ((List.suffix_cons _ _).trans (List.suffix_cons _ _)) fun e => rfl
        · rename_i hi
          exact .fail (List.suffix_cons _ _) (.negatedRange (Nat.lt_of_not_le hi))
      · have h := ih .unary (depth + 1) us (measure_lt_of_length (by simp))
        exact h.pack (List.suffix_cons _ _) fun e => rfl
    · exact .fail (List.suffix_cons _ _) (.tooDeep bound)
  · refine Within.bind (ih .primary depth ts (measure_lt_of_rank (by decide))) List.suffix_rfl ?_
    rintro ⟨e, ts₁, hlt⟩ h₁
    have h := ih (.steps e) depth ts₁ (measure_lt_of_length hlt)
    exact h.pack h₁ fun e => rfl

theorem steps_within {e : Expr} (ih : WithinBelow bound ((Reader.steps e).measure ts)) :
    (Reader.steps e).Within bound depth ts := by
  unfold Reader.Within
  dsimp only
  rw [steps.eq_def]
  split
  · rename_i us
    split
    · refine (ident_within _ _).bind (List.suffix_cons _ _) ?_
      rintro ⟨name, ts₁, hlt₁⟩ h₁
      have hlt₁' : ts₁.length < us.length + 1 := hlt₁.trans (Nat.lt_succ_self _)
      dsimp only
      split
      · rename_i ts₂ hlt₂ haccept
        have h₂ : ts₂ <:+ ts₁ := accept?_suffix haccept
        have hlt₂' : ts₂.length < us.length + 1 := hlt₂.trans hlt₁'
        have hargs := ih (.items .rightParen) (depth + 1) ts₂ (measure_lt_of_length hlt₂')
        refine Within.bind hargs (h₂.trans h₁) ?_
        rintro ⟨args, ts₃, hlt₃⟩ h₃
        have h := ih (.steps (.method e name args)) (depth + 1) ts₃
          (measure_lt_of_length (hlt₃.trans hlt₂'))
        exact h.pack h₃ fun e => rfl
      · have h := ih (.steps (.getAttr e name)) (depth + 1) ts₁ (measure_lt_of_length hlt₁')
        exact h.pack h₁ fun e => rfl
    · exact .fail (List.suffix_cons _ _) (.tooDeep bound)
  · rename_i us
    split
    · refine (string_within _ _).bind (List.suffix_cons _ _) ?_
      rintro ⟨attr, ts₁, hlt₁⟩ h₁
      refine (expect_within _ _ _).bind h₁ ?_
      rintro ⟨_, ts₂, hlt₂⟩ h₂
      have hlt₂' : ts₂.length < us.length + 1 := (hlt₂.trans hlt₁).trans (Nat.lt_succ_self _)
      have h := ih (.steps (.getAttr e attr)) (depth + 1) ts₂ (measure_lt_of_length hlt₂')
      exact h.pack h₂ fun e => rfl
    · exact .fail (List.suffix_cons _ _) (.tooDeep bound)
  · exact .ok List.suffix_rfl

theorem items_within {close : Symbol} (ih : WithinBelow bound ((Reader.items close).measure ts)) :
    (Reader.items close).Within bound depth ts := by
  unfold Reader.Within
  dsimp only
  rw [items.eq_def]
  split
  · rename_i haccept
    exact .ok (accept?_suffix haccept)
  · have hexpr := ih .expr depth ts (measure_lt_of_rank (Nat.lt_succ_self _))
    refine Within.bind hexpr List.suffix_rfl ?_
    rintro ⟨e, ts₁, hlt₁⟩ h₁
    dsimp only
    split
    · rename_i haccept
      exact .ok ((accept?_suffix haccept).trans h₁)
    · refine (expect_within _ _ _).bind h₁ ?_
      rintro ⟨_, ts₂, hlt₂⟩ h₂
      have h := ih (.items close) depth ts₂ (measure_lt_of_length (hlt₂.trans hlt₁))
      exact h.pack h₂ fun es => rfl

theorem fields_within {seen : List String}
    (ih : WithinBelow bound ((Reader.fields seen).measure ts)) :
    (Reader.fields seen).Within bound depth ts := by
  unfold Reader.Within
  dsimp only
  rw [fields.eq_def]
  split
  · rename_i haccept
    exact .ok (accept?_suffix haccept)
  · refine (identOrString_within _ _).bind_eq List.suffix_rfl ?_
    rintro ⟨key, ts₁, hlt₁⟩ hkey h₁
    dsimp only
    split
    · obtain ⟨k, rfl, hk⟩ := takes_identOrString_iff.1 ⟨hlt₁, hkey⟩
      exact .fail List.suffix_rfl (.duplicateKey hk)
    · refine (expect_within _ _ _).bind h₁ ?_
      rintro ⟨_, ts₂, hlt₂⟩ h₂
      have hlt₂' : ts₂.length < ts.length := hlt₂.trans hlt₁
      refine Within.bind (ih .expr depth ts₂ (measure_lt_of_length hlt₂')) h₂ ?_
      rintro ⟨e, ts₃, hlt₃⟩ h₃
      dsimp only
      split
      · rename_i haccept
        exact .ok ((accept?_suffix haccept).trans h₃)
      · refine (expect_within _ _ _).bind h₃ ?_
        rintro ⟨_, ts₄, hlt₄⟩ h₄
        have h := ih (.fields (key :: seen)) depth ts₄
          (measure_lt_of_length (hlt₄.trans (hlt₃.trans hlt₂')))
        exact h.pack h₄ fun fs => rfl

theorem primary_within (ih : WithinBelow bound (Reader.primary.measure ts)) :
    Reader.primary.Within bound depth ts := by
  unfold Reader.Within
  dsimp only
  rw [primary.eq_def]
  have hsub : ∀ (r : Reader) (d : Nat) (us : List Kind), us.length < ts.length →
      r.Within bound d us := fun r d us hus => ih r d us (measure_lt_of_length hus)
  split
  · split
    · exact .ok (List.suffix_cons _ _)
    · rename_i hn
      exact .fail List.suffix_rfl (.integerRange (Nat.le_of_not_lt hn))
  · exact (string_within _ _).pack List.suffix_rfl fun s => rfl
  · rename_i us
    refine Within.bind (hsub .expr depth us (by simp)) (List.suffix_cons _ _) ?_
    rintro ⟨e, ts₁, _⟩ h₁
    exact (expect_within _ _ _).pack h₁ fun r => rfl
  · rename_i us
    exact Within.pack (hsub (.items _) depth us (by simp)) (List.suffix_cons _ _) fun es => rfl
  · rename_i us
    exact Within.pack (hsub (.fields _) depth us (by simp)) (List.suffix_cons _ _) fun fs => rfl
  · rename_i us
    split
    · have h := hsub .conditional (depth + 1) us (by simp)
      exact h.pack (List.suffix_cons _ _) fun e => rfl
    · exact .fail List.suffix_rfl (.tooDeep bound)
  · exact .ok (List.suffix_cons _ _)
  · exact .ok (List.suffix_cons _ _)
  · rename_i word us _ _ _
    split
    · exact .expected List.suffix_rfl _
    · refine (reference_within _ _).bind (List.suffix_cons _ _) ?_
      rintro ⟨r, ts₁, hlt₁⟩ h₁
      dsimp only
      split
      · exact .ok h₁
      · split
        · rename_i ts₂ hlt₂ haccept
          have h₂ : ts₂ <:+ ts₁ := accept?_suffix haccept
          have h := hsub (.items .rightParen) depth ts₂ (hlt₂.trans hlt₁)
          exact h.pack (h₂.trans h₁) fun args => rfl
        · split
          · exact .ok h₁
          · exact .expected h₁ _
  · exact .expected List.suffix_rfl _

/-- **Readers of expressions stay within the tokens that they are given.** -/
theorem Reader.within (r : Reader) (bound depth : Nat) (ts : List Kind) :
    r.Within bound depth ts := by
  suffices h : ∀ m, WithinBelow bound m from h _ r depth ts (Nat.lt_succ_self _)
  intro m
  induction m using Nat.strongRecOn with
  | ind m ih =>
    intro r depth ts hm
    have ih := ih _ hm
    cases r with
    | expr => exact expr_within ih
    | conditional => exact conditional_within ih
    | chain l => exact chain_within ih
    | chainRest l lhs => exact chainRest_within ih
    | relation => exact relation_within ih
    | unary => exact unary_within ih
    | steps e => exact steps_within ih
    | items close => exact items_within ih
    | fields seen => exact fields_within ih
    | primary => exact primary_within ih

/-! ## Policies -/

theorem uids_within (ts : List Kind) : Within ts (uids ts) := by
  rw [uids]
  split
  · rename_i haccept
    exact .ok (accept?_suffix haccept)
  · refine (uid_within ts).bind List.suffix_rfl ?_
    rintro ⟨u, ts₁, hlt₁⟩ h₁
    dsimp only
    split
    · rename_i haccept
      exact .ok ((accept?_suffix haccept).trans h₁)
    · refine (expect_within _ _ _).bind h₁ ?_
      rintro ⟨_, ts₂, hlt₂⟩ h₂
      have hlt₂' : ts₂.length < ts.length := hlt₂.trans hlt₁
      exact (uids_within ts₂).pack h₂ fun us => rfl
termination_by ts.length

theorem scopeTarget_within (slot : Slot) (ts : List Kind) : Within ts (scopeTarget slot ts) := by
  unfold scopeTarget
  split
  · rename_i rest hlt haccept
    have hrest : rest <:+ ts := by
      split at haccept
      · exact accept?_suffix haccept
      · cases haccept
    exact (uids_within _).pack hrest fun us => rfl
  · exact (uid_within ts).pack List.suffix_rfl fun u => rfl

theorem scopeConstraint_within (slot : Slot) (ts : List Kind) :
    Within ts (scopeConstraint slot ts) := by
  unfold scopeConstraint
  split
  · exact (uid_within _).pack (List.suffix_cons _ _) fun u => rfl
  · exact (scopeTarget_within _ _).pack (List.suffix_cons _ _) fun c => rfl
  · refine (path_within _).bind (List.suffix_cons _ _) ?_
    rintro ⟨entityType, ts₁, _⟩ h₁
    dsimp only
    split
    · rename_i haccept
      exact (uid_within _).pack ((accept?_suffix haccept).trans h₁) fun u => rfl
    · exact .ok h₁
  · exact .ok List.suffix_rfl

theorem scopeClause_within (slot : Slot) (ts : List Kind) : Within ts (scopeClause slot ts) := by
  refine (expect_within _ _ _).bind List.suffix_rfl ?_
  rintro ⟨_, ts₁, _⟩ h₁
  exact (scopeConstraint_within slot ts₁).pack h₁ fun c => rfl

theorem scope_within (ts : List Kind) : Within ts (scope ts) := by
  refine (scopeClause_within _ _).bind List.suffix_rfl ?_
  rintro ⟨principal, ts₁, _⟩ h₁
  refine (expect_within _ _ _).bind h₁ ?_
  rintro ⟨_, ts₂, _⟩ h₂
  refine (scopeClause_within _ _).bind h₂ ?_
  rintro ⟨action, ts₃, _⟩ h₃
  refine (expect_within _ _ _).bind h₃ ?_
  rintro ⟨_, ts₄, _⟩ h₄
  exact (scopeClause_within _ _).pack h₄ fun resource => rfl

theorem annotations_within (acc : Annotations) (ts : List Kind) :
    Within ts (annotations acc ts) := by
  rw [annotations]
  split
  · exact .ok List.suffix_rfl
  · rename_i ts₁ hlt₁ haccept
    have h₁ : ts₁ <:+ ts := accept?_suffix haccept
    refine (ident_within _ _).bind h₁ ?_
    rintro ⟨key, ts₂, hlt₂⟩ h₂
    dsimp only
    split
    · rename_i ts₃ hlt₃ haccept₃
      have h₃ : ts₃ <:+ ts := (accept?_suffix haccept₃).trans h₂
      refine (string_within _ _).bind h₃ ?_
      rintro ⟨value, ts₄, hlt₄⟩ h₄
      refine (expect_within _ _ _).bind h₄ ?_
      rintro ⟨_, ts₅, hlt₅⟩ h₅
      have hlt₅' : ts₅.length < ts.length :=
        hlt₅.trans (hlt₄.trans (hlt₃.trans (hlt₂.trans hlt₁)))
      exact (annotations_within _ ts₅).pack h₅ fun notes => rfl
    · have hlt₂' : ts₂.length < ts.length := hlt₂.trans hlt₁
      exact (annotations_within _ ts₂).pack h₂ fun notes => rfl
termination_by ts.length

theorem effect_within (ts : List Kind) : Within ts (effect ts) := by
  unfold effect
  split
  · exact .ok (List.suffix_cons _ _)
  · exact .ok (List.suffix_cons _ _)
  · exact .expected List.suffix_rfl _

theorem conditions_within (bound : Nat) (ts : List Kind) : Within ts (conditions bound ts) := by
  rw [conditions.eq_def]
  cases ts with
  | nil => exact .ok List.suffix_rfl
  | cons k us =>
    dsimp only
    split
    · exact .ok List.suffix_rfl
    · refine (expect_within _ _ us).bind (List.suffix_cons _ _) ?_
      rintro ⟨_, ts₁, hlt₁⟩ h₁
      refine Within.bind (Reader.expr.within bound 0 ts₁) h₁ ?_
      rintro ⟨body, ts₂, hlt₂⟩ h₂
      refine (expect_within _ _ _).bind h₂ ?_
      rintro ⟨_, ts₃, hlt₃⟩ h₃
      have hlt₃' : ts₃.length < us.length := hlt₃.trans (hlt₂.trans hlt₁)
      exact (conditions_within bound ts₃).pack h₃ fun cs => rfl
termination_by ts.length
decreasing_by
  simp only [List.length_cons]
  omega

theorem policy_within (bound index : Nat) (ts : List Kind) : Within ts (policy bound index ts) := by
  refine (annotations_within _ _).bind List.suffix_rfl ?_
  rintro ⟨notes, ts₁, _⟩ h₁
  refine (effect_within _).bind h₁ ?_
  rintro ⟨eff, ts₂, _⟩ h₂
  refine (expect_within _ _ _).bind h₂ ?_
  rintro ⟨_, ts₃, _⟩ h₃
  refine (scope_within _).bind h₃ ?_
  rintro ⟨sc, ts₄, _⟩ h₄
  refine (expect_within _ _ _).bind h₄ ?_
  rintro ⟨_, ts₅, _⟩ h₅
  refine (conditions_within bound _).bind h₅ ?_
  rintro ⟨cs, ts₆, _⟩ h₆
  exact (expect_within _ _ _).pack h₆ fun close => rfl

/-- **Readers of policies fail at the tokens that they are given.** -/
theorem policies_failsAt (bound index : Nat) (ts : List Kind) :
    FailsAt ts (policies bound index ts) := by
  rw [policies]
  split
  · exact .ok _
  · refine (policy_within bound index ts).bind_failsAt List.suffix_rfl ?_
    rintro ⟨p, ts₁, hlt₁⟩ - h₁
    exact ((policies_failsAt bound _ ts₁).mono h₁).pack
termination_by ts.length

theorem policies_failsWithin (bound index : Nat) (ts : List Kind) :
    FailsWithin ts.length (policies bound index ts) := (policies_failsAt bound index ts).failsWithin

end Parse

end AccessPolicy
