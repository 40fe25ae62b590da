import AccessPolicy.Proofs.Parse.Grammar
import Mathlib.Order.Nat

/-! # What the readers take is derived

Every reader calls the others on fewer tokens, or on the same tokens in a fixed order. So it is
enough to show for each reader that what it takes is derived if what the smaller calls take is. The
room of a derivation is the bound less the depth. -/

namespace AccessPolicy

namespace Parse

theorem takes_pattern_iff {ts rest : List Kind} {p : Pattern} :
    Takes (pattern ts) p rest ↔ ∃ raw, ts = .string raw :: rest ∧ Pattern.compile raw = .ok p := by
  unfold pattern
  split
  · rename_i raw us
    split
    · rename_i p' hp'
      simp only [takes_ok, Taken.one, List.cons.injEq, Kind.string.injEq]
      constructor
      · rintro ⟨rfl, rfl⟩
        exact ⟨raw, ⟨rfl, rfl⟩, hp'⟩
      · rintro ⟨raw', ⟨rfl, rfl⟩, hp⟩
        rw [hp'] at hp
        cases hp
        exact ⟨rfl, rfl⟩
    · rename_i fault hf
      simp only [not_takes_fail, List.cons.injEq, Kind.string.injEq, false_iff]
      rintro ⟨raw', ⟨rfl, rfl⟩, hp⟩
      rw [hf] at hp
      cases hp
  · rename_i h
    simp only [not_takes_expected, false_iff]
    rintro ⟨raw, rfl, -⟩
    exact h _ _ rfl

/-- The reader, at a depth under a bound, hands back the tree and leaves `rest`. -/
def Reader.Takes (bound depth : Nat) : Reader → List Kind → Tree → List Kind → Prop
  | .expr, ts, .expr e, rest => Parse.Takes (Parse.expr bound depth ts) e rest
  | .conditional, ts, .expr e, rest => Parse.Takes (Parse.conditional bound depth ts) e rest
  | .chain l, ts, .expr e, rest => Parse.Takes (Parse.chain bound l depth ts) e rest
  | .chainRest l lhs, ts, .expr e, rest =>
    Parse.Takes (Parse.chainRest bound l depth lhs ts) e rest
  | .relation, ts, .expr e, rest => Parse.Takes (Parse.relation bound depth ts) e rest
  | .unary, ts, .expr e, rest => Parse.Takes (Parse.unary bound depth ts) e rest
  | .steps e, ts, .expr e', rest => Parse.Takes (Parse.steps bound depth e ts) e' rest
  | .items close, ts, .items es, rest => Parse.Takes (Parse.items bound depth close ts) es rest
  | .fields seen, ts, .fields fs, rest => Parse.Takes (Parse.fields bound depth seen ts) fs rest
  | .primary, ts, .expr e, rest => Parse.Takes (Parse.primary bound depth ts) e rest
  | _, _, _, _ => False

/-- Orders the readers that start at one token. -/
def Reader.rank : Reader → Nat
  | .expr => 12
  | .conditional => 13
  | .chain l => l.rank + 1
  | .relation => 7
  | .unary => 2
  | .items _ => 13
  | .primary => 1
  | .chainRest _ _ => 0
  | .steps _ => 0
  | .fields _ => 0

theorem Reader.rank_lt (r : Reader) : r.rank < 16 := by
  cases r with
  | chain l => cases l <;> decide
  | _ => simp [rank]

theorem Level.rank_inner_lt (l : Level) : l.inner.rank < (Reader.chain l).rank := by
  cases l <;> decide

def Reader.measure (r : Reader) (ts : List Kind) : Nat := 16 * ts.length + r.rank

theorem measure_lt_of_length {r r' : Reader} {ts ts' : List Kind} (h : ts'.length < ts.length) :
    r'.measure ts' < r.measure ts := by
  have := r'.rank_lt
  unfold Reader.measure
  omega

theorem measure_lt_of_rank {r r' : Reader} {ts : List Kind} (h : r'.rank < r.rank) :
    r'.measure ts < r.measure ts := Nat.add_lt_add_left h _

/-- What the calls of smaller measure take is derived. -/
def SoundBelow (bound m : Nat) : Prop :=
  ∀ (r : Reader) (depth : Nat) (ts : List Kind) (t : Tree) (rest : List Kind),
    r.measure ts < m → r.Takes bound depth ts t rest → Reads r (bound - depth) ts t rest

theorem room_of_lt {bound depth : Nat} (h : depth < bound) :
    bound - depth = bound - (depth + 1) + 1 := by omega

variable {bound depth : Nat} {ts rest : List Kind} {e : Expr}

theorem expr_sound (ih : SoundBelow bound (Reader.expr.measure ts))
    (h : Takes (expr bound depth ts) e rest) : Reads .expr (bound - depth) ts (.expr e) rest := by
  rw [expr.eq_def] at h
  split at h
  · rename_i hd
    rw [room_of_lt hd]
    split at h
    · obtain ⟨_, _, _, hc, h⟩ := h.bind
      obtain ⟨rfl, rfl⟩ := takes_ok.1 h
      exact .expr_if (ih .conditional _ _ (.expr _) _ (measure_lt_of_length (by simp)) hc)
    · rename_i hif
      exact .expr_chain (head?_ne_of_forall hif)
        (ih (.chain .or) _ _ (.expr _) _ (measure_lt_of_rank (by decide)) h)
  · exact absurd h not_takes_fail

theorem conditional_sound (ih : SoundBelow bound (Reader.conditional.measure ts))
    (h : Takes (conditional bound depth ts) e rest) :
    Reads .conditional (bound - depth) ts (.expr e) rest := by
  rw [conditional] at h
  obtain ⟨test, ts₁, h₁, htest, h⟩ := h.bind
  obtain ⟨_, ts₂, h₂, hthen, h⟩ := h.bind
  obtain ⟨thenE, ts₃, h₃, hthenE, h⟩ := h.bind
  obtain ⟨_, ts₄, h₄, helse, h⟩ := h.bind
  obtain ⟨elseE, ts₅, h₅, helseE, h⟩ := h.bind
  obtain ⟨rfl, rfl⟩ := takes_ok.1 h
  rw [takes_keyword_iff] at hthen helse
  subst hthen helse
  refine .conditional (ih .expr _ _ (.expr _) _ (measure_lt_of_rank (by decide)) htest)
    (ih .expr _ _ (.expr _) _ (measure_lt_of_length (h₂.trans h₁)) hthenE)
    (ih .expr _ _ (.expr _) _ (measure_lt_of_length ?_) helseE)
  exact h₄.trans (h₃.trans (h₂.trans h₁))

/-! ## Chains and relations -/

theorem operand_iff {l : Level} :
    Takes (operand bound l depth ts) e rest ↔ l.inner.Takes bound depth ts (.expr e) rest := by
  rw [operand.eq_def]
  cases l <;> rfl

theorem chain_sound {l : Level} (ih : SoundBelow bound ((Reader.chain l).measure ts))
    (h : Takes (chain bound l depth ts) e rest) :
    Reads (.chain l) (bound - depth) ts (.expr e) rest := by
  rw [chain] at h
  obtain ⟨lhs, ts₁, h₁, hlhs, h⟩ := h.bind
  obtain ⟨_, ts₂, h₂, hrest, h⟩ := h.bind
  obtain ⟨rfl, rfl⟩ := takes_ok.1 h
  exact .chain (ih _ _ _ _ _ (measure_lt_of_rank l.rank_inner_lt) (operand_iff.1 hlhs))
    (ih (.chainRest l lhs) _ _ (.expr _) _ (measure_lt_of_length h₁) hrest)

theorem chainRest_sound {l : Level} {lhs : Expr}
    (ih : SoundBelow bound ((Reader.chainRest l lhs).measure ts))
    (h : Takes (chainRest bound l depth lhs ts) e rest) :
    Reads (.chainRest l lhs) (bound - depth) ts (.expr e) rest := by
  rw [chainRest.eq_def] at h
  split at h
  · obtain ⟨rfl, rfl⟩ := takes_ok.1 h
    exact .chainRest_stop (by simp [Level.StopsAt])
  · split at h
    · rename_i k us hk
      obtain ⟨rfl, rfl⟩ := takes_ok.1 h
      exact .chainRest_stop (by simpa [Level.StopsAt, Taken.nothing] using hk)
    · rename_i join hk
      split at h
      · rename_i hd
        rw [room_of_lt hd]
        obtain ⟨rhs, ts₁, h₁, hrhs, h⟩ := h.bind
        obtain ⟨_, ts₂, h₂, hrest, h⟩ := h.bind
        obtain ⟨rfl, rfl⟩ := takes_ok.1 h
        refine .chainRest_step hk
          (ih _ _ _ _ _ (measure_lt_of_length (Nat.lt_succ_self _)) (operand_iff.1 hrhs))
          (ih (.chainRest l _) _ _ (.expr _) _ (measure_lt_of_length ?_) hrest)
        exact h₁.trans (Nat.lt_succ_self _)
      · exact absurd h not_takes_fail

theorem relation_sound (ih : SoundBelow bound (Reader.relation.measure ts))
    (h : Takes (relation bound depth ts) e rest) :
    Reads .relation (bound - depth) ts (.expr e) rest := by
  rw [relation] at h
  obtain ⟨lhs, ts₁, h₁, hlhs, h⟩ := h.bind
  have hl := ih (.chain .add) _ _ (.expr _) _ (measure_lt_of_rank (by decide)) hlhs
  cases ts₁ with
  | nil =>
    obtain ⟨rfl, rfl⟩ := takes_ok.1 h
    exact .relation hl (by simp [RelationStopsAt])
  | cons k ts₂ =>
    have h₂ : ts₂.length < ts.length := (Nat.lt_succ_self _).trans h₁
    dsimp only at h
    split at h
    · rename_i op hk
      obtain ⟨rhs, ts₃, h₃, hrhs, h⟩ := h.bind
      obtain ⟨rfl, rfl⟩ := takes_ok.1 h
      exact .relation_binary hl hk
        (ih (.chain .add) _ _ (.expr _) _ (measure_lt_of_length h₂) hrhs)
    · rename_i hk
      split at h
      · rename_i hhas
        obtain ⟨attr, ts₃, h₃, hattr, h⟩ := h.bind
        obtain ⟨rfl, rfl⟩ := takes_ok.1 h
        obtain ⟨k', rfl, hk'⟩ := takes_identOrString_iff.1 hattr
        subst hhas
        exact .relation_has hl hk'
      · rename_i hhas
        split at h
        · rename_i hlike
          obtain ⟨p, ts₃, h₃, hp, h⟩ := h.bind
          obtain ⟨rfl, rfl⟩ := takes_ok.1 h
          obtain ⟨raw, rfl, hp'⟩ := takes_pattern_iff.1 hp
          subst hlike
          exact .relation_like hl hp'
        · rename_i hlike
          split at h
          · rename_i his
            subst his
            obtain ⟨entityType, ts₃, h₃, hpath, h⟩ := h.bind
            obtain ⟨name, names, rfl, rfl, hend⟩ := takes_path_iff.1 hpath
            dsimp only at h
            split at h
            · rename_i ts₄ h₄ hin
              have hts : ts₃ = .ident "in" :: ts₄ := Taken.accept?_eq_some_iff.1 hin
              subst hts
              obtain ⟨target, ts₅, h₅, htarget, h⟩ := h.bind
              obtain ⟨rfl, rfl⟩ := takes_ok.1 h
              refine .relation_isIn hl
                (ih (.chain .add) _ _ (.expr _) _ (measure_lt_of_length ?_) htarget)
              exact h₄.trans (h₃.trans h₂)
            · rename_i hin
              obtain ⟨rfl, rfl⟩ := takes_ok.1 h
              exact .relation_is hl hend (accept?_eq_none_iff.1 hin)
          · rename_i his
            obtain ⟨rfl, rfl⟩ := takes_ok.1 h
            refine .relation hl ?_
            simp [RelationStopsAt, Relational, hk, hhas, hlike, his]

/-! ## Operands -/

theorem unary_sound (ih : SoundBelow bound (Reader.unary.measure ts))
    (h : Takes (unary bound depth ts) e rest) :
    Reads .unary (bound - depth) ts (.expr e) rest := by
  rw [unary.eq_def] at h
  split at h
  · split at h
    · rename_i hd
      rw [room_of_lt hd]
      obtain ⟨e', ts₁, h₁, he, h⟩ := h.bind
      obtain ⟨rfl, rfl⟩ := takes_ok.1 h
      exact .unary_not (ih .unary _ _ (.expr _) _ (measure_lt_of_length (by simp)) he)
    · exact absurd h not_takes_fail
  · split at h
    · rename_i hd
      rw [room_of_lt hd]
      split at h
      · split at h
        · rename_i hi
          obtain ⟨e', ts₁, h₁, he, h⟩ := h.bind
          obtain ⟨rfl, rfl⟩ := takes_ok.1 h
          refine .unary_long hi (ih (.steps _) _ _ (.expr _) _ (measure_lt_of_length ?_) he)
          exact (Nat.lt_succ_self _).trans (Nat.lt_succ_self _)
        · exact absurd h not_takes_fail
      · rename_i hint
        obtain ⟨e', ts₁, h₁, he, h⟩ := h.bind
        obtain ⟨rfl, rfl⟩ := takes_ok.1 h
        exact .unary_neg hint (ih .unary _ _ (.expr _) _ (measure_lt_of_length (by simp)) he)
    · exact absurd h not_takes_fail
  · rename_i hbang hminus
    obtain ⟨e', ts₁, h₁, he, h⟩ := h.bind
    obtain ⟨e'', ts₂, h₂, hsteps, h⟩ := h.bind
    obtain ⟨rfl, rfl⟩ := takes_ok.1 h
    exact .unary (head?_ne_of_forall hbang) (head?_ne_of_forall hminus)
      (ih .primary _ _ (.expr _) _ (measure_lt_of_rank (by decide)) he)
      (ih (.steps _) _ _ (.expr _) _ (measure_lt_of_length h₁) hsteps)

theorem steps_sound {e' : Expr} (ih : SoundBelow bound ((Reader.steps e).measure ts))
    (h : Takes (steps bound depth e ts) e' rest) :
    Reads (.steps e) (bound - depth) ts (.expr e') rest := by
  rw [steps.eq_def] at h
  split at h
  · rename_i us
    split at h
    · rename_i hd
      rw [room_of_lt hd]
      obtain ⟨name, ts₁, h₁, hname, h⟩ := h.bind
      obtain rfl := takes_ident_iff.1 hname
      have h₀ : ts₁.length < (Kind.symbol .dot :: .ident name :: ts₁).length :=
        h₁.trans (Nat.lt_succ_self _)
      dsimp only at h
      split at h
      · rename_i ts₂ h₂ hparen
        have hts : ts₁ = .symbol .leftParen :: ts₂ := Taken.accept?_eq_some_iff.1 hparen
        subst hts
        obtain ⟨args, ts₃, h₃, hargs, h⟩ := h.bind
        obtain ⟨e'', ts₄, h₄, he, h⟩ := h.bind
        obtain ⟨rfl, rfl⟩ := takes_ok.1 h
        exact .steps_method
          (ih (.items _) _ _ (.items _) _ (measure_lt_of_length (h₂.trans h₀)) hargs)
          (ih (.steps _) _ _ (.expr _) _ (measure_lt_of_length (h₃.trans (h₂.trans h₀))) he)
      · rename_i hparen
        obtain ⟨e'', ts₂, h₂, he, h⟩ := h.bind
        obtain ⟨rfl, rfl⟩ := takes_ok.1 h
        exact .steps_attr (accept?_eq_none_iff.1 hparen)
          (ih (.steps _) _ _ (.expr _) _ (measure_lt_of_length h₀) he)
    · exact absurd h not_takes_fail
  · split at h
    · rename_i hd
      rw [room_of_lt hd]
      obtain ⟨attr, ts₁, h₁, hattr, h⟩ := h.bind
      obtain ⟨raw, rfl, hraw⟩ := takes_string_iff.1 hattr
      obtain ⟨_, ts₂, h₂, hclose, h⟩ := h.bind
      obtain rfl := takes_symbol_iff.1 hclose
      obtain ⟨e'', ts₃, h₃, he, h⟩ := h.bind
      obtain ⟨rfl, rfl⟩ := takes_ok.1 h
      refine .steps_index hraw (ih (.steps _) _ _ (.expr _) _ (measure_lt_of_length ?_) he)
      exact h₂.trans (h₁.trans (Nat.lt_succ_self _))
    · exact absurd h not_takes_fail
  · rename_i hdot hbracket
    obtain ⟨rfl, rfl⟩ := takes_ok.1 h
    exact .steps_stop ⟨head?_ne_of_forall hdot, head?_ne_of_forall hbracket⟩

/-! ## Lists, fields and primary expressions -/

theorem items_sound {close : Symbol} {es : List Expr}
    (ih : SoundBelow bound ((Reader.items close).measure ts))
    (h : Takes (items bound depth close ts) es rest) :
    Reads (.items close) (bound - depth) ts (.items es) rest := by
  rw [items] at h
  split at h
  · rename_i r hr
    obtain ⟨_, us, _⟩ := r
    obtain ⟨rfl, rfl⟩ := takes_ok.1 h
    have hts : ts = .symbol close :: us := Taken.accept?_eq_some_iff.1 hr
    subst hts
    exact .items_nil
  · rename_i hhead
    have hhead := accept?_eq_none_iff.1 hhead
    obtain ⟨e, ts₁, h₁, he, h⟩ := h.bind
    have he := ih .expr _ _ (.expr _) _ (measure_lt_of_rank (Nat.lt_succ_self _)) he
    dsimp only at h
    split at h
    · rename_i r hr
      obtain ⟨rfl, rfl⟩ := takes_ok.1 h
      have hts : ts₁ = .symbol close :: r.rest := Taken.accept?_eq_some_iff.1 hr
      exact .items_last hhead (hts ▸ he)
    · rename_i hnext
      obtain ⟨_, ts₂, h₂, hcomma, h⟩ := h.bind
      obtain rfl := takes_expect_iff.1 hcomma
      obtain ⟨es', ts₃, h₃, hes, h⟩ := h.bind
      obtain ⟨rfl, rfl⟩ := takes_ok.1 h
      refine .items_cons hhead ?_ he
        (ih (.items _) _ _ (.items _) _ (measure_lt_of_length (h₂.trans h₁)) hes)
      rintro rfl
      exact accept?_eq_none_iff.1 hnext rfl

theorem fields_sound {seen : List String} {fs : List (String × Expr)}
    (ih : SoundBelow bound ((Reader.fields seen).measure ts))
    (h : Takes (fields bound depth seen ts) fs rest) :
    Reads (.fields seen) (bound - depth) ts (.fields fs) rest := by
  rw [fields] at h
  split at h
  · rename_i r hr
    obtain ⟨_, us, _⟩ := r
    obtain ⟨rfl, rfl⟩ := takes_ok.1 h
    have hts : ts = .symbol .rightBrace :: us := Taken.accept?_eq_some_iff.1 hr
    subst hts
    exact .fields_nil
  · obtain ⟨key, ts₁, h₁, hkey, h⟩ := h.bind
    dsimp only at h
    split at h
    · exact absurd h not_takes_fail
    · rename_i hseen
      obtain ⟨k, rfl, hk⟩ := takes_identOrString_iff.1 hkey
      obtain ⟨_, ts₂, h₂, hcolon, h⟩ := h.bind
      obtain rfl := takes_symbol_iff.1 hcolon
      obtain ⟨e, ts₃, h₃, he, h⟩ := h.bind
      have he := ih .expr _ _ (.expr _) _ (measure_lt_of_length (h₂.trans h₁)) he
      dsimp only at h
      split at h
      · rename_i r hr
        obtain ⟨rfl, rfl⟩ := takes_ok.1 h
        have hts : ts₃ = .symbol .rightBrace :: r.rest := Taken.accept?_eq_some_iff.1 hr
        exact .fields_last hk hseen (hts ▸ he)
      · obtain ⟨_, ts₄, h₄, hcomma, h⟩ := h.bind
        obtain rfl := takes_expect_iff.1 hcomma
        obtain ⟨fs', ts₅, h₅, hfs, h⟩ := h.bind
        obtain ⟨rfl, rfl⟩ := takes_ok.1 h
        refine .fields_cons hk hseen he
          (ih (.fields _) _ _ (.fields _) _ (measure_lt_of_length ?_) hfs)
        exact h₄.trans (h₃.trans (h₂.trans h₁))

theorem primary_sound (ih : SoundBelow bound (Reader.primary.measure ts))
    (h : Takes (primary bound depth ts) e rest) :
    Reads .primary (bound - depth) ts (.expr e) rest := by
  rw [primary.eq_def] at h
  split at h
  · split at h
    · rename_i hi
      obtain ⟨rfl, rfl⟩ := takes_ok.1 h
      exact .primary_int hi
    · exact absurd h not_takes_fail
  · obtain ⟨s, ts₁, h₁, hs, h⟩ := h.bind
    obtain ⟨rfl, rfl⟩ := takes_ok.1 h
    obtain ⟨_, hraw, hd⟩ := takes_string_iff.1 hs
    cases hraw
    exact .primary_string hd
  · obtain ⟨e', ts₁, h₁, he, h⟩ := h.bind
    obtain ⟨_, ts₂, h₂, hclose, h⟩ := h.bind
    obtain rfl := takes_symbol_iff.1 hclose
    obtain ⟨rfl, rfl⟩ := takes_ok.1 h
    exact .primary_paren (ih .expr _ _ (.expr _) _ (measure_lt_of_length (by simp)) he)
  · obtain ⟨es, ts₁, h₁, hes, h⟩ := h.bind
    obtain ⟨rfl, rfl⟩ := takes_ok.1 h
    exact .primary_set (ih (.items _) _ _ (.items _) _ (measure_lt_of_length (by simp)) hes)
  · obtain ⟨fs, ts₁, h₁, hfs, h⟩ := h.bind
    obtain ⟨rfl, rfl⟩ := takes_ok.1 h
    exact .primary_record (ih (.fields _) _ _ (.fields _) _ (measure_lt_of_length (by simp)) hfs)
  · split at h
    · rename_i hd
      rw [room_of_lt hd]
      obtain ⟨e', ts₁, h₁, he, h⟩ := h.bind
      obtain ⟨rfl, rfl⟩ := takes_ok.1 h
      exact .primary_if (ih .conditional _ _ (.expr _) _ (measure_lt_of_length (by simp)) he)
    · exact absurd h not_takes_fail
  · obtain ⟨rfl, rfl⟩ := takes_ok.1 h
    exact .primary_true
  · obtain ⟨rfl, rfl⟩ := takes_ok.1 h
    exact .primary_false
  · split at h
    · exact absurd h not_takes_expected
    · rename_i hword
      obtain ⟨r, ts₁, h₁, hr, h⟩ := h.bind
      obtain ⟨names, tail, rfl, hend⟩ := takes_reference_iff.1 hr
      cases hend with
      | entity hd =>
        obtain ⟨rfl, rfl⟩ := takes_ok.1 h
        exact .primary_entity hword hd
      | name hcolons =>
        dsimp only at h
        split at h
        · rename_i ts₂ h₂ hparen
          have hts : ts₁ = .symbol .leftParen :: ts₂ := Taken.accept?_eq_some_iff.1 hparen
          subst hts
          obtain ⟨args, ts₃, h₃, hargs, h⟩ := h.bind
          obtain ⟨rfl, rfl⟩ := takes_ok.1 h
          exact .primary_call hword
            (ih (.items _) _ _ (.items _) _ (measure_lt_of_length (h₂.trans h₁)) hargs)
        · rename_i hparen
          cases names with
          | nil =>
            obtain ⟨rfl, rfl⟩ := takes_ok.1 h
            exact .primary_name hword hcolons (accept?_eq_none_iff.1 hparen)
          | cons name names => exact absurd h not_takes_expected
  · exact absurd h not_takes_expected

theorem sound_below (bound m : Nat) : SoundBelow bound m := by
  induction m using Nat.strongRecOn with
  | ind m ih =>
    intro r depth ts t rest hm h
    have ih := ih _ hm
    cases r <;> cases t <;> try exact absurd h id
    case expr.expr => exact expr_sound ih h
    case conditional.expr => exact conditional_sound ih h
    case chain.expr => exact chain_sound ih h
    case chainRest.expr => exact chainRest_sound ih h
    case relation.expr => exact relation_sound ih h
    case unary.expr => exact unary_sound ih h
    case steps.expr => exact steps_sound ih h
    case items.items => exact items_sound ih h
    case fields.fields => exact fields_sound ih h
    case primary.expr => exact primary_sound ih h

/-- **What a reader takes is derived, with the room that the bound leaves.** -/
theorem Reader.Takes.reads {r : Reader} {t : Tree} (h : r.Takes bound depth ts t rest) :
    Reads r (bound - depth) ts t rest :=
  sound_below bound _ r depth ts t rest (Nat.lt_succ_self _) h

end Parse

end AccessPolicy
