import AccessPolicy.Proofs.Expr.Canonical
import AccessPolicy.Proofs.Policy.Grammar
import AccessPolicy.Proofs.Token.Layout

/-! # Canonical texts of policies

Annotations with their values as strings, a scope of three clauses, conditions in canonical form and
a semicolon, one policy behind the other. The text of a list that can be written is read back as the
list, under every bound with room for its conditions. -/

namespace AccessPolicy

open Parse (Slot separated)

/-! ## Tokens -/

def ScopeConstraint.kinds : ScopeConstraint → List Kind
  | .any => []
  | .equal u => .symbol .equalEqual :: u.kinds
  | .within u => .ident "in" :: u.kinds
  | .withinAny us =>
    .ident "in" :: .symbol .leftBracket :: (separated (us.map Uid.kinds) ++ [.symbol .rightBracket])
  | .is entityType => .ident "is" :: pathKinds entityType
  | .isIn entityType u => .ident "is" :: (pathKinds entityType ++ .ident "in" :: u.kinds)

/-- The tokens of a scope without its parentheses. -/
def Scope.kinds (s : Scope) : List Kind :=
  .ident "principal" :: (s.principal.kinds ++ .symbol .comma ::
    .ident "action" :: (s.action.kinds ++ .symbol .comma ::
      .ident "resource" :: s.resource.kinds))

def annotationKinds (key value : String) : List Kind :=
  [.symbol .at, .ident key, .symbol .leftParen, .quoted value, .symbol .rightParen]

def Annotations.kinds (a : Annotations) : List Kind :=
  a.list.flatMap fun note => annotationKinds note.1 note.2

def Condition.kinds (c : Condition) : List Kind :=
  .ident c.kind.text :: .symbol .leftBrace :: (c.body.kinds ++ [.symbol .rightBrace])

namespace Policy

def kinds (p : Policy) : List Kind :=
  p.annotations.kinds ++ .ident p.effect.text :: .symbol .leftParen ::
    (p.scope.kinds ++ .symbol .rightParen ::
      (p.conditions.flatMap Condition.kinds ++ [.symbol .semicolon]))

/-- The canonical text of a list of policies. -/
def canonicalText (ps : List Policy) : String := String.ofList (layout (ps.flatMap kinds))

end Policy

/-! ## What can be written -/

/-- The constraint can stand in the slot: its types can be read, and a list is for actions. -/
def ScopeConstraint.WritableIn (slot : Slot) : ScopeConstraint → Prop
  | .any => True
  | .equal u | .within u => IsPath u.entityType
  | .withinAny us => slot = .action ∧ ∀ u ∈ us, IsPath u.entityType
  | .is entityType => IsPath entityType
  | .isIn entityType u => IsPath entityType ∧ IsPath u.entityType

structure Policy.Writable (p : Policy) : Prop where
  keys : (p.annotations.list.map Prod.fst).Nodup
  identifiers : ∀ note ∈ p.annotations.list, IsIdentifier note.1
  principal : p.scope.principal.WritableIn .principal
  action : p.scope.action.WritableIn .action
  resource : p.scope.resource.WritableIn .resource
  bodies : ∀ c ∈ p.conditions, c.body.Writable

/-- A list of policies with a canonical text: the ids count the policies from zero, and each of them
can be written. -/
structure Policy.Printable (ps : List Policy) : Prop where
  ids : ps.map Policy.id = (List.range ps.length).map PolicyId.ofIndex
  policies : ∀ p ∈ ps, p.Writable

namespace Parse

/-! ## Reading scopes -/

theorem readsUids_kinds {us : List Uid} (h : ∀ u ∈ us, IsPath u.entityType) (rest : List Kind) :
    ReadsUids (separated (us.map Uid.kinds) ++ .symbol .rightBracket :: rest) us rest := by
  induction us with
  | nil => exact .nil
  | cons u us ih =>
    obtain ⟨hu, hus⟩ := List.forall_mem_cons.1 h
    cases us with
    | nil => exact .last (takes_uid_kinds hu _)
    | cons v us =>
      have hkinds : separated ((u :: v :: us).map Uid.kinds) ++ .symbol .rightBracket :: rest =
          u.kinds ++ .symbol .comma ::
            (separated ((v :: us).map Uid.kinds) ++ .symbol .rightBracket :: rest) := by
        simp [separated]
      rw [hkinds]
      exact .cons (takes_uid_kinds hu _) (ih hus)

theorem readsConstraint_kinds {slot : Slot} {c : ScopeConstraint} (h : c.WritableIn slot)
    {rest : List Kind} (hrest : ClosesAt rest) : ReadsConstraint slot (c.kinds ++ rest) c rest := by
  have hend : ¬ NameGoesOn rest := not_nameGoesOn_of_head (hrest.head?_ne (by decide))
  cases c with
  | any =>
    exact .any (hrest.head?_ne (by decide)) (hrest.head?_ne (by decide))
      (hrest.head?_ne (by decide))
  | equal u => exact .equal (takes_uid_kinds h rest)
  | within u => exact .within (takes_uid_kinds h rest)
  | withinAny us =>
    obtain ⟨hslot, hus⟩ := h
    have hkinds : (ScopeConstraint.withinAny us).kinds ++ rest =
        .ident "in" :: .symbol .leftBracket ::
          (separated (us.map Uid.kinds) ++ .symbol .rightBracket :: rest) := by
      simp [ScopeConstraint.kinds]
    rw [hkinds]
    exact .withinAny hslot (readsUids_kinds hus rest)
  | is entityType => exact .is (takes_path_kinds h hend) (hrest.head?_ne (by decide))
  | isIn entityType u =>
    obtain ⟨htype, hu⟩ := h
    have hin : ¬ NameGoesOn (.ident "in" :: (u.kinds ++ rest)) := not_nameGoesOn_of_head (by simp)
    have hkinds : (ScopeConstraint.isIn entityType u).kinds ++ rest =
        .ident "is" :: (pathKinds entityType ++ .ident "in" :: (u.kinds ++ rest)) := by
      simp [ScopeConstraint.kinds]
    rw [hkinds]
    exact .isIn (takes_path_kinds htype hin) (takes_uid_kinds hu rest)

theorem readsScope_kinds {s : Scope} (hprincipal : s.principal.WritableIn .principal)
    (haction : s.action.WritableIn .action) (hresource : s.resource.WritableIn .resource)
    {rest : List Kind} (hrest : ClosesAt rest) : ReadsScope (s.kinds ++ rest) s rest := by
  have hkinds : s.kinds ++ rest = .ident "principal" :: (s.principal.kinds ++ .symbol .comma ::
      .ident "action" :: (s.action.kinds ++ .symbol .comma ::
        .ident "resource" :: (s.resource.kinds ++ rest))) := by
    simp [Scope.kinds]
  rw [hkinds]
  exact .intro (readsConstraint_kinds hprincipal (closesAt_cons (by decide)))
    (readsConstraint_kinds haction (closesAt_cons (by decide)))
    (readsConstraint_kinds hresource hrest)

/-! ## Reading policies -/

/-- A key that is not there yet comes last. -/
theorem insertIn_of_not_mem {key : String} (value : String) {l : List (String × String)}
    (h : key ∉ l.map Prod.fst) : Annotations.insertIn key value l = l ++ [(key, value)] := by
  induction l with
  | nil => rfl
  | cons note l ih =>
    obtain ⟨hne, hl⟩ := not_or.1 (mt List.mem_cons.2 h)
    rw [Annotations.insertIn, if_neg (Ne.symm hne), ih hl, List.cons_append]

theorem readsAnnotations_list {done l : List (String × String)}
    (hkeys : ((done ++ l).map Prod.fst).Nodup) {rest : List Kind}
    (h : rest.head? ≠ some (.symbol .at)) :
    ReadsAnnotations ⟨done⟩ ((l.flatMap fun note => annotationKinds note.1 note.2) ++ rest)
      ⟨done ++ l⟩ rest := by
  induction l generalizing done with
  | nil =>
    rw [List.append_nil]
    exact .stop h
  | cons note l ih =>
    rw [List.map_append, List.map_cons] at hkeys
    have hfresh : note.1 ∉ done.map Prod.fst := fun hm =>
      (List.nodup_append.1 hkeys).2.2 _ hm _ List.mem_cons_self rfl
    have hinsert : Annotations.insert ⟨done⟩ note.1 note.2 = ⟨done ++ [note]⟩ :=
      congrArg Annotations.mk (insertIn_of_not_mem note.2 hfresh)
    have hrest := @ih (done ++ [note]) (by simpa using hkeys)
    rw [← hinsert, List.append_assoc] at hrest
    rw [List.flatMap_cons, List.append_assoc]
    exact .valued (decodes_escape note.2) hrest

theorem readsAnnotations_kinds {notes : Annotations}
    (hkeys : (notes.list.map Prod.fst).Nodup) {rest : List Kind}
    (h : rest.head? ≠ some (.symbol .at)) : ReadsAnnotations {} (notes.kinds ++ rest) notes rest :=
  @readsAnnotations_list [] notes.list hkeys rest h

theorem readsConditions_kinds {n : Nat} {cs : List Condition}
    (h : ∀ c ∈ cs, ReadsAs n c.body.kinds c.body) {rest : List Kind}
    (hrest : ∀ k ∈ rest.head?, conditionKind? k = none) :
    ReadsConditions n (cs.flatMap Condition.kinds ++ rest) cs rest := by
  induction cs with
  | nil => exact .stop hrest
  | cons c cs ih =>
    obtain ⟨hc, hcs⟩ := List.forall_mem_cons.1 h
    have hbody := hc (.symbol .rightBrace :: (cs.flatMap Condition.kinds ++ rest))
      (closesAt_cons (by decide))
    have hkind : conditionKind? (.ident c.kind.text) = some c.kind := by cases c.kind <;> rfl
    have hcons := ReadsConditions.cons hkind hbody (ih hcs)
    simpa [Condition.kinds] using hcons

theorem readsPolicy_kinds {bound : Nat} {p : Policy} (hp : p.Writable)
    (hbound : ∀ c ∈ p.conditions, c.body.room ≤ bound) (rest : List Kind) :
    ReadsPolicy bound p (p.kinds ++ rest) rest := by
  have hbodies : ∀ c ∈ p.conditions, ReadsAs bound c.body.kinds c.body := fun c hc =>
    (hp.bodies c hc).readsAs.mono (hbound c hc)
  have hconditions := @readsConditions_kinds bound p.conditions hbodies (.symbol .semicolon :: rest)
    (by simp [conditionKind?])
  have hkinds : p.kinds ++ rest = p.annotations.kinds ++ .ident p.effect.text ::
      .symbol .leftParen :: (p.scope.kinds ++ .symbol .rightParen ::
        (p.conditions.flatMap Condition.kinds ++ .symbol .semicolon :: rest)) := by
    simp [Policy.kinds]
  rw [hkinds]
  exact .intro (readsAnnotations_kinds hp.keys (by simp))
    (readsScope_kinds hp.principal hp.action hp.resource (closesAt_cons (by decide))) hconditions

theorem readsPolicies_kinds {bound index : Nat} {ps : List Policy} (hps : ∀ p ∈ ps, p.Writable)
    (hids : ps.map Policy.id = (List.range' index ps.length).map PolicyId.ofIndex)
    (hbound : ∀ p ∈ ps, ∀ c ∈ p.conditions, c.body.room ≤ bound) :
    ReadsPolicies bound index (ps.flatMap Policy.kinds) ps := by
  induction ps generalizing index with
  | nil => exact .nil
  | cons p ps ih =>
    obtain ⟨hp, hps⟩ := List.forall_mem_cons.1 hps
    obtain ⟨hroom, hbound⟩ := List.forall_mem_cons.1 hbound
    rw [List.length_cons, List.range'_succ, List.map_cons, List.map_cons, List.cons.injEq] at hids
    exact .cons hids.1 (readsPolicy_kinds hp hroom _) (ih hps hids.2 hbound)

theorem policies_kinds {bound index : Nat} {ps : List Policy} (hps : ∀ p ∈ ps, p.Writable)
    (hids : ps.map Policy.id = (List.range' index ps.length).map PolicyId.ofIndex)
    (hbound : ∀ p ∈ ps, ∀ c ∈ p.conditions, c.body.room ≤ bound) :
    policies bound index (ps.flatMap Policy.kinds) = .ok ps :=
  policies_eq_ok_iff.2 (readsPolicies_kinds hps hids hbound)

end Parse

/-! ## Spelling -/

theorem ScopeConstraint.WritableIn.spellable {slot : Slot} {c : ScopeConstraint}
    (h : c.WritableIn slot) : Spellable c.kinds := by
  have hin : IsIdentifier "in" := by decide
  have his : IsIdentifier "is" := by decide
  cases c with
  | any => exact .nil
  | equal u => simp [kinds, Uid.spellable_kinds h]
  | within u => simp [kinds, hin, Uid.spellable_kinds h]
  | withinAny us =>
    have hus : Spellable (separated (us.map Uid.kinds)) :=
      .separated fun u hu => Uid.spellable_kinds (h.2 u hu)
    simp [kinds, hin, hus]
  | is entityType => simp [kinds, his, IsPath.spellable h]
  | isIn entityType u => simp [kinds, hin, his, h.1.spellable, Uid.spellable_kinds h.2]

namespace Policy

theorem Writable.spellable {p : Policy} (h : p.Writable) : Spellable p.kinds := by
  have hwords : ∀ word ∈ ["permit", "forbid", "when", "unless", "principal", "action", "resource"],
      IsIdentifier word := by decide
  simp only [List.forall_mem_cons] at hwords
  have hnotes : Spellable p.annotations.kinds := .flatMap fun note hnote => by
    simp [annotationKinds, h.identifiers note hnote]
  have heffect : IsIdentifier p.effect.text := by cases p.effect <;> simp [hwords, Effect.text]
  have hkind : ∀ kind : ConditionKind, IsIdentifier kind.text := by
    intro kind
    cases kind <;> simp [hwords, ConditionKind.text]
  have hconditions : Spellable (p.conditions.flatMap Condition.kinds) := .flatMap fun c hc => by
    simp [Condition.kinds, hkind, (h.bodies c hc).spellable]
  simp [kinds, Scope.kinds, hwords, hnotes, heffect, hconditions, h.principal.spellable,
    h.action.spellable, h.resource.spellable]

/-! ## Texts -/

/-- **A printable list of policies is read back from its canonical text**, under every bound with
room for its conditions. -/
theorem parseAll_canonicalText {ps : List Policy} (h : Printable ps) :
    ∀ bound, Expr.itemsRoom (bodies ps) ≤ bound → parseAll bound (canonicalText ps) = .ok ps := by
  intro bound hbound
  have hspell : Spellable (ps.flatMap kinds) := .flatMap fun p hp => (h.policies p hp).spellable
  have htext : Lexes (canonicalText ps).toList (ps.flatMap kinds) := by
    rw [canonicalText, String.toList_ofList]
    exact .layout hspell
  have hroom : ∀ p ∈ ps, ∀ c ∈ p.conditions, c.body.room ≤ bound := fun p hp c hc => by
    have hbody : c.body ∈ bodies ps := List.mem_flatMap.2 ⟨p, hp, List.mem_map_of_mem hc⟩
    exact (Expr.room_le_itemsRoom hbody).trans hbound
  have hids := h.ids
  rw [List.range_eq_range'] at hids
  exact htext.run_eq_ok (Parse.policies_kinds h.policies hids hroom)

/-- Quotes in an attribute name, a literal star before a wildcard, a negated literal against a
negative one, an annotation without a value, and a second policy that says nothing else. -/
theorem parseAll_canonicalText_pair :
    let starred : Expr := .like (.getAttr (.var .principal) "\"x\"") [.char '*', .wildcard]
    let compared : Expr :=
      .binary (.order .less) (.neg (.literal (.long 5))) (.literal (.long (-5)))
    let target : Scope :=
      { principal := .isIn "App::User" ⟨"Group", "g\n"⟩
        action := .withinAny [⟨"Action", "read"⟩, ⟨"Action", "write"⟩]
        resource := .equal ⟨"Doc", "x"⟩ }
    let first : Policy :=
      ⟨.ofIndex 0, .permit, target, [⟨.when, .and starred compared⟩], ⟨[("id", "a"), ("note", "")]⟩⟩
    let second : Policy := ⟨.ofIndex 1, .forbid, {}, [], {}⟩
    parseAll 8 (canonicalText [first, second]) = .ok [first, second] := by
  intro starred compared target first second
  have huser : IsPath "App::User" := ⟨"App", ["User"], by decide, by decide⟩
  have hgroup : IsPath "Group" := ⟨"Group", [], by decide, by decide⟩
  have haction : IsPath "Action" := ⟨"Action", [], by decide, by decide⟩
  have hdoc : IsPath "Doc" := ⟨"Doc", [], by decide, by decide⟩
  have hlow : InLongRange (-5) := by decide
  have hhigh : InLongRange 5 := by decide
  have hstarred : starred.Writable := .like (.getAttr (.var .principal))
  have hcompared : compared.Writable := .binary (.neg (.literal hhigh)) (.literal hlow)
  have hfirst : first.Writable := {
    keys := by decide
    identifiers := by decide
    principal := ⟨huser, hgroup⟩
    action := ⟨rfl, List.forall_mem_cons.2 ⟨haction, List.forall_mem_singleton.2 haction⟩⟩
    resource := hdoc
    bodies := List.forall_mem_singleton.2 (.and hstarred hcompared) }
  have hsecond : second.Writable := ⟨by decide, by decide, trivial, trivial, trivial, nofun⟩
  have hprintable : Printable [first, second] :=
    ⟨rfl, List.forall_mem_cons.2 ⟨hfirst, List.forall_mem_singleton.2 hsecond⟩⟩
  exact parseAll_canonicalText hprintable 8 (by decide)

example : canonicalText [⟨.ofIndex 0, .forbid, { action := .equal ⟨"A", "\""⟩ }, [], {}⟩] =
    "forbid(principal, action == A::\"\\\"\", resource);" := by decide

end Policy

end AccessPolicy
