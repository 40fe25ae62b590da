import AccessPolicy.Expr.Parser
import AccessPolicy.Proofs.Parse.Takes

/-! # Names of several segments

A type name goes on as long as a separator and another identifier follow. A reference in an
expression may also end in a string, which is then the id of an entity. -/

namespace AccessPolicy

namespace Parse

/-- The tokens of the segments behind the first one of a name. -/
def segmentKinds (names : List String) : List Kind :=
  names.flatMap fun name => [.symbol .colonColon, .ident name]

@[simp] theorem segmentKinds_nil : segmentKinds [] = [] := rfl

@[simp] theorem segmentKinds_cons (name : String) (names : List String) :
    segmentKinds (name :: names) = .symbol .colonColon :: .ident name :: segmentKinds names := rfl

/-- A separator and another segment come next. -/
def NameGoesOn (ts : List Kind) : Prop :=
  ∃ name rest, ts = .symbol .colonColon :: .ident name :: rest

theorem not_nameGoesOn_of_head {ts : List Kind} (h : ts.head? ≠ some (.symbol .colonColon)) :
    ¬ NameGoesOn ts := by
  rintro ⟨name, rest, rfl⟩
  exact h rfl

theorem segments_iff {ts rest : List Kind} {names : List String} :
    ((segments ts).value = names ∧ (segments ts).rest = rest) ↔
      ts = segmentKinds names ++ rest ∧ ¬ NameGoesOn rest := by
  -- The reader and the tokens are taken apart together, one separator with its segment at a time.
  induction ts using segments.induct generalizing names with
  | case1 name ts ih =>
    simp only [segments, Taken.value_wider, Taken.rest_wider, Taken.value_map, Taken.rest_map]
    constructor
    · rintro ⟨rfl, hr⟩
      obtain ⟨hts, hn⟩ := ih.1 ⟨rfl, hr⟩
      refine ⟨?_, hn⟩
      simp only [segmentKinds_cons, List.cons_append, ← hts]
    · rintro ⟨hts, hn⟩
      cases names with
      | nil => exact absurd ⟨name, ts, hts.symm⟩ hn
      | cons a names =>
        simp only [segmentKinds_cons, List.cons_append, List.cons.injEq, Kind.ident.injEq,
          true_and] at hts
        obtain ⟨rfl, hts⟩ := hts
        obtain ⟨hv, hr⟩ := ih.2 ⟨hts, hn⟩
        exact ⟨by rw [hv], hr⟩
  | case2 ts hts =>
    have hstop : ¬ NameGoesOn ts := by
      rintro ⟨name, us, rfl⟩
      exact hts name us rfl
    have hs : segments ts = .nothing [] := by
      unfold segments
      split
      · rename_i name us
        exact absurd rfl (hts name us)
      · rfl
    rw [hs]
    constructor
    · rintro ⟨rfl, rfl⟩
      exact ⟨rfl, hstop⟩
    · rintro ⟨hn, -⟩
      cases names with
      | nil => exact ⟨rfl, hn⟩
      | cons a names => exact absurd ⟨a, segmentKinds names ++ rest, hn⟩ hstop

theorem takes_path_iff {ts rest : List Kind} {s : String} :
    Takes (path ts) s rest ↔ ∃ name names,
      ts = .ident name :: (segmentKinds names ++ rest) ∧ s = joinPath (name :: names) ∧
        ¬ NameGoesOn rest := by
  cases ts with
  | nil => simp [path]
  | cons k ts =>
    cases k with
    | ident name =>
      simp only [path, takes_ok, Taken.value_map, Taken.rest_map, List.cons.injEq,
        Kind.ident.injEq]
      constructor
      · rintro ⟨rfl, hr⟩
        obtain ⟨hts, hn⟩ := segments_iff.1 ⟨rfl, hr⟩
        exact ⟨name, _, ⟨rfl, hts⟩, rfl, hn⟩
      · rintro ⟨_, names, ⟨rfl, hts⟩, rfl, hn⟩
        obtain ⟨hv, hr⟩ := segments_iff.2 ⟨hts, hn⟩
        exact ⟨by rw [hv], hr⟩
    | string raw => simp [path]
    | int n => simp [path]
    | symbol s => simp [path]

theorem takes_uid_iff {ts rest : List Kind} {u : Uid} :
    Takes (uid ts) u rest ↔ ∃ word names raw,
      ts = .ident word :: (segmentKinds names ++ .symbol .colonColon :: .string raw :: rest) ∧
        u.entityType = joinPath (word :: names) ∧ Decodes raw u.id := by
  constructor
  · intro h
    unfold uid at h
    split at h
    · obtain ⟨entityType, ts₁, h₁, hpath, h⟩ := h.bind
      obtain ⟨word, names, hts, rfl, -⟩ := takes_path_iff.1 hpath
      obtain ⟨_, ts₂, h₂, hcolons, h⟩ := h.bind
      obtain rfl := takes_expect_iff.1 hcolons
      obtain ⟨id, ts₃, h₃, hid, h⟩ := h.bind
      obtain ⟨raw, rfl, hraw⟩ := takes_string_iff.1 hid
      obtain ⟨rfl, rfl⟩ := takes_ok.1 h
      exact ⟨word, names, raw, hts, rfl, hraw⟩
    · exact absurd h not_takes_expected
  · obtain ⟨entityType, id⟩ := u
    rintro ⟨word, names, raw, rfl, rfl, hraw⟩
    unfold uid
    have hpath := takes_path_iff.2 ⟨word, names, rfl, rfl,
      show ¬ NameGoesOn (.symbol .colonColon :: .string raw :: rest) by
        rintro ⟨name, us, h⟩
        cases h⟩
    refine .bind_intro hpath fun _ => ?_
    refine .bind_intro (takes_expect_iff.2 rfl) fun _ => ?_
    exact .bind_intro (takes_string_iff.2 ⟨raw, rfl, hraw⟩) fun _ => takes_ok.2 ⟨rfl, rfl⟩

/-! ## References in expressions -/

/-- How a reference ends whose segments were read: in the id of an entity, or as it is. -/
inductive ReferenceEnd (path : List String) : List Kind → Reference → List Kind → Prop where
  | entity {raw : List Char} {id : String} {rest : List Kind} (hd : Decodes raw id) :
    ReferenceEnd path (.symbol .colonColon :: .string raw :: rest)
      (.entity ⟨joinPath path, id⟩) rest
  | name {rest : List Kind} (hr : rest.head? ≠ some (.symbol .colonColon)) :
    ReferenceEnd path rest (.name path) rest

theorem takes_reference_iff {before : List String} {ts rest : List Kind} {r : Reference} :
    Takes (reference before ts) r rest ↔ ∃ names tail,
      ts = segmentKinds names ++ tail ∧ ReferenceEnd (before ++ names) tail r rest := by
  constructor
  · intro h
    induction before, ts using reference.induct with
    | case1 path raw ts =>
      rw [reference] at h
      obtain ⟨id, us, hlt, hid, h⟩ := h.bind
      obtain ⟨_, hraw, hd⟩ := takes_string_iff.1 hid
      cases hraw
      obtain ⟨rfl, rfl⟩ := takes_ok.1 h
      exact ⟨[], _, rfl, by simpa using .entity hd⟩
    | case2 path name ts ih =>
      rw [reference] at h
      obtain ⟨r', us, hlt, hr, h⟩ := h.bind
      obtain ⟨rfl, rfl⟩ := takes_ok.1 h
      obtain ⟨names, tail, rfl, hend⟩ := ih hr
      refine ⟨name :: names, tail, rfl, ?_⟩
      rwa [List.append_assoc] at hend
    | case3 path ts hs hi =>
      rw [reference] at h
      · exact absurd h not_takes_expected
      · exact fun raw us hu => hs raw us hu
      · exact fun name us hu => hi name us hu
    | case4 ts path hs hi hc =>
      rw [reference] at h
      · obtain ⟨rfl, rfl⟩ := takes_ok.1 h
        refine ⟨[], _, rfl, ?_⟩
        rw [List.append_nil]
        exact .name (head?_ne_of_forall hc)
      all_goals assumption
  · rintro ⟨names, tail, rfl, hend⟩
    induction names generalizing before with
    | nil =>
      rw [List.append_nil] at hend
      cases hend with
      | entity hd =>
        rw [segmentKinds_nil, List.nil_append, reference]
        exact .bind_intro (takes_string_iff.2 ⟨_, rfl, hd⟩) fun _ => takes_ok.2 ⟨rfl, rfl⟩
      | name hr =>
        rw [segmentKinds_nil, List.nil_append, reference]
        · exact takes_ok.2 ⟨rfl, rfl⟩
        all_goals
          intros
          subst_vars
          exact hr rfl
    | cons a names ih =>
      rw [segmentKinds_cons, List.cons_append, List.cons_append, reference]
      have hr := @ih (before ++ [a]) (by rwa [List.append_assoc])
      exact .bind_intro hr fun _ => takes_ok.2 ⟨rfl, rfl⟩

end Parse

end AccessPolicy
