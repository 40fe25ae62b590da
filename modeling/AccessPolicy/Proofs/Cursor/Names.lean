import AccessPolicy.Proofs.Cursor.Procedures
import AccessPolicy.Proofs.Cursor.Rules

/-! # Names and references with a cursor -/

namespace AccessPolicy.Cursor

open Parse (joinPath)

variable {α : Type} {input : Input} {s : State} {ts : List Kind} {d n : Nat}

/-! ## Type names -/

theorem exec_peekNext {k : Kind} (h : s.Before input d (k :: ts)) :
    exec (peekNext input) s = some (.ok ts.head?, s) := by
  have hlt : s.cursor.index + 1 < input.tokens.length :=
    h.next.orderly.index_lt _ List.mem_cons_self
  have hmin : min (s.cursor.index + 1) (input.tokens.length - 1) = s.cursor.index + 1 := by omega
  have hnext : input.tokens[s.cursor.index + 1]? =
      some (ts.head?, input.source.positionAt ts.length) := h.next.getElem?
  have htoken : exec (tokenAt input (s.cursor.index + 1)) s =
      some (.ok (ts.head?, input.source.positionAt ts.length), s) := by
    rw [tokenAt, hnext]
    rfl
  change exec (tokenAt input (min _ _) >>= _) s = _
  rw [hmin, exec_bind_ok htoken]
  rfl

theorem joinPath_append (path segment : String) (names : List String) :
    joinPath ((path ++ "::" ++ segment) :: names) = joinPath (path :: segment :: names) := by
  cases names <;> simp [joinPath, String.append_assoc]

/-- The loop of a type name takes the segments that a reader takes. -/
theorem exec_pathLoop (h : s.Before input d ts) (hn : ts.length < n) (path : String) :
    ∃ s', exec ((within input n).pathLoop path) s =
        some (.ok (joinPath (path :: (Parse.segments ts).value)), s') ∧
      s'.Before input d (Parse.segments ts).rest := by
  induction n generalizing s ts path with
  | zero => exact absurd hn (Nat.not_lt_zero _)
  | succ n ih =>
    change ∃ s', exec (pathLoop input (within input n) path) s = _ ∧ _
    rw [pathLoop]
    by_cases hsegment : ∃ name us, ts = .symbol .colonColon :: .ident name :: us
    · obtain ⟨name, us, rfl⟩ := hsegment
      have hus : us.length < n := by
        simp only [List.length_cons] at hn
        omega
      obtain ⟨s', hs', hbefore⟩ := ih h.next.next hus (path ++ "::" ++ name)
      refine ⟨s', ?_, hbefore⟩
      rw [exec_ite_pos h, exec_bind_ok (exec_peekNext h), List.head?_cons]
      dsimp only
      rw [exec_bind_ok (exec_advance h), exec_bind_ok (exec_ident h.next _), hs', joinPath_append]
      rfl
    · have hsegments : Parse.segments ts = .nothing [] :=
        Parse.segments.eq_2 ts fun name us hts => hsegment ⟨name, us, hts⟩
      refine ⟨s, ?_, hsegments ▸ h⟩
      have hpath : joinPath (path :: (Parse.segments ts).value) = path := by
        rw [hsegments]
        rfl
      rw [hpath]
      rcases eq_cons_or_head?_ne (.symbol .colonColon) ts with ⟨us, rfl⟩ | hk
      · rw [exec_ite_pos h, exec_bind_ok (exec_peekNext h)]
        match us with
        | .ident name :: us => exact absurd ⟨name, us, rfl⟩ hsegment
        | [] | .string _ :: _ | .int _ :: _ | .symbol _ :: _ => rfl
      · rw [exec_ite_neg h hk]
        rfl

/-- A type name is a name and the segments behind it. -/
theorem parsePath_eq (ts : List Kind) :
    Parse.path ts = Parse.ident .typeName ts >>= fun t => .ok
      (((Parse.segments t.rest).map fun names => joinPath (t.value :: names)).optionalAfter
        t.lt) := by
  match ts with
  | .ident name :: us => rfl
  | [] | .string _ :: _ | .int _ :: _ | .symbol _ :: _ => rfl

theorem path_ends (h : s.Before input d ts) (hn : ts.length ≤ n) :
    Ends input (Parse.path ts) (Took input d) (exec (path input (within input n)) s) := by
  rw [path, parsePath_eq]
  refine (ident_ends h _).bind ?_
  rintro ⟨_, ts₁, hlt⟩ name s₁ - ⟨rfl, h₁⟩
  obtain ⟨s', hs', hbefore⟩ := exec_pathLoop h₁ (Nat.lt_of_lt_of_le hlt hn) name
  rw [hs']
  exact ⟨_, rfl, rfl, hbefore⟩

theorem uid_ends (h : s.Before input d ts) (hn : ts.length ≤ n) :
    Ends input (Parse.uid ts) (Took input d) (exec (uid input (within input n)) s) := by
  rw [uid, exec_bind_ok (exec_peek h)]
  match ts with
  | .ident name :: us =>
    refine (path_ends h hn).bind ?_
    rintro ⟨_, ts₁, _⟩ entityType s₁ - ⟨rfl, h₁⟩
    refine (expect_ends h₁ _ _).bind ?_
    rintro ⟨_, ts₂, _⟩ _ s₂ - ⟨rfl, h₂⟩
    refine (string_ends h₂ _).bind ?_
    rintro t id s₃ - ⟨rfl, h₃⟩
    exact .pure ⟨rfl, h₃⟩
  | [] | .string _ :: _ | .int _ :: _ | .symbol _ :: _ => exact .expected h _

/-! ## Names and references in expressions -/

theorem referenceLoop_ends (h : s.Before input d ts) (hn : ts.length < n) (path : List String) :
    Ends input (Parse.reference path ts) (Took input d)
      (exec ((within input n).referenceLoop path) s) := by
  induction n generalizing s ts path with
  | zero => exact absurd hn (Nat.not_lt_zero _)
  | succ n ih =>
    change Ends input _ _ (exec (referenceLoop input (within input n) path) s)
    rw [referenceLoop]
    rcases eq_cons_or_head?_ne (.symbol .colonColon) ts with ⟨us, rfl⟩ | hk
    · rw [exec_ite_pos h, exec_bind_ok (exec_advance h), exec_bind_ok (exec_peek h.next)]
      match us with
      | .string raw :: us =>
        rw [Parse.reference]
        refine (string_ends h.next _).bind ?_
        rintro t id s' - ⟨rfl, h'⟩
        exact .pure ⟨rfl, h'⟩
      | .ident name :: us =>
        have hus : us.length < n := by
          simp only [List.length_cons] at hn
          omega
        dsimp only [List.head?_cons]
        rw [Parse.reference, exec_bind_ok (exec_ident h.next _)]
        exact (ih h.next.next hus _).pack fun r a s' h' => h'
      | [] | .int _ :: _ | .symbol _ :: _ => exact .expected h.next _
    · rw [exec_ite_neg h hk, Parse.reference.eq_def]
      split
      · exact absurd rfl hk
      · exact absurd rfl hk
      · exact absurd rfl hk
      · exact .pure ⟨rfl, h⟩

end AccessPolicy.Cursor
