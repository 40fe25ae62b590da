import AccessPolicy.Proofs.Parse.Names
import AccessPolicy.Proofs.Token.Lexes

/-! # Type names and references as tokens

A type name that can be read is identifiers joined by `::`. Such a name, and a reference whose type
is one, is cut into the tokens of its segments and read from them. -/

namespace AccessPolicy

open Parse (joinPath segmentKinds)

/-- The name is identifiers joined by `::`. -/
def IsPath (name : String) : Prop :=
  ∃ word names, (∀ segment ∈ word :: names, IsIdentifier segment) ∧
    name = joinPath (word :: names)

/-- The name can begin an expression: its first segment is no reserved word. -/
def IsReferable (name : String) : Prop :=
  ∃ word names, (∀ segment ∈ word :: names, IsIdentifier segment) ∧ word ∉ Parse.reserved ∧
    name = joinPath (word :: names)

theorem IsReferable.isPath {name : String} (h : IsReferable name) : IsPath name := by
  obtain ⟨word, names, hids, -, hname⟩ := h
  exact ⟨word, names, hids, hname⟩

theorem toList_joinPath (word : String) (names : List String) :
    (joinPath (word :: names)).toList =
      word.toList ++ names.flatMap fun name => ':' :: ':' :: name.toList := by
  unfold joinPath
  rw [String.toList_intercalate]
  induction names generalizing word with
  | nil => simp
  | cons a names ih =>
    simp only [List.map_cons, List.intercalate_cons_cons] at ih ⊢
    rw [ih]
    simp

/-! ## Segments of a name -/

/-- What stands before the first `::`, and the parts behind it. -/
def splitColons : List Char → List Char × List (List Char)
  | [] => ([], [])
  | ':' :: ':' :: cs => ([], (splitColons cs).1 :: (splitColons cs).2)
  | c :: cs => (c :: (splitColons cs).1, (splitColons cs).2)

theorem splitColons_append {cs : List Char} (h : ':' ∉ cs) (ds : List Char) :
    splitColons (cs ++ ds) = (cs ++ (splitColons ds).1, (splitColons ds).2) := by
  induction cs with
  | nil => rfl
  | cons c cs ih =>
    obtain ⟨hc, hcs⟩ := not_or.1 (mt List.mem_cons.2 h)
    rw [List.cons_append, splitColons, ih hcs]
    · rfl
    · exact fun _ hcolon _ => hc hcolon.symm

theorem splitColons_segments {names : List String} (h : ∀ name ∈ names, ':' ∉ name.toList) :
    splitColons (names.flatMap fun name => ':' :: ':' :: name.toList) =
      ([], names.map String.toList) := by
  induction names with
  | nil => rfl
  | cons name names ih =>
    obtain ⟨hname, hnames⟩ := List.forall_mem_cons.1 h
    rw [List.flatMap_cons, List.cons_append, List.cons_append, splitColons,
      splitColons_append hname, ih hnames]
    simp

theorem IsIdentifier.isIdentChar {name : String} (h : IsIdentifier name) :
    ∀ c ∈ name.toList, Lexer.isIdentChar c = true := by
  obtain ⟨c, cs, hname, hc, hcs⟩ := h
  rw [hname]
  refine List.forall_mem_cons.2 ⟨?_, hcs⟩
  simp only [Lexer.isIdentStart, Lexer.isIdentChar, Char.isAlphanum, Bool.or_eq_true] at hc ⊢
  exact hc.imp_left .inl

theorem IsIdentifier.colon_not_mem {name : String} (h : IsIdentifier name) :
    ':' ∉ name.toList := by
  intro hm
  have hc := h.isIdentChar ':' hm
  revert hc
  decide

/-- The tokens of a type name. -/
def pathKinds (name : String) : List Kind :=
  .ident (String.ofList (splitColons name.toList).1) ::
    segmentKinds ((splitColons name.toList).2.map String.ofList)

theorem pathKinds_joinPath {word : String} {names : List String}
    (hids : ∀ segment ∈ word :: names, IsIdentifier segment) :
    pathKinds (joinPath (word :: names)) = .ident word :: segmentKinds names := by
  obtain ⟨hword, hnames⟩ := List.forall_mem_cons.1 hids
  unfold pathKinds
  rw [toList_joinPath, splitColons_append hword.colon_not_mem,
    splitColons_segments fun name hn => (hnames name hn).colon_not_mem]
  simp [Function.comp_def]

/-- The tokens of a reference. -/
def Uid.kinds (u : Uid) : List Kind :=
  pathKinds u.entityType ++ [.symbol .colonColon, .quoted u.id]

theorem IsPath.spellable {name : String} (h : IsPath name) : Spellable (pathKinds name) := by
  obtain ⟨word, names, hids, rfl⟩ := h
  obtain ⟨hword, hnames⟩ := List.forall_mem_cons.1 hids
  rw [pathKinds_joinPath hids]
  refine Spellable.cons_iff.2 ⟨hword, .flatMap fun name hname => ?_⟩
  simp [hnames name hname]

theorem Uid.spellable_kinds {u : Uid} (h : IsPath u.entityType) : Spellable u.kinds := by
  simp [Uid.kinds, h.spellable]

/-! ## Texts of names -/

namespace Lexes

variable {rest : List Char} {ks : List Kind}

/-- No identifier goes on before the segments of a name. -/
theorem isIdentChar_segments {c : Char} {names : List String}
    (hr : ∀ c ∈ rest.head?, Lexer.isIdentChar c = false)
    (hc : c ∈ ((names.flatMap fun name => ':' :: ':' :: name.toList) ++ rest).head?) :
    Lexer.isIdentChar c = false := by
  cases names with
  | nil => exact hr c hc
  | cons name names =>
    cases hc
    rfl

theorem segments {names : List String} (hids : ∀ segment ∈ names, IsIdentifier segment)
    (hr : ∀ c ∈ rest.head?, Lexer.isIdentChar c = false) (h : Lexes rest ks) :
    Lexes ((names.flatMap fun name => ':' :: ':' :: name.toList) ++ rest)
      (segmentKinds names ++ ks) := by
  induction names with
  | nil => exact h
  | cons name names ih =>
    obtain ⟨hname, hids⟩ := List.forall_mem_cons.1 hids
    have hident := ident hname (fun c hc => isIdentChar_segments hr hc) (ih hids)
    have hcolons := @symbol _ _ .colonColon (by simp [Kind.EndsBefore, Symbol.longer?]) hident
    simpa [Symbol.text] using hcolons

theorem path {name : String} (hn : IsPath name)
    (hr : ∀ c ∈ rest.head?, Lexer.isIdentChar c = false) (h : Lexes rest ks) :
    Lexes (name.toList ++ rest) (pathKinds name ++ ks) := by
  obtain ⟨word, names, hids, rfl⟩ := hn
  obtain ⟨hword, hnames⟩ := List.forall_mem_cons.1 hids
  rw [toList_joinPath, List.append_assoc, pathKinds_joinPath hids]
  exact ident hword (fun c hc => isIdentChar_segments hr hc) (segments hnames hr h)

theorem uid {u : Uid} (hu : IsPath u.entityType) (h : Lexes rest ks) :
    Lexes (u.text.toList ++ rest) (u.kinds ++ ks) := by
  have hcolons := @symbol _ _ .colonColon (by simp [Kind.EndsBefore, Symbol.longer?])
    (quoted u.id h)
  have hstop : ∀ c ∈ (Symbol.colonColon.text.toList ++ ((Text.quoted u.id).toList ++ rest)).head?,
      Lexer.isIdentChar c = false := by
    rintro c ⟨⟩
    rfl
  have hpath := path hu hstop hcolons
  simpa [Uid.text, Uid.kinds, Symbol.text] using hpath

end Lexes

/-! ## Readers of names -/

namespace Parse

theorem decodes_escape (s : String) : Decodes (Text.escape s.toList) s :=
  Text.unescape_escape s.toList

theorem takes_path_kinds {name : String} (h : IsPath name) {rest : List Kind}
    (hend : ¬ NameGoesOn rest) : Takes (path (pathKinds name ++ rest)) name rest := by
  obtain ⟨word, names, hids, rfl⟩ := h
  rw [pathKinds_joinPath hids]
  exact takes_path_iff.2 ⟨word, names, rfl, rfl, hend⟩

theorem takes_uid_kinds {u : Uid} (h : IsPath u.entityType) (rest : List Kind) :
    Takes (uid (u.kinds ++ rest)) u rest := by
  obtain ⟨entityType, id⟩ := u
  obtain ⟨word, names, hids, rfl⟩ := h
  refine takes_uid_iff.2 ⟨word, names, _, ?_, rfl, decodes_escape id⟩
  simp [Uid.kinds, Kind.quoted, pathKinds_joinPath hids]

end Parse

end AccessPolicy
