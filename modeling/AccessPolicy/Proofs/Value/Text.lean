import AccessPolicy.Proofs.Expr.Canonical
import AccessPolicy.Proofs.Value.Canonical

/-! # Values are read back from their texts

The text of a value is cut into the canonical tokens of its expression, which is read back with two
levels more than the value nests, and evaluates to the value. -/

namespace AccessPolicy

open Parse (separated fieldKinds)

/-! ## Texts before a character that ends them -/

/-- No identifier or number goes on here. -/
def Stops (rest : List Char) : Prop := ∀ c ∈ rest.head?, Lexer.isIdentChar c = false

theorem stops_cons {c : Char} {rest : List Char} (hc : Lexer.isIdentChar c = false) :
    Stops (c :: rest) := by
  rintro d ⟨⟩
  exact hc

theorem Stops.isDigit {rest : List Char} (h : Stops rest) :
    ∀ c ∈ rest.head?, c.isDigit = false := by
  intro c hc
  have hident := h c hc
  simp only [Lexer.isIdentChar, Char.isAlphanum, Bool.or_eq_false_iff] at hident
  exact hident.1.2

/-- The text is cut into the tokens, before anything that ends it. -/
def LexesAs (text : String) (us : List Kind) : Prop :=
  ∀ (rest : List Char) (ks : List Kind), Stops rest → Lexes rest ks →
    Lexes (text.toList ++ rest) (us ++ ks)

theorem LexesAs.lexes {text : String} {us : List Kind} (h : LexesAs text us) :
    Lexes text.toList us := by
  have hall := h [] [] (by simp [Stops]) .nil
  rwa [List.append_nil, List.append_nil] at hall

theorem LexesAs.quoted (s : String) : LexesAs (Text.quoted s) [.quoted s] :=
  fun _ _ _ h => h.quoted s

theorem LexesAs.ident {name : String} (h : IsIdentifier name) : LexesAs name [.ident name] :=
  fun _ _ hr hrest => hrest.ident h hr

theorem toList_toString_nat (n : Nat) : (toString n).toList = (Kind.int n).spelling := by
  rw [Nat.toString_eq_ofList_toDigits, String.toList_ofList]
  rfl

theorem toList_toString_negSucc (n : Nat) :
    (toString (Int.negSucc n)).toList = '-' :: (Kind.int (n + 1)).spelling := by
  have hneg : toString (Int.negSucc n) = "-" ++ toString (n + 1) := rfl
  rw [hneg, String.toList_append, toList_toString_nat]
  rfl

theorem LexesAs.long {n : Int} (h : InLongRange n) : LexesAs (toString n) (longKinds n) := by
  intro rest ks hr hrest
  have hspell := Spellable.longKinds h
  cases n with
  | ofNat n =>
    have hint : (Kind.int n).Spellable := (Spellable.cons_iff.1 hspell).1
    have hnat : (toString (Int.ofNat n)).toList = (Kind.int n).spelling := toList_toString_nat n
    rw [hnat]
    exact .token hint hr.isDigit hrest
  | negSucc n =>
    have hint : (Kind.int (n + 1)).Spellable :=
      (Spellable.cons_iff.1 (Spellable.cons_iff.1 hspell).2).1
    rw [toList_toString_negSucc]
    exact @Lexes.symbol _ _ .minus (by simp [Kind.EndsBefore, Symbol.longer?])
      (.token hint hr.isDigit hrest)

theorem toList_intercalate_cons (s t : String) (l : List String) :
    (", ".intercalate (s :: t :: l)).toList =
      s.toList ++ ',' :: ' ' :: (", ".intercalate (t :: l)).toList := by
  simp only [String.toList_intercalate, List.map_cons, List.intercalate_cons_cons]
  simp

/-- Texts with commas between them. -/
theorem LexesAs.separated {α : Type} {text : α → String} {part : α → List Kind} {l : List α}
    (h : ∀ a ∈ l, LexesAs (text a) (part a)) :
    LexesAs (", ".intercalate (l.map text)) (separated (l.map part)) := by
  intro rest ks hr hrest
  induction l with
  | nil => simpa [Parse.separated] using hrest
  | cons a l ih =>
    obtain ⟨ha, hl⟩ := List.forall_mem_cons.1 h
    cases l with
    | nil =>
      have hlast := ha rest ks hr hrest
      simpa [Parse.separated] using hlast
    | cons b l =>
      have htail : Lexes (',' :: ' ' :: ((", ".intercalate ((b :: l).map text)).toList ++ rest))
          (.symbol .comma :: (Parse.separated ((b :: l).map part) ++ ks)) :=
        @Lexes.symbol _ _ .comma (by simp [Kind.EndsBefore, Symbol.longer?]) (ih hl).space
      have hfirst := ha _ _ (stops_cons rfl) htail
      rw [List.map_cons, List.map_cons, toList_intercalate_cons, ← List.map_cons]
      simpa [Parse.separated] using hfirst

/-! ## Texts of values -/

namespace Value

/-- The type of a reference can begin an expression. -/
def ReferenceReferable : Value → Prop
  | .entity u => IsReferable u.entityType
  | _ => True

/-- The types of all references inside the value can begin an expression. -/
def Referable (v : Value) : Prop := v.Everywhere ReferenceReferable

theorem itemTexts_eq (vs : List Value) : itemTexts vs = vs.map text := by
  induction vs with
  | nil => rfl
  | cons v vs ih => rw [itemTexts, ih, List.map_cons]

theorem fieldTexts_eq (fs : List (String × Value)) :
    fieldTexts fs = fs.map fun f => Text.quoted f.1 ++ ": " ++ f.2.text := by
  induction fs with
  | nil => rfl
  | cons f fs ih => rw [fieldTexts, ih, List.map_cons]

/-- A text in brackets or braces. -/
theorem lexesAs_enclosed (s t : Symbol) {text : String} {us : List Kind} (h : LexesAs text us)
    (hs : s.longer? = none) (ht : t.longer? = none)
    (hstop : ∀ rest, Stops (t.text.toList ++ rest)) :
    LexesAs (s.text ++ text ++ t.text) (.symbol s :: (us ++ [.symbol t])) := by
  intro rest ks _ hrest
  have hclose := @Lexes.symbol _ _ t (by simp [Kind.EndsBefore, ht]) hrest
  have hopen := @Lexes.symbol _ _ s (by simp [Kind.EndsBefore, hs]) (h _ _ (hstop rest) hclose)
  simpa using hopen

theorem lexesAs_field {key text : String} {us : List Kind} (h : LexesAs text us) :
    LexesAs (Text.quoted key ++ ": " ++ text) (fieldKinds key us) := by
  intro rest ks hr hrest
  have hcolon := @Lexes.symbol _ _ .colon (by simp [Kind.EndsBefore, Symbol.longer?])
    (h rest ks hr hrest).space
  simpa [fieldKinds, Symbol.text] using hcolon.quoted key

/-- **The text of a value is cut into the canonical tokens of its expression.** -/
theorem lexesAs_text {v : Value} (hc : v.Canonical) (hr : v.Referable) :
    LexesAs v.text v.expr.kinds := by
  induction hc with
  | @intro v hordered _ ih =>
    cases v with
    | bool b =>
      cases b with
      | false => exact @LexesAs.ident "false" (by decide)
      | true => exact @LexesAs.ident "true" (by decide)
    | long n =>
      have hlong : LexesAs (toString n) (longKinds n) := LexesAs.long hordered
      rwa [text, expr, Expr.kinds, literalKinds]
    | string s =>
      rw [text, expr, Expr.kinds, literalKinds]
      exact .quoted s
    | entity u => exact fun _ _ _ hrest => hrest.uid (IsReferable.isPath hr.here)
    | set items =>
      have hitems : ∀ w ∈ items, LexesAs w.text w.expr.kinds := fun w hw =>
        ih w hw (hr.inside w hw)
      rw [text, itemTexts_eq, expr, itemExprs_eq, Expr.kinds, Expr.itemKinds_eq, List.map_map]
      exact lexesAs_enclosed .leftBracket .rightBracket (LexesAs.separated hitems) rfl rfl
        fun _ => stops_cons rfl
    | record fields =>
      have hfields : ∀ f ∈ fields, LexesAs (Text.quoted f.1 ++ ": " ++ f.2.text)
          (fieldKinds f.1 f.2.expr.kinds) := fun f hf =>
        lexesAs_field (ih f.2 (List.mem_map_of_mem hf) (hr.inside f.2 (List.mem_map_of_mem hf)))
      rw [text, fieldTexts_eq, expr, fieldExprs_eq, Expr.kinds, Expr.recordKinds_eq, List.map_map]
      exact lexesAs_enclosed .leftBrace .rightBrace (LexesAs.separated hfields) rfl rfl
        fun _ => stops_cons rfl

/-! ## Reading -/

theorem writable_expr {v : Value} (hc : v.Canonical) (hr : v.Referable) : v.expr.Writable := by
  induction hc with
  | @intro v hordered _ ih =>
    cases v with
    | bool b => exact .literal trivial
    | long n => exact .literal hordered
    | string s => exact .literal trivial
    | entity u => exact .literal hr.here
    | set items =>
      rw [expr, itemExprs_eq]
      refine .set fun e he => ?_
      obtain ⟨w, hw, rfl⟩ := List.mem_map.1 he
      exact ih w hw (hr.inside w hw)
    | record fields =>
      rw [expr, fieldExprs_eq]
      have hkeys : ((fields.map fun f => (f.1, f.2.expr)).map Prod.fst).Nodup := by
        rw [List.map_map]
        exact Fields.Increasing.nodup hordered
      refine .record hkeys fun g hg => ?_
      obtain ⟨f, hf, rfl⟩ := List.mem_map.1 hg
      have hw : f.2 ∈ (record fields).parts := List.mem_map_of_mem hf
      exact ih f.2 hw (hr.inside f.2 hw)

mutual

theorem room_expr_le : ∀ v : Value, v.expr.room ≤ v.depth + 2
  | .bool _ => le_rfl
  | .long _ => le_rfl
  | .string _ => le_rfl
  | .entity _ => le_rfl
  | .set items => Nat.succ_le_succ (itemsRoom_le items)
  | .record fields => Nat.succ_le_succ (fieldsRoom_le fields)

theorem itemsRoom_le : ∀ vs : List Value, Expr.itemsRoom (itemExprs vs) ≤ itemsDepth vs + 2
  | [] => Nat.zero_le _
  | v :: vs => by
    have hv := room_expr_le v
    have hvs := itemsRoom_le vs
    rw [itemExprs, Expr.itemsRoom, itemsDepth]
    omega

theorem fieldsRoom_le : ∀ fs : List (String × Value),
    Expr.fieldsRoom (fieldExprs fs) ≤ fieldsDepth fs + 2
  | [] => Nat.zero_le _
  | (_, v) :: fs => by
    have hv := room_expr_le v
    have hfs := fieldsRoom_le fs
    rw [fieldExprs, Expr.fieldsRoom, fieldsDepth]
    omega

end

theorem parse_text {v : Value} (hc : v.Canonical) (hr : v.Referable) (hd : v.depth ≤ 126) :
    Expr.parse v.text = .ok v.expr := by
  refine (lexesAs_text hc hr).lexes.run_eq_ok (Parse.bind_endOfInput_eq_ok_iff.2 ?_)
  have hroom : v.expr.room ≤ defaultNestingBound := by
    have hle := room_expr_le v
    unfold defaultNestingBound
    omega
  have hreads := (writable_expr hc hr).readsAs.mono hroom [] Parse.closesAt_nil
  rw [List.append_nil] at hreads
  exact hreads.takes rfl

/-- **Values are read back from their texts.** The text of a value that nests at most 126 sets and
records parses, and what it parses to evaluates to the value in every environment; so two such
values with one text are equal. -/
theorem text_roundtrip :
    (∀ v : Value, v.Canonical → v.Referable → v.depth ≤ 126 →
      ∃ e, Expr.parse v.text = .ok e ∧ ∀ env, evaluate env e = .ok v) ∧
    ∀ v w : Value, v.Canonical → v.Referable → v.depth ≤ 126 →
      w.Canonical → w.Referable → w.depth ≤ 126 → v.text = w.text → v = w := by
  refine ⟨fun v hc hr hd => ⟨v.expr, parse_text hc hr hd, fun env => hc.evaluate_expr⟩, ?_⟩
  intro v w hv hvr hvd hw hwr hwd htext
  have hparse := parse_text hv hvr hvd
  rw [htext, parse_text hw hwr hwd] at hparse
  have hexpr : w.expr = v.expr := Except.ok.inj hparse
  let env : Env := ⟨⟨⟨"", ""⟩, ⟨"", ""⟩, ⟨"", ""⟩, []⟩, .empty⟩
  have hvalue : evaluate env v.expr = .ok v := hv.evaluate_expr
  rw [← hexpr, hw.evaluate_expr] at hvalue
  exact (Except.ok.inj hvalue).symm

/-- The least long, a line break and an id with a quote, in a set under a key with a quote. -/
theorem text_roundtrip_nested :
    let v : Value := .record [("a\"",
      .set [.long (-0x8000000000000000), .string "\n", .entity ⟨"App::User", "\""⟩])]
    ∃ e, Expr.parse v.text = .ok e ∧ ∀ env, evaluate env e = .ok v := by
  have hname : IsReferable "App::User" := ⟨"App", ["User"], by decide, by decide, by decide⟩
  have hleaf {p : Value → Prop} {v : Value} (h : p v) (hv : v.parts = []) : v.Everywhere p :=
    .intro h (by simp [hv])
  refine text_roundtrip.1 _ (.intro (by decide) ?_) (.intro trivial ?_) (by decide)
  · refine List.forall_mem_singleton.2 (.intro (by decide) ?_)
    simp only [parts, List.forall_mem_cons]
    exact ⟨hleaf (by decide) rfl, hleaf (by decide) rfl, hleaf (by decide) rfl, by simp⟩
  · refine List.forall_mem_singleton.2 (.intro trivial ?_)
    simp only [parts, List.forall_mem_cons]
    exact ⟨hleaf trivial rfl, hleaf trivial rfl, hleaf hname rfl, by simp⟩

end Value

end AccessPolicy
