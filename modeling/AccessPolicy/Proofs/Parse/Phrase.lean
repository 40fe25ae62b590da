import AccessPolicy.Proofs.Parse.Grammar

/-! # Phrases of condition expressions

The grammar by itself, with no reader, depth or bound:

    expr     := 'if' expr 'then' expr 'else' expr | or
    or       := and { '||' and }
    and      := relation { '&&' relation }
    relation := add [ relop add | 'has' (IDENT | STR) | 'like' STR | 'is' PATH [ 'in' add ] ]
    add      := mult { ('+' | '-') mult }
    mult     := unary { '*' unary }
    unary    := '!' unary | '-' unary | '-' INT steps | member
    member   := primary steps
    steps    := { '.' IDENT [ '(' items ')' ] | '[' STR ']' }
    primary  := INT | STR | 'true' | 'false' | NAME | PATH '::' STR | PATH '(' items ')'
              | '(' expr ')' | '[' items ']' | '{' fields '}' | 'if' ...
    items    := [ expr { ',' expr } [ ',' ] ]
    fields   := [ key ':' expr { ',' key ':' expr } [ ',' ] ]

`Derives c ts m rest` says that the tokens `ts`, before the tokens `rest`, are a phrase of category
`c` that means `m`. Repetitions and optional parts are greedy: they end only before a token that
cannot go on with them, and only there the grammar looks at `rest`. So the branch behind `else` goes
as far to the right as it can. The word `if` at the start of an expression begins its first form;
an operand can only be conditional behind an operator. -/

namespace AccessPolicy

namespace Parse

/-- The symbols around lists of expressions. -/
inductive Enclosure where
  | parens
  | brackets

def Enclosure.close : Enclosure → Symbol
  | .parens => .rightParen
  | .brackets => .rightBracket

theorem Enclosure.close_ne_comma (enc : Enclosure) : enc.close ≠ .comma := by
  cases enc <;> decide

inductive Category where
  | expr
  | chain (l : Level)
  /-- The operators of a chain, each with its right operand. -/
  | operators (l : Level)
  | relation
  | unary
  | member
  | steps
  /-- Expressions with the symbol that closes them. -/
  | items (enc : Enclosure)
  /-- Fields with the brace that closes them. -/
  | fields
  | primary

/-- The category of the operands of a chain. -/
def Level.operand : Level → Category
  | .or => .chain .and
  | .and => .relation
  | .add => .chain .mult
  | .mult => .unary

/-- What a phrase means. A suffix stands behind an expression and makes another one of it. -/
inductive Meaning where
  | expr (e : Expr)
  | suffixes (fs : List (Expr → Expr))
  | items (es : List Expr)
  | fields (fs : List (String × Expr))

/-- The expression with its suffixes, the first of them innermost. -/
def applyAll (fs : List (Expr → Expr)) (e : Expr) : Expr := fs.foldl (fun e f => f e) e

@[simp] theorem applyAll_nil (e : Expr) : applyAll [] e = e := rfl

@[simp] theorem applyAll_cons (f : Expr → Expr) (fs : List (Expr → Expr)) (e : Expr) :
    applyAll (f :: fs) e = applyAll fs (f e) := rfl

inductive Derives : Category → List Kind → Meaning → List Kind → Prop where
  | expr_cond {ts us vs rest test thenE elseE}
      (htest : Derives .expr ts (.expr test)
        (.ident "then" :: (us ++ .ident "else" :: (vs ++ rest))))
      (hthen : Derives .expr us (.expr thenE) (.ident "else" :: (vs ++ rest)))
      (helse : Derives .expr vs (.expr elseE) rest) :
    Derives .expr (.ident "if" :: (ts ++ .ident "then" :: (us ++ .ident "else" :: vs)))
      (.expr (.cond test thenE elseE)) rest
  | expr_chain {ts rest e} (hif : ts.head? ≠ some (.ident "if"))
      (h : Derives (.chain .or) ts (.expr e) rest) : Derives .expr ts (.expr e) rest
  | chain {l ts us rest lhs fs} (hlhs : Derives l.operand ts (.expr lhs) (us ++ rest))
      (hops : Derives (.operators l) us (.suffixes fs) rest) :
    Derives (.chain l) (ts ++ us) (.expr (applyAll fs lhs)) rest
  | operators_nil {l rest} (hstop : l.StopsAt rest) :
    Derives (.operators l) [] (.suffixes []) rest
  | operators_cons {l : Level} {k join ts us rest rhs fs} (hk : l.join? k = some join)
      (hrhs : Derives l.operand ts (.expr rhs) (us ++ rest))
      (hops : Derives (.operators l) us (.suffixes fs) rest) :
    Derives (.operators l) (k :: (ts ++ us)) (.suffixes ((join · rhs) :: fs)) rest
  | relation {ts rest e} (h : Derives (.chain .add) ts (.expr e) rest)
      (hstop : RelationStopsAt rest) : Derives .relation ts (.expr e) rest
  | relation_binary {ts us rest lhs rhs k op}
      (hlhs : Derives (.chain .add) ts (.expr lhs) (k :: (us ++ rest)))
      (hk : relationOp? k = some op) (hrhs : Derives (.chain .add) us (.expr rhs) rest) :
    Derives .relation (ts ++ k :: us) (.expr (.binary op lhs rhs)) rest
  | relation_has {ts rest lhs k attr}
      (hlhs : Derives (.chain .add) ts (.expr lhs) (.ident "has" :: k :: rest))
      (hk : NameToken k attr) :
    Derives .relation (ts ++ [.ident "has", k]) (.expr (.hasAttr lhs attr)) rest
  | relation_like {ts rest lhs raw p}
      (hlhs : Derives (.chain .add) ts (.expr lhs) (.ident "like" :: .string raw :: rest))
      (hp : Pattern.compile raw = .ok p) :
    Derives .relation (ts ++ [.ident "like", .string raw]) (.expr (.like lhs p)) rest
  | relation_is {ts rest lhs name names}
      (hlhs : Derives (.chain .add) ts (.expr lhs)
        (.ident "is" :: .ident name :: (segmentKinds names ++ rest)))
      (hend : ¬ NameGoesOn rest) (hin : rest.head? ≠ some (.ident "in")) :
    Derives .relation (ts ++ .ident "is" :: .ident name :: segmentKinds names)
      (.expr (.is lhs (joinPath (name :: names)))) rest
  | relation_isIn {ts us rest lhs name names target}
      (hlhs : Derives (.chain .add) ts (.expr lhs)
        (.ident "is" :: .ident name :: (segmentKinds names ++ .ident "in" :: (us ++ rest))))
      (htarget : Derives (.chain .add) us (.expr target) rest) :
    Derives .relation
      (ts ++ .ident "is" :: .ident name :: (segmentKinds names ++ .ident "in" :: us))
      (.expr (.isIn lhs (joinPath (name :: names)) target)) rest
  | unary_not {ts rest e} (h : Derives .unary ts (.expr e) rest) :
    Derives .unary (.symbol .bang :: ts) (.expr (.not e)) rest
  | unary_neg {ts rest e} (hint : ∀ i, ts.head? ≠ some (.int i))
      (h : Derives .unary ts (.expr e) rest) :
    Derives .unary (.symbol .minus :: ts) (.expr (.neg e)) rest
  /-- A sign directly before an integer belongs to it. -/
  | unary_long {ts rest fs} {i : Nat} (hi : i ≤ 0x8000000000000000)
      (hsteps : Derives .steps ts (.suffixes fs) rest) :
    Derives .unary (.symbol .minus :: .int i :: ts)
      (.expr (applyAll fs (.literal (.long (-i))))) rest
  | unary_member {ts rest e} (h : Derives .member ts (.expr e) rest) :
    Derives .unary ts (.expr e) rest
  | member {ts us rest e fs} (h : Derives .primary ts (.expr e) (us ++ rest))
      (hsteps : Derives .steps us (.suffixes fs) rest) :
    Derives .member (ts ++ us) (.expr (applyAll fs e)) rest
  | steps_nil {rest} (hstop : StepsStopAt rest) : Derives .steps [] (.suffixes []) rest
  | steps_method {name ts us rest args fs}
      (hargs : Derives (.items .parens) ts (.items args) (us ++ rest))
      (hsteps : Derives .steps us (.suffixes fs) rest) :
    Derives .steps (.symbol .dot :: .ident name :: .symbol .leftParen :: (ts ++ us))
      (.suffixes ((.method · name args) :: fs)) rest
  | steps_attr {name ts rest fs} (hparen : (ts ++ rest).head? ≠ some (.symbol .leftParen))
      (hsteps : Derives .steps ts (.suffixes fs) rest) :
    Derives .steps (.symbol .dot :: .ident name :: ts)
      (.suffixes ((.getAttr · name) :: fs)) rest
  | steps_index {raw attr ts rest fs} (hd : Decodes raw attr)
      (hsteps : Derives .steps ts (.suffixes fs) rest) :
    Derives .steps (.symbol .leftBracket :: .string raw :: .symbol .rightBracket :: ts)
      (.suffixes ((.getAttr · attr) :: fs)) rest
  | items_nil {enc rest} : Derives (.items enc) [.symbol enc.close] (.items []) rest
  | items_last {enc ts rest e} (h : Derives .expr ts (.expr e) (.symbol enc.close :: rest)) :
    Derives (.items enc) (ts ++ [.symbol enc.close]) (.items [e]) rest
  | items_cons {enc ts us rest e es}
      (h : Derives .expr ts (.expr e) (.symbol .comma :: (us ++ rest)))
      (hes : Derives (.items enc) us (.items es) rest) :
    Derives (.items enc) (ts ++ .symbol .comma :: us) (.items (e :: es)) rest
  | fields_nil {rest} : Derives .fields [.symbol .rightBrace] (.fields []) rest
  | fields_last {k key ts rest e} (hk : NameToken k key)
      (h : Derives .expr ts (.expr e) (.symbol .rightBrace :: rest)) :
    Derives .fields (k :: .symbol .colon :: (ts ++ [.symbol .rightBrace]))
      (.fields [(key, e)]) rest
  | fields_cons {k key ts us rest e fs} (hk : NameToken k key)
      (h : Derives .expr ts (.expr e) (.symbol .comma :: (us ++ rest)))
      (hfs : Derives .fields us (.fields fs) rest) :
    Derives .fields (k :: .symbol .colon :: (ts ++ .symbol .comma :: us))
      (.fields ((key, e) :: fs)) rest
  | primary_int {rest} {i : Nat} (hi : i < 0x8000000000000000) :
    Derives .primary [.int i] (.expr (.literal (.long i))) rest
  | primary_string {raw s rest} (hd : Decodes raw s) :
    Derives .primary [.string raw] (.expr (.literal (.string s))) rest
  | primary_true {rest} :
    Derives .primary [.ident "true"] (.expr (.literal (.bool true))) rest
  | primary_false {rest} :
    Derives .primary [.ident "false"] (.expr (.literal (.bool false))) rest
  | primary_name {word rest} (hword : word ∉ reserved)
      (hcolons : rest.head? ≠ some (.symbol .colonColon))
      (hparen : rest.head? ≠ some (.symbol .leftParen)) :
    Derives .primary [.ident word] (.expr (bareName word)) rest
  | primary_entity {word names raw id rest} (hword : word ∉ reserved) (hd : Decodes raw id) :
    Derives .primary (.ident word :: (segmentKinds names ++ [.symbol .colonColon, .string raw]))
      (.expr (.literal (.entity ⟨joinPath (word :: names), id⟩))) rest
  | primary_call {word names ts rest args} (hword : word ∉ reserved)
      (hargs : Derives (.items .parens) ts (.items args) rest) :
    Derives .primary (.ident word :: (segmentKinds names ++ .symbol .leftParen :: ts))
      (.expr (.call (joinPath (word :: names)) args)) rest
  | primary_paren {ts rest e} (h : Derives .expr ts (.expr e) (.symbol .rightParen :: rest)) :
    Derives .primary (.symbol .leftParen :: (ts ++ [.symbol .rightParen])) (.expr e) rest
  | primary_set {ts rest es} (h : Derives (.items .brackets) ts (.items es) rest) :
    Derives .primary (.symbol .leftBracket :: ts) (.expr (.set es)) rest
  | primary_record {ts rest fs} (h : Derives .fields ts (.fields fs) rest)
      (hkeys : (fs.map Prod.fst).Nodup) :
    Derives .primary (.symbol .leftBrace :: ts) (.expr (.record fs)) rest
  | primary_cond {ts rest e} (h : Derives .expr (.ident "if" :: ts) (.expr e) rest) :
    Derives .primary (.ident "if" :: ts) (.expr e) rest

/-! ## First tokens -/

/-- A primary expression can start with the token. -/
def StartsPrimary : Kind → Prop
  | .symbol s => s = .leftParen ∨ s = .leftBracket ∨ s = .leftBrace
  | _ => True

/-- An operand can start with the token. -/
def StartsOperand (k : Kind) : Prop :=
  StartsPrimary k ∨ k = .symbol .bang ∨ k = .symbol .minus

/-- The tokens start as a phrase of the category, if it is one of expressions. -/
def Category.StartsWith (ts : List Kind) : Category → Prop
  | .primary | .member => ∃ k us, ts = k :: us ∧ StartsPrimary k
  | .expr | .chain _ | .relation | .unary => ∃ k us, ts = k :: us ∧ StartsOperand k
  | _ => True

theorem Category.StartsWith.operand {ts : List Kind} {l : Level}
    (h : l.operand.StartsWith ts) : ∃ k us, ts = k :: us ∧ StartsOperand k := by
  cases l <;> exact h

theorem exists_cons_append {p : Kind → Prop} {ts : List Kind} (us : List Kind)
    (h : ∃ k vs, ts = k :: vs ∧ p k) : ∃ k vs, ts ++ us = k :: vs ∧ p k := by
  obtain ⟨k, vs, rfl, hk⟩ := h
  exact ⟨k, vs ++ us, rfl, hk⟩

theorem Derives.startsWith {c : Category} {ts rest : List Kind} {m : Meaning}
    (h : Derives c ts m rest) : c.StartsWith ts := by
  -- What starts with an operand starts as it does; all other forms show their first token.
  induction h with
  | chain _ _ ih _ => exact exists_cons_append _ ih.operand
  | relation_binary _ _ _ ih _ => exact exists_cons_append _ ih
  | relation_has _ _ ih | relation_like _ _ ih | relation_is _ _ _ ih =>
    exact exists_cons_append _ ih
  | relation_isIn _ _ ih _ => exact exists_cons_append _ ih
  | member _ _ ih _ => exact exists_cons_append _ ih
  | expr_chain _ _ ih | relation _ _ ih => exact ih
  | unary_member _ ih =>
    obtain ⟨k, us, hts, hk⟩ := ih
    exact ⟨k, us, hts, .inl hk⟩
  | expr_cond => exact ⟨_, _, rfl, .inl trivial⟩
  | unary_not => exact ⟨_, _, rfl, .inr (.inl rfl)⟩
  | unary_neg | unary_long => exact ⟨_, _, rfl, .inr (.inr rfl)⟩
  | primary_paren | primary_set | primary_record => exact ⟨_, _, rfl, by simp [StartsPrimary]⟩
  | primary_int | primary_string | primary_true | primary_false | primary_name | primary_entity
  | primary_call | primary_cond => exact ⟨_, _, rfl, trivial⟩
  | _ => trivial

theorem StartsPrimary.ne_bang {k : Kind} (h : StartsPrimary k) : k ≠ .symbol .bang := by
  rintro rfl
  simp [StartsPrimary] at h

theorem StartsPrimary.ne_minus {k : Kind} (h : StartsPrimary k) : k ≠ .symbol .minus := by
  rintro rfl
  simp [StartsPrimary] at h

theorem StartsOperand.ne_close {k : Kind} (h : StartsOperand k) (enc : Enclosure) :
    k ≠ .symbol enc.close := by
  rintro rfl
  cases enc <;> simp [StartsOperand, StartsPrimary, Enclosure.close] at h

end Parse

end AccessPolicy
