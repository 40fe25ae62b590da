import AccessPolicy.Proofs.Parse.Names

/-! # The grammar of condition expressions

`Reads` derives what each reader takes from a list of tokens, one rule for each form, with the
levels of nesting that there is room for. A rule that takes a level derives its parts with one level
less. Repetitions are greedy: they end only before a token that cannot go on. -/

namespace AccessPolicy

namespace Parse

/-- The readers of expressions, and of the lists and fields inside them. -/
inductive Reader where
  | expr
  /-- Behind the word `if`. -/
  | conditional
  | chain (l : Level)
  /-- A chain of which an expression was read. -/
  | chainRest (l : Level) (lhs : Expr)
  | relation
  | unary
  /-- The attribute and method steps behind an expression. -/
  | steps (e : Expr)
  | items (close : Symbol)
  /-- Fields behind those with the given keys. -/
  | fields (seen : List String)
  | primary

/-- What a reader hands back. -/
inductive Tree where
  | expr (e : Expr)
  | items (es : List Expr)
  | fields (fs : List (String × Expr))

/-- The reader of the operands of a chain. -/
def Level.inner : Level → Reader
  | .or => .chain .and
  | .and => .relation
  | .add => .chain .mult
  | .mult => .unary

/-- No operator of the chain comes next. -/
def Level.StopsAt (l : Level) (ts : List Kind) : Prop := ∀ k ∈ ts.head?, l.join? k = none

/-- The token starts the right side of a relation. -/
def Relational (k : Kind) : Prop :=
  relationOp? k ≠ none ∨ k = .ident "has" ∨ k = .ident "like" ∨ k = .ident "is"

def RelationStopsAt (ts : List Kind) : Prop := ∀ k ∈ ts.head?, ¬ Relational k

def StepsStopAt (ts : List Kind) : Prop :=
  ts.head? ≠ some (.symbol .dot) ∧ ts.head? ≠ some (.symbol .leftBracket)

/-- The expression that a bare name stands for. -/
def bareName (name : String) : Expr := ((Var.ofName? name).map Expr.var).getD (.name name)

/-- With room for `n` levels, a reader takes a tree from the first tokens and leaves the last. -/
inductive Reads : Reader → Nat → List Kind → Tree → List Kind → Prop where
  | expr_if {n ts e rest} (h : Reads .conditional n ts (.expr e) rest) :
    Reads .expr (n + 1) (.ident "if" :: ts) (.expr e) rest
  | expr_chain {n ts e rest} (hif : ts.head? ≠ some (.ident "if"))
      (h : Reads (.chain .or) n ts (.expr e) rest) :
    Reads .expr (n + 1) ts (.expr e) rest
  | conditional {n ts ts₁ ts₂ rest test thenE elseE}
      (htest : Reads .expr n ts (.expr test) (.ident "then" :: ts₁))
      (hthen : Reads .expr n ts₁ (.expr thenE) (.ident "else" :: ts₂))
      (helse : Reads .expr n ts₂ (.expr elseE) rest) :
    Reads .conditional n ts (.expr (.cond test thenE elseE)) rest
  | chain {l n ts ts₁ rest lhs e} (hlhs : Reads l.inner n ts (.expr lhs) ts₁)
      (hrest : Reads (.chainRest l lhs) n ts₁ (.expr e) rest) :
    Reads (.chain l) n ts (.expr e) rest
  | chainRest_stop {l n lhs rest} (hstop : l.StopsAt rest) :
    Reads (.chainRest l lhs) n rest (.expr lhs) rest
  | chainRest_step {l : Level} {n lhs k join ts ts₁ rest rhs e} (hk : l.join? k = some join)
      (hrhs : Reads l.inner n ts (.expr rhs) ts₁)
      (hrest : Reads (.chainRest l (join lhs rhs)) n ts₁ (.expr e) rest) :
    Reads (.chainRest l lhs) (n + 1) (k :: ts) (.expr e) rest
  | relation {n ts rest e} (h : Reads (.chain .add) n ts (.expr e) rest)
      (hstop : RelationStopsAt rest) :
    Reads .relation n ts (.expr e) rest
  | relation_binary {n ts ts₁ rest lhs rhs k op}
      (hlhs : Reads (.chain .add) n ts (.expr lhs) (k :: ts₁)) (hk : relationOp? k = some op)
      (hrhs : Reads (.chain .add) n ts₁ (.expr rhs) rest) :
    Reads .relation n ts (.expr (.binary op lhs rhs)) rest
  | relation_has {n ts rest lhs k attr}
      (hlhs : Reads (.chain .add) n ts (.expr lhs) (.ident "has" :: k :: rest))
      (hk : NameToken k attr) :
    Reads .relation n ts (.expr (.hasAttr lhs attr)) rest
  | relation_like {n ts rest lhs raw p}
      (hlhs : Reads (.chain .add) n ts (.expr lhs) (.ident "like" :: .string raw :: rest))
      (hp : Pattern.compile raw = .ok p) :
    Reads .relation n ts (.expr (.like lhs p)) rest
  | relation_is {n ts rest lhs name names}
      (hlhs : Reads (.chain .add) n ts (.expr lhs)
        (.ident "is" :: .ident name :: (segmentKinds names ++ rest)))
      (hend : ¬ NameGoesOn rest) (hin : rest.head? ≠ some (.ident "in")) :
    Reads .relation n ts (.expr (.is lhs (joinPath (name :: names)))) rest
  | relation_isIn {n ts ts₁ rest lhs name names target}
      (hlhs : Reads (.chain .add) n ts (.expr lhs)
        (.ident "is" :: .ident name :: (segmentKinds names ++ .ident "in" :: ts₁)))
      (htarget : Reads (.chain .add) n ts₁ (.expr target) rest) :
    Reads .relation n ts (.expr (.isIn lhs (joinPath (name :: names)) target)) rest
  | unary_not {n ts rest e} (h : Reads .unary n ts (.expr e) rest) :
    Reads .unary (n + 1) (.symbol .bang :: ts) (.expr (.not e)) rest
  | unary_neg {n ts rest e} (hint : ∀ i ts', ts ≠ .int i :: ts')
      (h : Reads .unary n ts (.expr e) rest) :
    Reads .unary (n + 1) (.symbol .minus :: ts) (.expr (.neg e)) rest
  /-- A sign directly before an integer belongs to it. -/
  | unary_long {n ts rest e} {i : Nat} (hi : i ≤ 0x8000000000000000)
      (h : Reads (.steps (.literal (.long (-i)))) n ts (.expr e) rest) :
    Reads .unary (n + 1) (.symbol .minus :: .int i :: ts) (.expr e) rest
  | unary {n ts ts₁ rest e e'} (hbang : ts.head? ≠ some (.symbol .bang))
      (hminus : ts.head? ≠ some (.symbol .minus)) (h : Reads .primary n ts (.expr e) ts₁)
      (hsteps : Reads (.steps e) n ts₁ (.expr e') rest) :
    Reads .unary n ts (.expr e') rest
  | steps_stop {n e rest} (hstop : StepsStopAt rest) :
    Reads (.steps e) n rest (.expr e) rest
  | steps_method {n e name ts ts₁ rest args e'}
      (hargs : Reads (.items .rightParen) n ts (.items args) ts₁)
      (h : Reads (.steps (.method e name args)) n ts₁ (.expr e') rest) :
    Reads (.steps e) (n + 1) (.symbol .dot :: .ident name :: .symbol .leftParen :: ts)
      (.expr e') rest
  | steps_attr {n e name ts rest e'} (hparen : ts.head? ≠ some (.symbol .leftParen))
      (h : Reads (.steps (.getAttr e name)) n ts (.expr e') rest) :
    Reads (.steps e) (n + 1) (.symbol .dot :: .ident name :: ts) (.expr e') rest
  | steps_index {n e raw attr ts rest e'} (hd : Decodes raw attr)
      (h : Reads (.steps (.getAttr e attr)) n ts (.expr e') rest) :
    Reads (.steps e) (n + 1)
      (.symbol .leftBracket :: .string raw :: .symbol .rightBracket :: ts) (.expr e') rest
  | items_nil {close n rest} : Reads (.items close) n (.symbol close :: rest) (.items []) rest
  | items_last {close n ts rest e} (hhead : ts.head? ≠ some (.symbol close))
      (h : Reads .expr n ts (.expr e) (.symbol close :: rest)) :
    Reads (.items close) n ts (.items [e]) rest
  | items_cons {close n ts ts₁ rest e es} (hhead : ts.head? ≠ some (.symbol close))
      (hclose : close ≠ .comma) (h : Reads .expr n ts (.expr e) (.symbol .comma :: ts₁))
      (hes : Reads (.items close) n ts₁ (.items es) rest) :
    Reads (.items close) n ts (.items (e :: es)) rest
  | fields_nil {seen n rest} :
    Reads (.fields seen) n (.symbol .rightBrace :: rest) (.fields []) rest
  | fields_last {seen n k key ts rest e} (hk : NameToken k key) (hseen : key ∉ seen)
      (h : Reads .expr n ts (.expr e) (.symbol .rightBrace :: rest)) :
    Reads (.fields seen) n (k :: .symbol .colon :: ts) (.fields [(key, e)]) rest
  | fields_cons {seen n k key ts ts₁ rest e fs} (hk : NameToken k key) (hseen : key ∉ seen)
      (h : Reads .expr n ts (.expr e) (.symbol .comma :: ts₁))
      (hfs : Reads (.fields (key :: seen)) n ts₁ (.fields fs) rest) :
    Reads (.fields seen) n (k :: .symbol .colon :: ts) (.fields ((key, e) :: fs)) rest
  | primary_int {n rest} {i : Nat} (hi : i < 0x8000000000000000) :
    Reads .primary n (.int i :: rest) (.expr (.literal (.long i))) rest
  | primary_string {n raw s rest} (hd : Decodes raw s) :
    Reads .primary n (.string raw :: rest) (.expr (.literal (.string s))) rest
  | primary_paren {n ts rest e} (h : Reads .expr n ts (.expr e) (.symbol .rightParen :: rest)) :
    Reads .primary n (.symbol .leftParen :: ts) (.expr e) rest
  | primary_set {n ts rest es} (h : Reads (.items .rightBracket) n ts (.items es) rest) :
    Reads .primary n (.symbol .leftBracket :: ts) (.expr (.set es)) rest
  | primary_record {n ts rest fs} (h : Reads (.fields []) n ts (.fields fs) rest) :
    Reads .primary n (.symbol .leftBrace :: ts) (.expr (.record fs)) rest
  | primary_if {n ts rest e} (h : Reads .conditional n ts (.expr e) rest) :
    Reads .primary (n + 1) (.ident "if" :: ts) (.expr e) rest
  | primary_true {n rest} :
    Reads .primary n (.ident "true" :: rest) (.expr (.literal (.bool true))) rest
  | primary_false {n rest} :
    Reads .primary n (.ident "false" :: rest) (.expr (.literal (.bool false))) rest
  | primary_entity {n word names raw id rest} (hword : word ∉ reserved) (hd : Decodes raw id) :
    Reads .primary n
      (.ident word :: (segmentKinds names ++ .symbol .colonColon :: .string raw :: rest))
      (.expr (.literal (.entity ⟨joinPath (word :: names), id⟩))) rest
  | primary_call {n word names ts rest args} (hword : word ∉ reserved)
      (hargs : Reads (.items .rightParen) n ts (.items args) rest) :
    Reads .primary n (.ident word :: (segmentKinds names ++ .symbol .leftParen :: ts))
      (.expr (.call (joinPath (word :: names)) args)) rest
  | primary_name {n word rest} (hword : word ∉ reserved)
      (hcolons : rest.head? ≠ some (.symbol .colonColon))
      (hparen : rest.head? ≠ some (.symbol .leftParen)) :
    Reads .primary n (.ident word :: rest) (.expr (bareName word)) rest

end Parse

end AccessPolicy
