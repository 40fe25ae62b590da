import AccessPolicy.Expr.Basic
import AccessPolicy.Uid.Parser

/-! Reading condition expressions. `||` binds weakest, then `&&`, one relation at most, `+` and `-`,
`*`, prefix operators, and attribute and method steps. Every nested expression, every operator of
a chain, every prefix operator and every step takes one level of a bounded depth; a chain keeps
the levels that it took until it ends. -/

namespace AccessPolicy

namespace Parse

/-- Words that are no names. -/
def reserved : List String :=
  ["true", "false", "if", "then", "else", "in", "is", "like", "has"]

/-- The chains of left-associative operators, from the weakest. -/
inductive Level where
  | or
  | and
  | add
  | mult
  deriving DecidableEq

namespace Level

/-- How the operator of a chain joins its operands. -/
def join? : Level → Kind → Option (Expr → Expr → Expr)
  | .or, .symbol .orOr => some .or
  | .and, .symbol .andAnd => some .and
  | .add, .symbol .plus => some (.binary (.arith .add))
  | .add, .symbol .minus => some (.binary (.arith .sub))
  | .mult, .symbol .star => some (.binary (.arith .mul))
  | _, _ => none

/-- Orders the readers that start at one token: a weaker chain calls a stronger one. -/
def rank : Level → Nat
  | .or => 10
  | .and => 8
  | .add => 5
  | .mult => 3

end Level

def relationOp? : Kind → Option BinaryOp
  | .symbol .equalEqual => some .equal
  | .symbol .notEqual => some .notEqual
  | .symbol .less => some (.order .less)
  | .symbol .lessEqual => some (.order .lessEqual)
  | .symbol .greater => some (.order .greater)
  | .symbol .greaterEqual => some (.order .greaterEqual)
  | .ident "in" => some .within
  | _ => none

/-- The raw contents of a string as a pattern. -/
def pattern : (ts : List Kind) → Step Pattern ts.length
  | .string raw :: ts =>
    match Pattern.compile raw with
    | .ok p => .ok (.one p)
    | .error fault => fail (.string raw :: ts) (.badString fault)
  | ts => expected .patternString ts

/-- An entity reference, or the segments of a name. -/
inductive Reference where
  | entity (uid : Uid)
  | name (segments : List String)

/-- Goes on behind the given segments of a name. -/
def reference (path : List String) : (ts : List Kind) → Step Reference (ts.length + 1)
  | .symbol .colonColon :: .string raw :: ts => do
    let id ← string .entityId (.string raw :: ts)
    .ok (id.map fun s => .entity ⟨joinPath path, s⟩).wider.wider
  | .symbol .colonColon :: .ident name :: ts => do
    let r ← reference (path ++ [name]) ts
    .ok r.wider.wider
  | .symbol .colonColon :: ts => expected .nameOrEntityId ts
  | _ => .ok (.nothing (.name path))

mutual

def expr (bound depth : Nat) (ts : List Kind) : Step Expr ts.length :=
  if depth < bound then
    match ts with
    | .ident "if" :: ts => do
      let e ← conditional bound (depth + 1) ts
      .ok e.wider
    | ts => chain bound .or (depth + 1) ts
  else fail ts (.tooDeep bound)
termination_by 16 * ts.length + 12
decreasing_by all_goals simp only [List.length_cons, Level.rank] at *; omega

/-- Goes on behind the word `if`. -/
def conditional (bound depth : Nat) (ts : List Kind) : Step Expr ts.length := do
  let ⟨test, ts₁, h₁⟩ ← expr bound depth ts
  let ⟨_, ts₂, h₂⟩ ← keyword "then" ts₁
  let ⟨thenE, ts₃, h₃⟩ ← expr bound depth ts₂
  let ⟨_, ts₄, h₄⟩ ← keyword "else" ts₃
  let elseE ← expr bound depth ts₄
  .ok (((((elseE.map (.cond test thenE)).after h₄).after h₃).after h₂).after h₁)
termination_by 16 * ts.length + 13
decreasing_by all_goals omega

def chain (bound : Nat) (level : Level) (depth : Nat) (ts : List Kind) :
    Step Expr ts.length := do
  let ⟨e, rest, h⟩ ← operand bound level depth ts
  let e ← chainRest bound level depth e rest
  .ok (e.optionalAfter h)
termination_by 16 * ts.length + level.rank + 1
decreasing_by all_goals omega

/-- An operand of a chain. -/
def operand (bound : Nat) (level : Level) (depth : Nat) (ts : List Kind) : Step Expr ts.length :=
  match level with
  | .or => chain bound .and depth ts
  | .and => relation bound depth ts
  | .add => chain bound .mult depth ts
  | .mult => unary bound depth ts
termination_by 16 * ts.length + level.rank
decreasing_by all_goals simp only [Level.rank]; omega

/-- Goes on with a chain of which `lhs` was read. -/
def chainRest (bound : Nat) (level : Level) (depth : Nat) (lhs : Expr) (ts : List Kind) :
    Step Expr (ts.length + 1) :=
  match ts with
  | [] => .ok (.nothing lhs)
  | k :: ts =>
    match level.join? k with
    | none => .ok (.nothing lhs)
    | some join =>
      if depth < bound then do
        let ⟨rhs, rest, h⟩ ← operand bound level (depth + 1) ts
        let e ← chainRest bound level (depth + 1) (join lhs rhs) rest
        .ok (e.optionalAfter h).wider.wider
      else fail ts (.tooDeep bound)
termination_by 16 * ts.length
decreasing_by all_goals cases level <;> simp only [List.length_cons, Level.rank] <;> omega

def relation (bound depth : Nat) (ts : List Kind) : Step Expr ts.length := do
  match ← chain bound .add depth ts with
  | ⟨lhs, [], h⟩ => .ok ⟨lhs, [], h⟩
  | ⟨lhs, k :: ts₁, h⟩ =>
    match relationOp? k with
    | some op => do
      let rhs ← chain bound .add depth ts₁
      .ok ((rhs.map (.binary op lhs)).afterToken h)
    | none =>
      if k = .ident "has" then do
        let attr ← identOrString .attributeName ts₁
        .ok ((attr.map (.hasAttr lhs)).afterToken h)
      else if k = .ident "like" then do
        let p ← pattern ts₁
        .ok ((p.map (.like lhs)).afterToken h)
      else if k = .ident "is" then do
        let ⟨entityType, ts₂, h₂⟩ ← path ts₁
        match Taken.accept? (.ident "in") ts₂ with
        | some ⟨_, ts₃, h₃⟩ => do
          let target ← chain bound .add depth ts₃
          .ok ((((target.map (.isIn lhs entityType)).after h₃).after h₂).afterToken h)
        | none => .ok ((Taken.mk (.is lhs entityType) ts₂ h₂).afterToken h)
      else .ok ⟨lhs, k :: ts₁, h⟩
termination_by 16 * ts.length + 7
decreasing_by all_goals simp only [List.length_cons, Level.rank] at *; omega

/-- A sign directly before an integer belongs to it. -/
def unary (bound depth : Nat) (ts : List Kind) : Step Expr ts.length :=
  match ts with
  | .symbol .bang :: ts =>
    if depth < bound then do
      let e ← unary bound (depth + 1) ts
      .ok (e.map .not).wider
    else fail ts (.tooDeep bound)
  | .symbol .minus :: ts =>
    if depth < bound then
      match ts with
      | .int n :: ts =>
        if n ≤ 0x8000000000000000 then do
          let e ← steps bound (depth + 1) (.literal (.long (-n))) ts
          .ok e.wider
        else fail (.int n :: ts) (.integerRange ("-" ++ toString n))
      | ts => do
        let e ← unary bound (depth + 1) ts
        .ok (e.map .neg).wider
    else fail ts (.tooDeep bound)
  | ts => do
    let ⟨e, rest, h⟩ ← primary bound depth ts
    let e ← steps bound depth e rest
    .ok (e.optionalAfter h)
termination_by 16 * ts.length + 2
decreasing_by all_goals (try simp only [List.length_cons] at *); omega

/-- Goes on with the attribute and method steps behind `e`. -/
def steps (bound depth : Nat) (e : Expr) (ts : List Kind) : Step Expr (ts.length + 1) :=
  match ts with
  | .symbol .dot :: ts =>
    if depth < bound then do
      let ⟨name, ts₁, h₁⟩ ← ident .memberName ts
      match Taken.accept? (.symbol .leftParen) ts₁ with
      | some ⟨_, ts₂, h₂⟩ => do
        let ⟨args, ts₃, h₃⟩ ← items bound (depth + 1) .rightParen ts₂
        let e ← steps bound (depth + 1) (.method e name args) ts₃
        .ok (((e.optionalAfter h₃).after h₂).after h₁).wider.wider
      | none => do
        let e ← steps bound (depth + 1) (.getAttr e name) ts₁
        .ok (e.optionalAfter h₁).wider.wider
    else fail ts (.tooDeep bound)
  | .symbol .leftBracket :: ts =>
    if depth < bound then do
      let ⟨attr, ts₁, h₁⟩ ← string .attributeString ts
      let ⟨_, ts₂, h₂⟩ ← symbol .rightBracket ts₁
      let e ← steps bound (depth + 1) (.getAttr e attr) ts₂
      .ok ((e.optionalAfter h₂).after h₁).wider.wider
    else fail ts (.tooDeep bound)
  | _ => .ok (.nothing e)
termination_by 16 * ts.length
decreasing_by all_goals (try simp only [List.length_cons] at *); omega

/-- Expressions between commas up to a closing symbol, which may follow a comma. -/
def items (bound depth : Nat) (close : Symbol) (ts : List Kind) : Step (List Expr) ts.length :=
  match Taken.accept? (.symbol close) ts with
  | some r => .ok (r.map fun _ => [])
  | none => do
    let ⟨e, ts₁, h₁⟩ ← expr bound depth ts
    match Taken.accept? (.symbol close) ts₁ with
    | some r => .ok ((r.map fun _ => [e]).after h₁)
    | none => do
      let ⟨_, ts₂, h₂⟩ ← expect (.symbol .comma) (.commaOr close) ts₁
      let es ← items bound depth close ts₂
      .ok (((es.map (e :: ·)).after h₂).after h₁)
termination_by 16 * ts.length + 13
decreasing_by all_goals omega

/-- Fields between commas up to the closing brace; none may have a key of `seen`. -/
def fields (bound depth : Nat) (seen : List String) (ts : List Kind) :
    Step (List (String × Expr)) ts.length :=
  match Taken.accept? (.symbol .rightBrace) ts with
  | some r => .ok (r.map fun _ => [])
  | none => do
    let ⟨key, ts₁, h₁⟩ ← identOrString .recordKey ts
    if key ∈ seen then fail ts (.duplicateKey key)
    else do
      let ⟨_, ts₂, h₂⟩ ← symbol .colon ts₁
      let ⟨e, ts₃, h₃⟩ ← expr bound depth ts₂
      match Taken.accept? (.symbol .rightBrace) ts₃ with
      | some r => .ok ((((r.map fun _ => [(key, e)]).after h₃).after h₂).after h₁)
      | none => do
        let ⟨_, ts₄, h₄⟩ ← expect (.symbol .comma) (.commaOr .rightBrace) ts₃
        let fs ← fields bound depth (key :: seen) ts₄
        .ok (((((fs.map ((key, e) :: ·)).after h₄).after h₃).after h₂).after h₁)
termination_by 16 * ts.length
decreasing_by all_goals omega

def primary (bound depth : Nat) (ts : List Kind) : Step Expr ts.length :=
  match ts with
  | .int n :: ts =>
    if n < 0x8000000000000000 then .ok (.one (.literal (.long n)))
    else fail (.int n :: ts) (.integerRange (toString n))
  | .string raw :: ts => do
    let s ← string .expression (.string raw :: ts)
    .ok (s.map fun s => .literal (.string s))
  | .symbol .leftParen :: ts => do
    let ⟨e, ts₁, h⟩ ← expr bound depth ts
    let r ← symbol .rightParen ts₁
    .ok ((r.map fun _ => e).after h).wider
  | .symbol .leftBracket :: ts => do
    let es ← items bound depth .rightBracket ts
    .ok (es.map .set).wider
  | .symbol .leftBrace :: ts => do
    let fs ← fields bound depth [] ts
    .ok (fs.map .record).wider
  | .ident "if" :: ts =>
    if depth < bound then do
      let e ← conditional bound (depth + 1) ts
      .ok e.wider
    else fail (.ident "if" :: ts) (.tooDeep bound)
  | .ident "true" :: _ => .ok (.one (.literal (.bool true)))
  | .ident "false" :: _ => .ok (.one (.literal (.bool false)))
  | .ident word :: ts =>
    if word ∈ reserved then expected .expression (.ident word :: ts)
    else do
      let ⟨r, ts₁, h₁⟩ ← reference [word] ts
      match r with
      | .entity u => .ok ⟨.literal (.entity u), ts₁, h₁⟩
      | .name path =>
        match Taken.accept? (.symbol .leftParen) ts₁ with
        | some ⟨_, ts₂, h₂⟩ => do
          let args ← items bound depth .rightParen ts₂
          .ok (((args.map (.call (joinPath path))).after h₂).after h₁)
        | none =>
          match path with
          | [name] => .ok ⟨((Var.ofName? name).map Expr.var).getD (.name name), ts₁, h₁⟩
          | _ => expected .colonsAndEntityId ts₁
  | ts => expected .expression ts
termination_by 16 * ts.length + 1
decreasing_by all_goals (try simp only [List.length_cons] at *); omega

end

end Parse

/-- The default bound on the nesting of expressions. -/
def defaultNestingBound : Nat := 128

/-- Reads a text that is one expression. -/
def Expr.parse (text : String) : Except ParseError Expr :=
  Parse.run (fun ts => do
    let ⟨e, rest, _⟩ ← Parse.expr defaultNestingBound 0 ts
    Parse.endOfInput rest
    .ok e) text

end AccessPolicy
