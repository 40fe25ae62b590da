import AccessPolicy.Proofs.Cursor.Machine

/-! # The procedures of a parser

One procedure for each reader. What goes on behind an operator, a separator or a step is a loop, and
a chain, a run of prefix operators and a run of steps set the level back when they end.

Loops, and procedures that may be called while they are running, are called through a table. The
procedures of `within input (n + 1)` call those of `within input n`, and those of `within input 0`
never return. So what returns has not reached the limit, and what calls itself forever returns for
no limit. -/

namespace AccessPolicy.Cursor

open Parse (Level Reference Slot joinPath)

/-- An operator in front of an operand. -/
inductive Prefix where
  | not
  | neg

/-- What is called through the table. -/
structure Calls where
  pathLoop : String → Run String
  referenceLoop : List String → Run Reference
  prefixLoop : List Prefix → Run (List Prefix)
  expr : Run Expr
  chain : Level → Run Expr
  chainLoop : Level → Expr → Run Expr
  suffixLoop : Expr → Run Expr
  itemLoop : Symbol → List Expr → Run (List Expr)
  fieldLoop : List (String × Expr) → Run (List (String × Expr))
  annotationLoop : Annotations → Run Annotations
  uidLoop : List Uid → Run (List Uid)
  conditionLoop : List Condition → Run (List Condition)
  policyLoop : List Policy → Run (List Policy)

variable (input : Input) (calls : Calls)

/-! ## Names and references -/

/-- Adds segments to a type name while a separator and a name come next. -/
def pathLoop (path : String) : Run String := do
  if ← isAt input (.symbol .colonColon) then
    match ← peekNext input with
    | some (.ident _) => do
      advance input
      let segment ← ident input .typeName
      calls.pathLoop (path ++ "::" ++ segment)
    | _ => return path
  else return path

def path : Run String := do
  let name ← ident input .typeName
  calls.pathLoop name

def uid : Run Uid := do
  match (← peek input).1 with
  | some (.ident _) => do
    let entityType ← path input calls
    expect input (.symbol .colonColon) .referenceColons
    let id ← string input .entityId
    return ⟨entityType, id⟩
  | _ => expected input .entityReference

/-- Goes on behind the segments of a name. -/
def referenceLoop (path : List String) : Run Reference := do
  if ← isAt input (.symbol .colonColon) then
    advance input
    match (← peek input).1 with
    | some (.string _) => do
      let id ← string input .entityId
      return .entity ⟨joinPath path, id⟩
    | some (.ident _) => do
      let name ← ident input .expression
      calls.referenceLoop (path ++ [name])
    | _ => expected input .nameOrEntityId
  else return .name path

/-! ## Operands -/

def Prefix.apply : Prefix → Expr → Expr
  | .not => .not
  | .neg => .neg

/-- Applies operators, the last one first. -/
def applyAll (ops : List Prefix) (e : Expr) : Expr := ops.foldl (fun e op => op.apply e) e

/-- Collects operators in front of those given. -/
def prefixLoop (ops : List Prefix) : Run (List Prefix) := do
  match (← peek input).1 with
  | some (.symbol .bang) => do
    advance input
    descend input
    calls.prefixLoop (.not :: ops)
  | some (.symbol .minus) => do
    advance input
    descend input
    calls.prefixLoop (.neg :: ops)
  | _ => return ops

def args : Run (List Expr) := do
  symbol input .leftParen
  calls.itemLoop .rightParen []

/-- Adds expressions up to a closing symbol, which may follow a comma. -/
def itemLoop (close : Symbol) (es : List Expr) : Run (List Expr) := do
  if ← isAt input (.symbol close) then do
    advance input
    return es
  else do
    let e ← calls.expr
    unless ← isAt input (.symbol close) do
      expect input (.symbol .comma) (.commaOr close)
    calls.itemLoop close (es ++ [e])

/-- Adds fields up to the closing brace, each key once. -/
def fieldLoop (fields : List (String × Expr)) : Run (List (String × Expr)) := do
  if ← isAt input (.symbol .rightBrace) then do
    advance input
    return fields
  else do
    let t ← peek input
    let key ← identOrString input .recordKey
    if key ∈ fields.map Prod.fst then failAt t.2 (.duplicateKey key)
    else do
      symbol input .colon
      let e ← calls.expr
      unless ← isAt input (.symbol .rightBrace) do
        expect input (.symbol .comma) (.commaOr .rightBrace)
      calls.fieldLoop (fields ++ [(key, e)])

def record : Run Expr := do
  symbol input .leftBrace
  let fields ← calls.fieldLoop []
  return .record fields

/-- Goes on behind the first word of a name. -/
def nameRest (word : String) : Run Expr := do
  match ← calls.referenceLoop [word] with
  | .entity u => return .literal (.entity u)
  | .name path =>
    if ← isAt input (.symbol .leftParen) then do
      let es ← args input calls
      return .call (joinPath path) es
    else if 1 < path.length then expected input .colonsAndEntityId
    else
      match path with
      | name :: _ => return ((Var.ofName? name).map Expr.var).getD (.name name)
      | [] => throw .panicked

def nameOrReference : Run Expr := do
  let word ← ident input .expression
  nameRest input calls word

def primary : Run Expr := do
  match (← peek input).1 with
  | some (.int n) =>
    if n < 0x8000000000000000 then do
      advance input
      return .literal (.long n)
    else failHere input (.integerRange (toString n))
  | some (.string _) => do
    let s ← string input .expression
    return .literal (.string s)
  | some (.symbol .leftParen) => do
    advance input
    let e ← calls.expr
    symbol input .rightParen
    return e
  | some (.symbol .leftBracket) => do
    advance input
    let es ← calls.itemLoop .rightBracket []
    return .set es
  | some (.symbol .leftBrace) => record input calls
  | some (.ident word) =>
    if word = "if" then calls.expr
    else if word = "true" ∨ word = "false" then do
      advance input
      return .literal (.bool (word = "true"))
    else if word ∈ Parse.reserved then expected input .expression
    else nameOrReference input calls
  | _ => expected input .expression

def suffixLoop (e : Expr) : Run Expr := do
  match (← peek input).1 with
  | some (.symbol .dot) => do
    advance input
    descend input
    let name ← ident input .memberName
    if ← isAt input (.symbol .leftParen) then do
      let es ← args input calls
      calls.suffixLoop (.method e name es)
    else calls.suffixLoop (.getAttr e name)
  | some (.symbol .leftBracket) => do
    advance input
    descend input
    let attr ← string input .attributeString
    symbol input .rightBracket
    calls.suffixLoop (.getAttr e attr)
  | _ => return e

def suffixes (e : Expr) : Run Expr := do
  let saved ← level
  let e ← calls.suffixLoop e
  setLevel saved
  return e

def member : Run Expr := do
  let e ← primary input calls
  suffixes calls e

/-- The operand behind operators, the last of which stands first. -/
def prefixed (ops : List Prefix) : Run Expr := do
  match ops, (← peek input).1 with
  | .neg :: ops, some (.int n) =>
    if n ≤ 0x8000000000000000 then do
      advance input
      let e ← suffixes calls (.literal (.long (-n)))
      return applyAll ops e
    else failHere input (.integerRange ("-" ++ toString n))
  | ops, _ => do
    let e ← member input calls
    return applyAll ops e

/-- A sign directly before an integer belongs to it. -/
def unary : Run Expr := do
  let saved ← level
  let ops ← calls.prefixLoop []
  let e ← prefixed input calls ops
  setLevel saved
  return e

/-! ## Expressions -/

def pattern : Run Pattern := do
  let t ← peek input
  match t.1 with
  | some (.string raw) =>
    match Pattern.compile raw with
    | .ok p => do
      advance input
      return p
    | .error fault => failAt t.2 (.badString fault)
  | _ => expected input .patternString

def relation : Run Expr := do
  let lhs ← calls.chain .add
  let t ← peek input
  match t.1.bind Parse.relationOp? with
  | some op => do
    advance input
    let rhs ← calls.chain .add
    return .binary op lhs rhs
  | none =>
    if ← isAt input (.ident "has") then do
      advance input
      let attr ← identOrString input .attributeName
      return .hasAttr lhs attr
    else if ← isAt input (.ident "like") then do
      advance input
      let p ← pattern input
      return .like lhs p
    else if ← isAt input (.ident "is") then do
      advance input
      let entityType ← path input calls
      if ← isAt input (.ident "in") then do
        advance input
        let target ← calls.chain .add
        return .isIn lhs entityType target
      else return .is lhs entityType
    else return lhs

def operand : Level → Run Expr
  | .or => calls.chain .and
  | .and => relation input calls
  | .add => calls.chain .mult
  | .mult => unary input calls

def chainLoop (l : Level) (lhs : Expr) : Run Expr := do
  match (← peek input).1.bind l.join? with
  | some join => do
    advance input
    descend input
    let rhs ← operand input calls l
    calls.chainLoop l (join lhs rhs)
  | none => return lhs

def chain (l : Level) : Run Expr := do
  let saved ← level
  let lhs ← operand input calls l
  let e ← calls.chainLoop l lhs
  setLevel saved
  return e

/-- Goes on behind the word `if`. -/
def conditional : Run Expr := do
  let test ← calls.expr
  keyword input "then"
  let thenE ← calls.expr
  keyword input "else"
  let elseE ← calls.expr
  return .cond test thenE elseE

def expr : Run Expr := do
  descend input
  let e ← if ← isAt input (.ident "if") then do
      advance input
      conditional input calls
    else calls.chain .or
  ascend
  return e

/-! ## Policies -/

def annotationLoop (notes : Annotations) : Run Annotations := do
  if ← isAt input (.symbol .at) then do
    advance input
    let key ← ident input .annotationName
    let value ← if ← isAt input (.symbol .leftParen) then do
        advance input
        let value ← string input .annotationValue
        symbol input .rightParen
        pure value
      else pure ""
    calls.annotationLoop (notes.insert key value)
  else return notes

def effect : Run Effect := do
  if ← isAt input (.ident "permit") then do
    advance input
    return .permit
  else if ← isAt input (.ident "forbid") then do
    advance input
    return .forbid
  else expected input .effect

/-- Adds references up to the closing bracket, which may follow a comma. -/
def uidLoop (us : List Uid) : Run (List Uid) := do
  if ← isAt input (.symbol .rightBracket) then do
    advance input
    return us
  else do
    let u ← uid input calls
    unless ← isAt input (.symbol .rightBracket) do
      expect input (.symbol .comma) (.commaOr .rightBracket)
    calls.uidLoop (us ++ [u])

/-- Goes on behind `in`; a list is one for the action only. -/
def scopeTarget (slot : Slot) : Run ScopeConstraint := do
  if slot = .action then
    if ← isAt input (.symbol .leftBracket) then do
      advance input
      let us ← calls.uidLoop []
      return .withinAny us
  let u ← uid input calls
  return .within u

def scopeClause (slot : Slot) : Run ScopeConstraint := do
  keyword input slot.word
  if ← isAt input (.symbol .equalEqual) then do
    advance input
    let u ← uid input calls
    return .equal u
  else if ← isAt input (.ident "in") then do
    advance input
    scopeTarget input calls slot
  else if ← isAt input (.ident "is") then do
    advance input
    let entityType ← path input calls
    if ← isAt input (.ident "in") then do
      advance input
      let u ← uid input calls
      return .isIn entityType u
    else return .is entityType
  else return .any

def scope : Run Scope := do
  let principal ← scopeClause input calls .principal
  symbol input .comma
  let action ← scopeClause input calls .action
  symbol input .comma
  let resource ← scopeClause input calls .resource
  return ⟨principal, action, resource⟩

def conditionLoop (conditions : List Condition) : Run (List Condition) := do
  match (← peek input).1.bind Parse.conditionKind? with
  | some kind => do
    advance input
    symbol input .leftBrace
    let body ← calls.expr
    symbol input .rightBrace
    calls.conditionLoop (conditions ++ [⟨kind, body⟩])
  | none => return conditions

def policy (index : Nat) : Run Policy := do
  let notes ← calls.annotationLoop {}
  let eff ← effect input
  symbol input .leftParen
  let sc ← scope input calls
  symbol input .rightParen
  let conditions ← calls.conditionLoop []
  symbol input .semicolon
  return ⟨.ofIndex index, eff, sc, conditions, notes⟩

/-- Adds policies up to the end of the text. -/
def policyLoop (ps : List Policy) : Run (List Policy) := do
  match (← peek input).1 with
  | none => return ps
  | some _ => do
    let p ← policy input calls ps.length
    calls.policyLoop (ps ++ [p])

/-! ## Calls -/

/-- No call ever returns. -/
def Calls.never : Calls :=
  ⟨fun _ => diverge, fun _ => diverge, fun _ => diverge, diverge, fun _ => diverge,
    fun _ _ => diverge, fun _ => diverge, fun _ _ => diverge, fun _ => diverge, fun _ => diverge,
    fun _ => diverge, fun _ => diverge, fun _ => diverge⟩

/-- Calls that nest no deeper than a limit. -/
def within : Nat → Calls
  | 0 => .never
  | n + 1 =>
    let calls := within n
    { pathLoop := pathLoop input calls
      referenceLoop := referenceLoop input calls
      prefixLoop := prefixLoop input calls
      expr := expr input calls
      chain := chain input calls
      chainLoop := chainLoop input calls
      suffixLoop := suffixLoop input calls
      itemLoop := itemLoop input calls
      fieldLoop := fieldLoop input calls
      annotationLoop := annotationLoop input calls
      uidLoop := uidLoop input calls
      conditionLoop := conditionLoop input calls
      policyLoop := policyLoop input calls }

end AccessPolicy.Cursor
