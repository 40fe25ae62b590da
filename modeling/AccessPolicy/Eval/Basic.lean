import AccessPolicy.Eval.Error
import AccessPolicy.Request.Basic
import AccessPolicy.Store

/-! Evaluation of expressions over a request and a store. Operators take operands of their own
kinds only. `&&`, `||`, the conditional and the type test with a target go from left to right and
leave out what the result does not depend on; everything else evaluates all operands first. -/

namespace AccessPolicy

structure Env where
  request : Request
  store : Store

abbrev Result := Except EvalError

namespace Eval

def expectBool (v : Value) : Result Bool :=
  match v.asBool? with
  | some b => .ok b
  | none => .error (.typeMismatch (.type .bool) v.type)

def expectLong (v : Value) : Result Int :=
  match v.asLong? with
  | some n => .ok n
  | none => .error (.typeMismatch (.type .long) v.type)

def expectString (v : Value) : Result String :=
  match v.asString? with
  | some s => .ok s
  | none => .error (.typeMismatch (.type .string) v.type)

def expectSet (v : Value) : Result (List Value) :=
  match v.asSet? with
  | some items => .ok items
  | none => .error (.typeMismatch (.type .set) v.type)

def expectEntity (v : Value) : Result Uid :=
  match v.asEntity? with
  | some u => .ok u
  | none => .error (.typeMismatch (.type .entity) v.type)

/-- A long, if the exact result is one. -/
def checked (op : ArithOp) (n : Int) : Result Value :=
  if InLongRange n then .ok (.long n) else .error (.overflow op)

/-- Whether `u` is one of the members or below one; every member has to be an entity. -/
def inMembers (s : Store) (u : Uid) : List Value → Result Bool
  | [] => .ok false
  | v :: vs =>
    match v with
    | .entity ancestor => do
      let others ← inMembers s u vs
      .ok (s.isAncestor ancestor u || others)
    | v => .error (.typeMismatch .entities v.type)

/-- Whether `u` is the target or below it, or so for a member of the target. -/
def within (s : Store) (u : Uid) : Value → Result Bool
  | .entity ancestor => .ok (s.isAncestor ancestor u)
  | .set members => inMembers s u members
  | v => .error (.typeMismatch .entityOrEntities v.type)

def getAttr (s : Store) (v : Value) (attr : String) : Result Value :=
  match v with
  | .record fields =>
    match Fields.find? fields attr with
    | some w => .ok w
    | none => .error (.attributeNotFound attr .record)
  | .entity u =>
    match s.get? u with
    | none => .error (.entityNotFound u)
    | some e =>
      match e.attr? attr with
      | some w => .ok w
      | none => .error (.attributeNotFound attr (.entity u))
  | v => .error (.typeMismatch .entityOrRecord v.type)

/-- Whether `getAttr` finds a value; an entity that is not loaded has no attributes. -/
def hasAttr (s : Store) (v : Value) (attr : String) : Result Bool :=
  match v with
  | .record fields => .ok (Fields.find? fields attr).isSome
  | .entity u => .ok ((s.get? u).bind fun e => e.attr? attr).isSome
  | v => .error (.typeMismatch .entityOrRecord v.type)

def binary (s : Store) (op : BinaryOp) (v w : Value) : Result Value :=
  match op with
  | .equal => .ok (.bool (decide (v = w)))
  | .notEqual => .ok (.bool (decide (v ≠ w)))
  | .order c => do
    let m ← expectLong v
    let n ← expectLong w
    .ok (.bool (c.holds m n))
  | .arith a => do
    let m ← expectLong v
    let n ← expectLong w
    checked a (a.apply m n)
  | .within => do
    let u ← expectEntity v
    let b ← within s u w
    .ok (.bool b)

/-- The result of a method on a set, given as many arguments as it takes. -/
def applyMethod (m : Method) (items : List Value) (args : List Value) : Result Value :=
  match m, args with
  | .contains, [v] => .ok (.bool (decide (v ∈ items)))
  | .containsAll, [v] => do
    let others ← expectSet v
    .ok (.bool (others.all fun w => decide (w ∈ items)))
  | .containsAny, [v] => do
    let others ← expectSet v
    .ok (.bool (others.any fun w => decide (w ∈ items)))
  | .isEmpty, [] => .ok (.bool items.isEmpty)
  | m, args => .error (.wrongArity m args.length)

def var (r : Request) : Var → Value
  | .principal => .entity r.principal
  | .action => .entity r.action
  | .resource => .entity r.resource
  | .context => .record r.context

end Eval

open Eval

mutual

def evaluate (env : Env) : Expr → Result Value
  | .literal v => .ok v
  | .var v => .ok (Eval.var env.request v)
  | .name n => .error (.undeclaredName n)
  | .not e => do
    let b ← expectBool (← evaluate env e)
    .ok (.bool (!b))
  | .neg e => do
    let n ← expectLong (← evaluate env e)
    checked .sub (-n)
  | .and lhs rhs => do
    let b ← expectBool (← evaluate env lhs)
    if b then do
      let c ← expectBool (← evaluate env rhs)
      .ok (.bool c)
    else .ok (.bool false)
  | .or lhs rhs => do
    let b ← expectBool (← evaluate env lhs)
    if b then .ok (.bool true)
    else do
      let c ← expectBool (← evaluate env rhs)
      .ok (.bool c)
  | .binary op lhs rhs => do
    let v ← evaluate env lhs
    let w ← evaluate env rhs
    binary env.store op v w
  | .cond test thenE elseE => do
    let b ← expectBool (← evaluate env test)
    if b then evaluate env thenE else evaluate env elseE
  | .getAttr e attr => do
    let v ← evaluate env e
    getAttr env.store v attr
  | .hasAttr e attr => do
    let v ← evaluate env e
    let b ← hasAttr env.store v attr
    .ok (.bool b)
  | .like e pattern => do
    let s ← expectString (← evaluate env e)
    .ok (.bool (pattern.accepts s))
  | .is e entityType => do
    let u ← expectEntity (← evaluate env e)
    .ok (.bool (decide (u.entityType = entityType)))
  | .isIn e entityType target => do
    let u ← expectEntity (← evaluate env e)
    if u.entityType = entityType then do
      let v ← evaluate env target
      let b ← within env.store u v
      .ok (.bool b)
    else .ok (.bool false)
  | .set items => do
    let vs ← evaluateItems env items
    .ok (Value.ofItems vs)
  | .record fields => do
    let fs ← evaluateFields env fields
    .ok (Value.ofFields fs)
  | .method receiver name args =>
    match Method.ofName? name with
    | none => .error (.undeclaredName name)
    | some m =>
      if args.length = m.arity then do
        let items ← expectSet (← evaluate env receiver)
        let vs ← evaluateItems env args
        applyMethod m items vs
      else .error (.wrongArity m args.length)
  | .call name _ => .error (.undeclaredName name)

/-- The values of expressions, from left to right. -/
def evaluateItems (env : Env) : List Expr → Result (List Value)
  | [] => .ok []
  | e :: es => do
    let v ← evaluate env e
    let vs ← evaluateItems env es
    .ok (v :: vs)

/-- The values of fields, from left to right. -/
def evaluateFields (env : Env) : List (String × Expr) → Result (List (String × Value))
  | [] => .ok []
  | (k, e) :: fs => do
    let v ← evaluate env e
    let vs ← evaluateFields env fs
    .ok ((k, v) :: vs)

end

/-- The value of an expression that has to be a boolean. -/
def evaluateBool (env : Env) (e : Expr) : Result Bool := do
  expectBool (← evaluate env e)

end AccessPolicy
