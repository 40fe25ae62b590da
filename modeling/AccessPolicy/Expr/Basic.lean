import AccessPolicy.Pattern
import AccessPolicy.Value.Order

/-! Condition expressions. -/

namespace AccessPolicy

/-- A part of the request that an expression can name. -/
inductive Var where
  | principal
  | action
  | resource
  | context
  deriving DecidableEq

def Var.name : Var → String
  | .principal => "principal"
  | .action => "action"
  | .resource => "resource"
  | .context => "context"

def Var.ofName? : String → Option Var
  | "principal" => some .principal
  | "action" => some .action
  | "resource" => some .resource
  | "context" => some .context
  | _ => none

theorem Var.ofName?_name (v : Var) : Var.ofName? v.name = some v := by cases v <;> rfl

inductive Comparison where
  | less
  | lessEqual
  | greater
  | greaterEqual
  deriving DecidableEq

def Comparison.symbol : Comparison → String
  | .less => "<"
  | .lessEqual => "<="
  | .greater => ">"
  | .greaterEqual => ">="

def Comparison.holds : Comparison → Int → Int → Bool
  | .less, m, n => decide (m < n)
  | .lessEqual, m, n => decide (m ≤ n)
  | .greater, m, n => decide (m > n)
  | .greaterEqual, m, n => decide (m ≥ n)

inductive ArithOp where
  | add
  | sub
  | mul
  deriving DecidableEq

def ArithOp.symbol : ArithOp → String
  | .add => "+"
  | .sub => "-"
  | .mul => "*"

/-- The operation on unbounded integers. -/
def ArithOp.apply : ArithOp → Int → Int → Int
  | .add, m, n => m + n
  | .sub, m, n => m - n
  | .mul, m, n => m * n

inductive BinaryOp where
  | equal
  | notEqual
  | order (c : Comparison)
  | within
  | arith (a : ArithOp)
  deriving DecidableEq

def BinaryOp.symbol : BinaryOp → String
  | .equal => "=="
  | .notEqual => "!="
  | .order c => c.symbol
  | .within => "in"
  | .arith a => a.symbol

inductive Expr where
  | literal (v : Value)
  | var (v : Var)
  /-- Any other bare name; nothing declares one. -/
  | name (n : String)
  | not (e : Expr)
  | neg (e : Expr)
  | and (lhs rhs : Expr)
  | or (lhs rhs : Expr)
  | binary (op : BinaryOp) (lhs rhs : Expr)
  | cond (test thenE elseE : Expr)
  | getAttr (e : Expr) (attr : String)
  | hasAttr (e : Expr) (attr : String)
  | like (e : Expr) (pattern : Pattern)
  | is (e : Expr) (entityType : String)
  /-- The type test followed by membership in the target. -/
  | isIn (e : Expr) (entityType : String) (target : Expr)
  | set (items : List Expr)
  | record (fields : List (String × Expr))
  | method (receiver : Expr) (name : String) (args : List Expr)
  | call (name : String) (args : List Expr)
  deriving Inhabited

end AccessPolicy
