import LiveMarkup.Value.Text

/-!
# Expressions

Expression trees, the statements of loop headers, and `Expr.label`, the short source-like name of an
expression in error messages.
-/

namespace LiveMarkup

/-- The values that can be written down in an expression. -/
inductive Literal where
  | undefined
  | null
  | bool (b : Bool)
  | number (x : Float)
  | string (s : String)
  deriving Repr, Inhabited

namespace Literal

def toValue : Literal → Value
  | undefined => .undefined
  | null => .null
  | bool b => .bool b
  | number x => .number x
  | string s => .string s

/-- The displayed text of a literal. -/
def text (l : Literal) : String := l.toValue.plainText

end Literal

inductive UnaryOp where
  | not | neg | plus
  deriving Repr, DecidableEq

inductive BinaryOp where
  | mul | div | rem | add | sub | lt | le | gt | ge | eq | ne | strictEq | strictNe
  deriving Repr, DecidableEq

/-- Operators that evaluate the right operand only if the left one does not decide. -/
inductive LogicalOp where
  | and | or
  deriving Repr, DecidableEq

inductive Expr where
  | literal (l : Literal)
  | ident (name : String)
  | array (items : List Expr)
  | member (object : Expr) (name : String)
  | index (object key : Expr)
  | call (callee : Expr) (args : List Expr)
  | unary (op : UnaryOp) (operand : Expr)
  | binary (op : BinaryOp) (lhs rhs : Expr)
  | logical (op : LogicalOp) (lhs rhs : Expr)
  | conditional (test yes no : Expr)
  deriving Repr, Inhabited

/-- A short name for the expression, close to its source. -/
def Expr.label : Expr → String
  | ident name => name
  | member object name => object.label ++ "." ++ name
  | index object _ => object.label ++ "[...]"
  | call callee _ => callee.label ++ "(...)"
  | literal l => l.text
  | _ => "(expression)"

/-! ### Loop headers -/

inductive AssignOp where
  | set | add | sub | mul | div
  deriving Repr, DecidableEq

/-- The direction of a counting step. -/
inductive Step where
  | up | down
  deriving Repr, DecidableEq

/-- What a step adds. -/
def Step.delta : Step → Float
  | up => 1.0
  | down => -1.0

/-- Statements of the first and the last part of a loop header. -/
inductive Stmt where
  | declare (name : String) (init : Expr)
  | assign (name : String) (op : AssignOp) (rhs : Expr)
  | step (name : String) (direction : Step)
  | expr (e : Expr)
  deriving Repr

structure LoopHeader where
  init : Option Stmt
  test : Option Expr
  step : Option Stmt
  deriving Repr

end LiveMarkup
