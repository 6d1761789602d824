import LiveMarkup.Expr.Grammar
import LiveMarkup.Proofs.Expr.Name

/-!
# Printing expressions

`Expr.lexemes` writes an expression as a list of lexemes, with parentheses only around an operand
that binds more loosely than its place allows.  From the loosest to the tightest the levels are

* 0: `?:`, whose last two operands may be any expression;
* 1: `||` and 2: `&&`;
* 3: equality, 4: relations, 5: sums and 6: products;
* 7: signs in front of an operand;
* 8: names, literals, lists and the suffixes `.name`, `[i]` and `(args)`.

Operators of the levels 1 to 6 associate to the left.  `Lexeme.Lays` lays lexemes out as a text with
single spaces between them.  A number may be spelled by any decimal literal that stands for it, so
an expression may have several texts (`Expr.Prints`).
-/

namespace LiveMarkup

/-! ### Lexemes -/

/-- What an expression is written with. -/
inductive Lexeme where
  | number (x : Float)
  | string (s : String)
  | name (s : String)
  | sign (w : String)

/-- Identifiers: a letter, underscore or dollar sign, then any of these and digits. -/
def IsIdentifier (s : String) : Prop :=
  ∃ c cs, s.toList = c :: cs ∧ Grammar.isIdentStart c = true ∧
    ∀ d ∈ cs, Grammar.isIdentPart d = true

instance (s : String) : Decidable (IsIdentifier s) := decidable_of_iff _ headedBy_iff

/-- The part of a decimal literal after its first digits: nothing, or a point and digits. -/
inductive IsFraction : List Char → Prop
  | absent : IsFraction []
  | point {ds : List Char} (hds : ∀ d ∈ ds, d.isDigit = true) : IsFraction ('.' :: ds)

/-- The last part of a decimal literal: nothing, or an exponent. -/
inductive IsExponent : List Char → Prop
  | absent : IsExponent []
  | power {e : Char} {sign ds : List Char} (he : e = 'e' ∨ e = 'E')
    (hsign : sign = [] ∨ sign = ['+'] ∨ sign = ['-']) (hne : ds ≠ [])
    (hds : ∀ d ∈ ds, d.isDigit = true) :
    IsExponent (e :: (sign ++ ds))

/-- Unsigned decimal literals. -/
inductive IsDecimal : List Char → Prop
  | mk {ds fs es : List Char} (hne : ds ≠ []) (hds : ∀ d ∈ ds, d.isDigit = true)
    (hfs : IsFraction fs)
    (hes : IsExponent es) : IsDecimal (ds ++ (fs ++ es))

namespace Lexeme

/-- A character inside double quotes. -/
def quoteChar (c : Char) : List Char := if c = '"' ∨ c = '\\' then ['\\', c] else [c]

/-- The texts of a lexeme. -/
inductive Spells : Lexeme → List Char → Prop
  | number {x : Float} {cs : List Char} (h : IsDecimal cs) (hx : readUnsigned? cs = some x) :
      Spells (number x) cs
  | string (s : String) : Spells (string s) ('"' :: (s.toList.flatMap quoteChar ++ ['"']))
  | name {s : String} (h : IsIdentifier s) : Spells (name s) s.toList
  | sign {w : String} (hne : w ≠ "") (hw : ∀ c ∈ w.toList, isSpace c = false) :
      Spells (sign w) w.toList

/-- The texts of several lexemes, with single spaces between them. -/
inductive Lays : List Lexeme → List Char → Prop
  | nil : Lays [] []
  | last {l : Lexeme} {w : List Char} (hw : l.Spells w) : Lays [l] w
  | cons {l m : Lexeme} {ls : List Lexeme} {w s : List Char} (hw : l.Spells w)
    (hs : Lays (m :: ls) s) :
    Lays (l :: m :: ls) (w ++ ' ' :: s)

/-- Lexemes in parentheses. -/
def parens (ls : List Lexeme) : List Lexeme := sign "(" :: (ls ++ [sign ")"])

/-- An operand of a level in a place that takes no looser ones than those of level `p`. -/
def operand (p level : Nat) (ls : List Lexeme) : List Lexeme := if level < p then parens ls else ls

end Lexeme

/-! ### Expressions -/

/-- The written form of an operator in front of its operand. -/
def UnaryOp.sign : UnaryOp → String
  | not => "!"
  | neg => "-"
  | plus => "+"

/-- The written form of an operator between its operands. -/
def BinaryOp.sign : BinaryOp → String
  | mul => "*"
  | div => "/"
  | rem => "%"
  | add => "+"
  | sub => "-"
  | lt => "<"
  | le => "<="
  | gt => ">"
  | ge => ">="
  | eq => "=="
  | ne => "!="
  | strictEq => "==="
  | strictNe => "!=="

def BinaryOp.level : BinaryOp → Nat
  | mul | div | rem => 6
  | add | sub => 5
  | lt | le | gt | ge => 4
  | eq | ne | strictEq | strictNe => 3

def LogicalOp.sign : LogicalOp → String
  | and => "&&"
  | or => "||"

def LogicalOp.level : LogicalOp → Nat
  | and => 2
  | or => 1

namespace Expr

/-- How tightly an expression binds. -/
def level : Expr → Nat
  | conditional .. => 0
  | logical op .. => op.level
  | binary op .. => op.level
  | unary .. => 7
  | _ => 8

end Expr

def Literal.lexeme : Literal → Lexeme
  | undefined => .name "undefined"
  | null => .name "null"
  | bool b => .name (if b then "true" else "false")
  | number x => .number x
  | string s => .string s

namespace Expr

open Lexeme (sign operand)

mutual

/-- The lexemes of an expression. -/
def lexemes : Expr → List Lexeme
  | literal l => [l.lexeme]
  | ident name => [.name name]
  | array items => sign "[" :: (listLexemes items ++ [sign "]"])
  | member object name => operand 8 object.level object.lexemes ++ [sign ".", .name name]
  | index object key =>
    operand 8 object.level object.lexemes ++ sign "[" :: (key.lexemes ++ [sign "]"])
  | call callee args =>
    operand 8 callee.level callee.lexemes ++ sign "(" :: (listLexemes args ++ [sign ")"])
  | unary op e => sign op.sign :: operand 7 e.level e.lexemes
  | binary op lhs rhs =>
    operand op.level lhs.level lhs.lexemes ++ sign op.sign ::
      operand (op.level + 1) rhs.level rhs.lexemes
  | logical op lhs rhs =>
    operand op.level lhs.level lhs.lexemes ++ sign op.sign ::
      operand (op.level + 1) rhs.level rhs.lexemes
  | conditional test yes no =>
    operand 1 test.level test.lexemes ++ sign "?" :: (yes.lexemes ++ sign ":" :: no.lexemes)

/-- The lexemes of several expressions, with commas between them. -/
def listLexemes : List Expr → List Lexeme
  | [] => []
  | e :: es => e.lexemes ++ moreLexemes es

/-- The lexemes of further expressions of a list, each after a comma. -/
def moreLexemes : List Expr → List Lexeme
  | [] => []
  | e :: es => sign "," :: (e.lexemes ++ moreLexemes es)

end

mutual

/-- Whether an expression can be written: numbers are those of decimal literals, and names are
identifiers that are no literals themselves. -/
def Printable : Expr → Prop
  | literal (.number x) => ∃ cs, IsDecimal cs ∧ readUnsigned? cs = some x
  | literal _ => True
  | ident name => IsName name
  | array items => AllPrintable items
  | member object name => object.Printable ∧ IsIdentifier name
  | index object key => object.Printable ∧ key.Printable
  | call callee args => callee.Printable ∧ AllPrintable args
  | unary _ e => e.Printable
  | binary _ lhs rhs => lhs.Printable ∧ rhs.Printable
  | logical _ lhs rhs => lhs.Printable ∧ rhs.Printable
  | conditional test yes no => test.Printable ∧ yes.Printable ∧ no.Printable

/-- Whether several expressions can be written. -/
def AllPrintable : List Expr → Prop
  | [] => True
  | e :: es => e.Printable ∧ AllPrintable es

end

/-- The texts of an expression: its lexemes with single spaces between them. -/
def Prints (e : Expr) (text : String) : Prop := Lexeme.Lays e.lexemes text.toList

end Expr

end LiveMarkup
