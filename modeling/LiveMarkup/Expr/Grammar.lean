import LiveMarkup.Error
import LiveMarkup.Grammar.Rule
import LiveMarkup.Expr.Basic
import LiveMarkup.Number.Read

/-!
# The grammar of expressions

Precedence, loosest first: `?:`, `||`, `&&`, equality, relation, sum, product, sign, and the
suffixes `.name`, `[i]` and `(args)`.  Operators of one level associate to the left, and the
branches of `?:` are whole expressions.  Each level is a rule over the rule `expr` for whole
expressions, which is what stands inside brackets; `expression n` ties the knot for nesting up to
depth `n`, and no text nests deeper than its length.

`Expr.parse` reads the whole of a text and says on failure what is in the way.
-/

namespace LiveMarkup

namespace Grammar

open Rule

/-! ### Words, numbers and strings -/

def isIdentStart (c : Char) : Bool := c.isAlpha || c == '_' || c == '$'

def isIdentPart (c : Char) : Bool := c.isAlphanum || c == '_' || c == '$'

/-- A name: ASCII letters, digits, `_` and `$`, not starting with a digit. -/
def identifier : Rule String := do
  let c ← one isIdentStart
  let cs ← run isIdentPart
  pure (String.ofList (c :: cs))

/-- The exponent part of a number. -/
def exponent : Rule Int := do
  let _ ← one fun c => c == 'e' || c == 'E'
  let sign ← optional (one fun c => c == '+' || c == '-')
  let ds ← run1 Char.isDigit
  pure (if sign = some '-' then -(exponentValue ds : Int) else (exponentValue ds : Int))

/-- The digits after the point of a number. -/
def fraction : Rule (List Char) := do
  token "."
  run Char.isDigit

/-- An unsigned decimal number. -/
def number : Rule Float := do
  let ds ← run1 Char.isDigit
  let fs ← optional fraction
  let e ← optional exponent
  let fs := fs.getD []
  pure (ofDigits (ds ++ fs) (e.getD 0 - (fs.length : Int)))

/-- The character that a backslash and `c` stand for. -/
def unescape (c : Char) : Char :=
  if c = 'n' then '\n' else if c = 't' then '\t' else if c = 'r' then '\r' else c

/-- The characters of a string literal up to the quote `q`, and what follows it. -/
def readStringBody (q : Char) : List Char → Reply (List Char)
  | [] => .failure []
  | c :: cs =>
    if c = q then .ok [] cs
    else if c = '\\' then
      match cs with
      | [] => .failure [c]
      | d :: r => (readStringBody q r).map (unescape d :: ·)
    else (readStringBody q cs).map (c :: ·)

theorem readStringBody_suffix (q : Char) (s : List Char) {t r : List Char}
    (h : readStringBody q s = .ok t r) : r <:+ s := by
  fun_induction readStringBody q s generalizing t with
  | case1 => cases h
  | case2 cs =>
    cases h
    exact List.suffix_cons ..
  | case3 => cases h
  | case4 d cs _ ih =>
    obtain ⟨u, hu, -⟩ := Reply.map_eq_ok_iff.1 h
    exact (ih hu).trans ((List.suffix_cons d cs).trans (List.suffix_cons _ _))
  | case5 c cs _ _ ih =>
    obtain ⟨u, hu, -⟩ := Reply.map_eq_ok_iff.1 h
    exact (ih hu).trans (List.suffix_cons c cs)

/-- The rest of a string literal up to the quote `q`. -/
def stringBody (q : Char) : Rule (List Char) where
  read := readStringBody q
  rest_suffix := readStringBody_suffix q _

/-- A string literal in either kind of quotes. -/
def stringLiteral : Rule String := do
  let q ← one fun c => c == '"' || c == '\''
  let cs ← stringBody q
  pure (String.ofList cs)

/-- Four words are literals, every other word is a name. -/
def word (name : String) : Expr :=
  if name = "true" then .literal (.bool true)
  else if name = "false" then .literal (.bool false)
  else if name = "null" then .literal .null
  else if name = "undefined" then .literal .undefined
  else .ident name

/-! ### Levels of precedence -/

/-- A comma-separated list between brackets. -/
def bracketed (left right : String) (leftSpaced : Bool) (expr : Rule Expr) : Rule (List Expr) := do
  if leftSpaced then spaced (token left) else token left
  let items ← separated (spaced (token ",")) expr (advances_token (by decide)).spaced
  spaced (token right)
  pure items

/-- An expression in parentheses. -/
def parenthesized (expr : Rule Expr) : Rule Expr := do
  token "("
  let e ← expr
  spaced (token ")")
  pure e

def primary (expr : Rule Expr) : Rule Expr :=
  firstOf (do let x ← number; pure (.literal (.number x)))
    [do let s ← stringLiteral; pure (.literal (.string s)),
     parenthesized expr,
     do let items ← bracketed "[" "]" false expr; pure (.array items),
     do let name ← identifier; pure (word name)]

/-- What may follow an operand. -/
inductive Suffix where
  | member (name : String)
  | index (key : Expr)
  | call (args : List Expr)

def Suffix.apply (e : Expr) : Suffix → Expr
  | member name => .member e name
  | index key => .index e key
  | call args => .call e args

def suffix (expr : Rule Expr) : Rule Suffix :=
  firstOf (do spaced (token "."); let name ← identifier; pure (.member name))
    [do spaced (token "["); let key ← expr; spaced (token "]"); pure (.index key),
     do let args ← bracketed "(" ")" true expr; pure (.call args)]

theorem advances_suffix (expr : Rule Expr) : (suffix expr).Advances :=
  (advances_token (by decide)).spaced.bind.firstOf fun
    | _, .head _ => (advances_token (by decide)).spaced.bind
    | _, .tail _ (.head _) => Advances.bind (Advances.bind (advances_token (by decide)).spaced)

def postfixed (expr : Rule Expr) : Rule Expr := do
  let e ← spaced (primary expr)
  let suffixes ← many (suffix expr) (advances_suffix expr)
  pure (suffixes.foldl Suffix.apply e)

def unaryOp : Rule UnaryOp :=
  firstOf (tokenAs "!" .not) [singleAs "-" .neg, singleAs "+" .plus]

theorem advances_unaryOp : unaryOp.Advances :=
  (advances_tokenAs (by decide)).firstOf fun
    | _, .head _ => advances_singleAs (by decide)
    | _, .tail _ (.head _) => advances_singleAs (by decide)

/-- An operand with any number of signs in front. -/
def readUnary (expr : Rule Expr) (s : List Char) : Reply Expr :=
  match _h : (spaced unaryOp).read s with
  | .ok op r =>
    match readUnary expr r with
    | .ok e r' => .ok (.unary op e) r'
    | .error _ => (postfixed expr).read s
    | .failure r' => .failure r'
  | .error _ => (postfixed expr).read s
  | .failure r => .failure r
termination_by s.length
decreasing_by exact advances_unaryOp.spaced _h

theorem readUnary_suffix (expr : Rule Expr) (s : List Char) {e : Expr} {r : List Char}
    (h : readUnary expr s = .ok e r) : r <:+ s := by
  fun_induction readUnary expr s generalizing e with
  | case1 s op t ht e' r' he ih =>
    cases h
    exact (ih he).trans ((spaced unaryOp).rest_suffix ht)
  | case2 => exact (postfixed expr).rest_suffix h
  | case3 => cases h
  | case4 => exact (postfixed expr).rest_suffix h
  | case5 => cases h

/-- An operand with any number of signs in front. -/
def unary (expr : Rule Expr) : Rule Expr where
  read := readUnary expr
  rest_suffix := readUnary_suffix expr _

/-- Operands of one level with the operators of that level between them. -/
def chain {α : Type} (operand : Rule Expr) (op : Rule α) (hop : op.Advances)
    (combine : Expr → α → Expr → Expr) : Rule Expr := do
  let first ← operand
  let rest ← many (do let o ← spaced op; let e ← operand; pure (o, e)) hop.spaced.bind
  pure (rest.foldl (fun e oe => combine e oe.1 oe.2) first)

def binaryChain (operand : Rule Expr) (op : Rule BinaryOp) (hop : op.Advances) : Rule Expr :=
  chain operand op hop fun lhs o rhs => .binary o lhs rhs

def logicalChain (operand : Rule Expr) (op : LogicalOp) (w : String) (hw : w ≠ "") : Rule Expr :=
  chain operand (token w) (advances_token hw) fun lhs _ rhs => .logical op lhs rhs

def multiplicativeOp : Rule BinaryOp :=
  firstOf (tokenAs "*" .mul) [tokenAs "/" .div, tokenAs "%" .rem]

def additiveOp : Rule BinaryOp :=
  firstOf (singleAs "+" .add) [singleAs "-" .sub]

def relationalOp : Rule BinaryOp :=
  firstOf (tokenAs "<=" .le) [tokenAs ">=" .ge, tokenAs "<" .lt, tokenAs ">" .gt]

def equalityOp : Rule BinaryOp :=
  firstOf (tokenAs "===" .strictEq) [tokenAs "!==" .strictNe, tokenAs "==" .eq, tokenAs "!=" .ne]

theorem advances_multiplicativeOp : multiplicativeOp.Advances :=
  (advances_tokenAs (by decide)).firstOf fun
    | _, .head _ => advances_tokenAs (by decide)
    | _, .tail _ (.head _) => advances_tokenAs (by decide)

theorem advances_additiveOp : additiveOp.Advances :=
  (advances_singleAs (by decide)).firstOf fun
    | _, .head _ => advances_singleAs (by decide)

theorem advances_relationalOp : relationalOp.Advances :=
  (advances_tokenAs (by decide)).firstOf fun
    | _, .head _ => advances_tokenAs (by decide)
    | _, .tail _ (.head _) => advances_tokenAs (by decide)
    | _, .tail _ (.tail _ (.head _)) => advances_tokenAs (by decide)

theorem advances_equalityOp : equalityOp.Advances :=
  (advances_tokenAs (by decide)).firstOf fun
    | _, .head _ => advances_tokenAs (by decide)
    | _, .tail _ (.head _) => advances_tokenAs (by decide)
    | _, .tail _ (.tail _ (.head _)) => advances_tokenAs (by decide)

def multiplicative (expr : Rule Expr) : Rule Expr :=
  binaryChain (unary expr) multiplicativeOp advances_multiplicativeOp

def additive (expr : Rule Expr) : Rule Expr :=
  binaryChain (multiplicative expr) additiveOp advances_additiveOp

def relational (expr : Rule Expr) : Rule Expr :=
  binaryChain (additive expr) relationalOp advances_relationalOp

def equality (expr : Rule Expr) : Rule Expr :=
  binaryChain (relational expr) equalityOp advances_equalityOp

def conjunction (expr : Rule Expr) : Rule Expr := logicalChain (equality expr) .and "&&" (by decide)

def disjunction (expr : Rule Expr) : Rule Expr :=
  logicalChain (conjunction expr) .or "||" (by decide)

/-- The two branches after a test. -/
def branches (expr : Rule Expr) : Rule (Expr × Expr) := do
  spaced (token "?")
  let yes ← expr
  spaced (token ":")
  let no ← expr
  pure (yes, no)

def conditional (expr : Rule Expr) : Rule Expr := do
  let test ← disjunction expr
  let chosen ← optional (branches expr)
  match chosen with
  | some (yes, no) => pure (.conditional test yes no)
  | none => pure test

/-- Expressions with brackets and branches nested up to a depth. -/
def expression : Nat → Rule Expr
  | 0 => nothing
  | n + 1 => .delay fun _ => conditional (expression n)

/-! ### Loop headers -/

def declaration (expr : Rule Expr) : Rule Stmt := do
  spaced (before (firstOf (token "let") [token "var", token "const"]) spaces1)
  let name ← identifier
  spaced (token "=")
  let init ← expr
  pure (.declare name init)

def increment : Rule Step :=
  firstOf (tokenAs "++" .up) [tokenAs "--" .down]

def step : Rule Stmt :=
  firstOf (do let name ← spaced identifier; let d ← spaced increment; pure (.step name d))
    [do let d ← spaced increment; let name ← spaced identifier; pure (.step name d)]

def assignOp : Rule AssignOp :=
  firstOf (tokenAs "+=" .add)
    [tokenAs "-=" .sub, tokenAs "*=" .mul, tokenAs "/=" .div, singleAs "=" .set]

def assignment (expr : Rule Expr) : Rule Stmt := do
  let name ← spaced identifier
  let op ← spaced assignOp
  let rhs ← expr
  pure (.assign name op rhs)

def statement (expr : Rule Expr) : Rule Stmt :=
  firstOf (declaration expr) [step, assignment expr, do let e ← expr; pure (.expr e)]

def loopHeader (expr : Rule Expr) : Rule LoopHeader := do
  let init ← optional (statement expr)
  spaced (token ";")
  let test ← optional expr
  spaced (token ";")
  let step ← optional (statement expr)
  spaces
  pure ⟨init, test, step⟩

/-! ### Whole texts -/

/-- How much of the text in the way of a rule an error message shows. -/
def nearLength : Nat := 12

/-- What a rule reads from the whole of a text, or why it does not. -/
def readAll {α : Type} (p : Rule α) (source : String) : Except TemplateError α :=
  let near (r : List Char) : String :=
    let cs := r.take nearLength
    if cs.all isBlank then "" else String.ofList cs
  match (whole p).read source.toList with
  | .ok a _ => .ok a
  | .error r =>
    .error (if near r = "" then .unexpectedEnd source else .unexpectedToken (near r) source)
  | .failure r => .error (.unterminatedString (near r) source)

end Grammar

/-- The expression that a text denotes. -/
def Expr.parse (source : String) : Except TemplateError Expr :=
  Grammar.readAll (Rule.spaced (Grammar.expression (source.length + 1))) source

/-- The loop header that a text denotes. -/
def LoopHeader.parse (source : String) : Except TemplateError LoopHeader :=
  Grammar.readAll (Grammar.loopHeader (Grammar.expression (source.length + 1))) source

end LiveMarkup
