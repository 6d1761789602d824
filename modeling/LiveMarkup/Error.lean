/-!
# Errors

What can go wrong, by the stage that notices it and by cause.  `Error.message` gives the wording.
Each stage has a `custom` cause for errors that user code raises in its name.
-/

namespace LiveMarkup

/-- A template or one of its expressions cannot be read or evaluated. -/
inductive TemplateError where
  /-- The source of an expression ends too early. -/
  | unexpectedEnd (source : String)
  /-- The source of an expression cannot be continued at `near`. -/
  | unexpectedToken (near source : String)
  /-- A string literal has no closing quote; `near` is what is left of it. -/
  | unterminatedString (near source : String)
  /-- A closing or branch marker outside of any block. -/
  | strayMarker (marker : String)
  /-- A closing or branch marker of another kind of block. -/
  | misplacedMarker (marker block : String)
  | unclosedBlock (block : String)
  | badEachHeader (header : String)
  | badEachBindings (bindings : String)
  | notDefined (name : String)
  | notFunction (label : String)
  /-- A property of `null` or `undefined` is read. -/
  | nullishProperty (subject key : String)
  | notIterable (label : String)
  | loopExceeded (limit : Nat)
  | custom (text : String)
  deriving Repr, DecidableEq

/-- Text is not well-formed markup. -/
inductive MarkupError where
  | malformedTag (offset : Nat) (snippet : String)
  | unclosed (tag : String)
  | malformedClose (tag : String)
  | strayClose (tag : String)
  | mismatchedClose (tag opened : String)
  | custom (text : String)
  deriving Repr, DecidableEq

/-- A write that a container cannot take. -/
inductive StateError where
  | notArray (kind : String)
  | invalidLength (value : String)
  | notIndex (key : String)
  | invalidIndex (index : Nat)
  | notContainer (kind : String)
  | custom (text : String)
  deriving Repr, DecidableEq

/-- A component definition cannot be used. -/
inductive LoaderError where
  | noTemplate
  | custom (text : String)
  deriving Repr, DecidableEq

inductive Error where
  | template (cause : TemplateError)
  | markup (cause : MarkupError)
  | state (cause : StateError)
  | loader (cause : LoaderError)
  deriving Repr, DecidableEq

/-! ### Wording -/

def TemplateError.message : TemplateError → String
  | unexpectedEnd source => "Unexpected end of input in `" ++ source ++ "`"
  | unexpectedToken near source => "Unexpected token `" ++ near ++ "` in `" ++ source ++ "`"
  | unterminatedString "" source =>
    "Unexpected end of input in `" ++ source ++ "` (unterminated string)"
  | unterminatedString near source =>
    "Unexpected token `" ++ near ++ "` in `" ++ source ++ "` (unterminated string)"
  | strayMarker marker => "unexpected " ++ marker
  | misplacedMarker marker block => "unexpected " ++ marker ++ " inside " ++ block
  | unclosedBlock block => "unclosed " ++ block
  | badEachHeader header => "invalid \x7b#each\x7d header `" ++ header ++ "`"
  | badEachBindings bindings => "invalid \x7b#each\x7d bindings `" ++ bindings ++ "`"
  | notDefined name => name ++ " is not defined"
  | notFunction label => label ++ " is not a function"
  | nullishProperty subject key =>
    "Cannot read properties of " ++ subject ++ " (reading '" ++ key ++ "')"
  | notIterable label => label ++ ".forEach is not a function"
  | loopExceeded limit => "\x7b#for\x7d loop exceeded " ++ toString limit ++ " iterations"
  | custom text => text

def MarkupError.message : MarkupError → String
  | malformedTag offset snippet =>
    "malformed tag at byte " ++ toString offset ++ ": `" ++ snippet ++ "`"
  | unclosed tag => "unclosed <" ++ tag ++ ">"
  | malformedClose tag => "malformed </" ++ tag ++ ">"
  | strayClose tag => "unexpected </" ++ tag ++ ">"
  | mismatchedClose tag opened => "</" ++ tag ++ "> does not close <" ++ opened ++ ">"
  | custom text => text

def StateError.message : StateError → String
  | notArray kind => "cannot push onto a " ++ kind
  | invalidLength value => "invalid array length " ++ value
  | notIndex key => "`" ++ key ++ "` is not an array index"
  | invalidIndex index => "invalid array index " ++ toString index
  | notContainer kind => "cannot write a property of a " ++ kind
  | custom text => text

def LoaderError.message : LoaderError → String
  | noTemplate => "definition has no <template> block"
  | custom text => text

/-- The full text of an error. -/
def Error.message : Error → String
  | template cause => "template error: " ++ cause.message
  | markup cause => "markup error: " ++ cause.message
  | state cause => "state error: " ++ cause.message
  | loader cause => "loader error: " ++ cause.message

end LiveMarkup
