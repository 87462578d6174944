import Michelson.Note
import Michelson.Position

/-!
# Errors

An error is a cause with the place where it was met. The wording of every cause
stands here, in `Error.message`, and nowhere else.
-/

namespace Michelson

/-- What a grammar rule could have accepted at some place. -/
inductive Expectation where
  /-- a symbol or keyword, word for word -/
  | token (text : String)
  /-- a note with the given sigil -/
  | note (sigil : Sigil)
  /-- a character that continues or ends the text of a note -/
  | noteBody
  | type
  | comparable
  | integer
  | string
  | bytes
  | dataWord
  | instruction
  | macroName
  | endOfInput
  /-- any other expectation, in its own words -/
  | stated (text : String)
deriving DecidableEq, Repr

namespace Expectation

/-- How an expectation is named in a message. -/
def describe : Expectation → String
  | token text => String.join ["`", text, "`"]
  | note sigil => String.join ["`", String.singleton sigil.char, "` annotation"]
  | noteBody => "annotation body character"
  | type => "type"
  | comparable => "comparable type"
  | integer => "integer literal"
  | string => "string literal"
  | bytes => "bytes literal"
  | dataWord => "data constructor"
  | instruction => "instruction"
  | macroName => "macro"
  | endOfInput => "end of input"
  | stated text => text

end Expectation

/-- What is wrong with the characters of a text. -/
inductive LexicalFault where
  /-- no token begins with this character -/
  | strayCharacter (c : Char)
  | unterminatedComment
  | unterminatedString
  | unterminatedEscape
  | unknownEscape (c : Char)
  | escapeWithoutDigits
  /-- a numeric escape denotes no character -/
  | noSuchCharacter (code : Nat)
  | stated (text : String)
deriving DecidableEq, Repr

namespace LexicalFault

/-- The wording of a fault. -/
def describe : LexicalFault → String
  | strayCharacter c => String.join ["unexpected character '", String.singleton c, "'"]
  | unterminatedComment => "unterminated block comment"
  | unterminatedString => "unterminated string literal"
  | unterminatedEscape => "unterminated escape sequence"
  | unknownEscape c => String.join ["invalid escape sequence '\\", String.singleton c, "'"]
  | escapeWithoutDigits => "numeric escape without digits"
  | noSuchCharacter code =>
    String.join ["invalid character code ", String.ofList (Numeral.decimal code)]
  | stated text => text

end LexicalFault

/-- What is wrong with a literal whose token is complete. -/
inductive LiteralFault where
  /-- a bytes literal with half a byte at its end -/
  | oddHexDigits (literal : String)
  | stated (text : String)
deriving DecidableEq, Repr

namespace LiteralFault

/-- The wording of a fault. -/
def describe : LiteralFault → String
  | oddHexDigits literal =>
    String.join ["bytes literal `", literal, "` has an odd number of hex digits"]
  | stated text => text

end LiteralFault

/-- Why a text, or a document of options, was refused. -/
inductive Error where
  /-- a malformed token, or a character that begins none -/
  | lexical (position : Position) (fault : LexicalFault)
  /-- no alternative of the grammar applies -/
  | grammar (position : Position) (expected : List Expectation)
  /-- a sigil is there, but its note is malformed -/
  | note (position : Position) (expected : List Expectation)
  | literal (position : Position) (fault : LiteralFault)
  /-- the nesting goes deeper than the limit allows -/
  | depth (position : Position) (limit : Nat)
  /-- a malformed document of options -/
  | options (detail : String)
  /-- a tree that cannot be encoded -/
  | encoding (detail : String)
deriving DecidableEq, Repr

namespace Error

/-- The place of an error, if it has one. -/
def position? : Error → Option Position
  | lexical p _ => some p
  | grammar p _ => some p
  | note p _ => some p
  | literal p _ => some p
  | depth p _ => some p
  | options _ => none
  | encoding _ => none

/-- The short name of the kind of an error. -/
def kind : Error → String
  | lexical _ _ => "lex"
  | grammar _ _ => "syntax"
  | note _ _ => "annotation"
  | literal _ _ => "literal"
  | depth _ _ => "depth"
  | options _ => "config"
  | encoding _ => "serialization"

/-- What was expected, for the errors that say so. -/
def expected? : Error → Option (List Expectation)
  | grammar _ expected => some expected
  | note _ expected => some expected
  | _ => none

/-- Whether the error is one of grammar. A malformed note counts as one. -/
def isGrammatical (e : Error) : Bool := e.expected?.isSome

/-- The list of expectations in a message. -/
def listed (expected : List Expectation) : String :=
  String.intercalate ", " (expected.map Expectation.describe)

/-- The message of an error. -/
def message : Error → String
  | lexical p fault => String.join ["Lex error at ", p.render, ": ", fault.describe]
  | grammar p expected =>
    String.join ["Syntax error at ", p.render, ": expected ", listed expected]
  | note p expected => String.join ["Syntax error at ", p.render, ": expected ", listed expected]
  | literal p fault => String.join ["Literal format error at ", p.render, ": ", fault.describe]
  | depth p limit =>
    String.join ["Nesting depth limit of ", String.ofList (Numeral.decimal limit),
      " exceeded at ", p.render]
  | options detail => String.join ["Configuration error: ", detail]
  | encoding detail => String.join ["Serialization error: ", detail]

end Error

end Michelson
