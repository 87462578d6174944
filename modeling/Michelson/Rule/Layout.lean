import Michelson.Rule
import Michelson.Text.Blank

/-!
# Layout and tokens

Between two tokens a text may hold layout: blanks, line comments, which begin
with `#` and end before the next line feed, and block comments, which stand
between `/*` and `*/` and do not nest. Every token takes the layout after it
along.
-/

namespace Michelson

namespace Layout

/-- Where in the layout a scan stands: outside of comments, in a line comment,
or in a block comment that began at the given place. The two characters that
open a block comment, and the two that close it, have a mode between them. -/
inductive Mode where
  | plain
  | line
  | opening (start : Position)
  | block (start : Position)
  | closing
deriving DecidableEq, Repr

/-- Passes layout. The result is the cursor after it, or the place of a block
comment that is never closed. -/
def scan : Mode → List Char → Position → Except Position Cursor
  | .plain, [], p => .ok ⟨[], p⟩
  | .plain, c :: cs, p =>
    if isBlank c then scan .plain cs (p.advance c)
    else if c = '#' then scan .line cs (p.advance c)
    else if c = '/' ∧ cs.head? = some '*' then scan (.opening p) cs (p.advance c)
    else .ok ⟨c :: cs, p⟩
  | .line, [], p => .ok ⟨[], p⟩
  | .line, c :: cs, p =>
    if c = '\n' then scan .plain cs (p.advance c) else scan .line cs (p.advance c)
  | .opening start, [], _ => .error start
  | .opening start, c :: cs, p => scan (.block start) cs (p.advance c)
  | .block start, [], _ => .error start
  | .block start, c :: cs, p =>
    if c = '*' ∧ cs.head? = some '/' then scan .closing cs (p.advance c)
    else scan (.block start) cs (p.advance c)
  | .closing, [], p => .ok ⟨[], p⟩
  | .closing, c :: cs, p => scan .plain cs (p.advance c)

end Layout

/-- Whether `c` may stand inside a word. -/
def isWordChar (c : Char) : Bool := c.isAlphanum || c == '_'

/-- The word at the front of a text: the longest run of word characters, if it
begins with a letter. -/
def word? : List Char → Option (List Char)
  | [] => none
  | c :: cs => if c.isAlpha then some (c :: cs.takeWhile isWordChar) else none

/-- Whether a word that ends here is not continued by the text that follows. -/
def endsWord (cs : List Char) : Bool :=
  match cs with
  | [] => true
  | c :: _ => !isWordChar c

namespace Rule

/-- Passes layout. A block comment that is never closed is an error. -/
def layout : Rule Unit := do
  let c ← cursor
  match Layout.scan .plain c.rest c.position with
  | .ok c' => moveTo c'
  | .error start => raise (.lexical start .unterminatedComment)

/-- Passes the next `n` characters and the layout after them. -/
def token (n : Nat) : Rule Unit := do
  advance n
  layout

/-- Reads the symbol `c`. -/
def symbol (c : Char) : Rule Unit := do
  match ← peek? with
  | some d => if d = c then token 1 else fail (.token (String.singleton c))
  | none => fail (.token (String.singleton c))

/-- The word after the cursor. -/
def peekWord? : Rule (Option (List Char)) := do
  let cs ← rest
  pure (word? cs)

/-- Reads the word `name`. -/
def keyword (name : String) : Rule Unit := do
  match ← peekWord? with
  | some w => if w = name.toList then token w.length else fail (.token name)
  | none => fail (.token name)

/-- Misses unless the text ends here. -/
def endOfInput : Rule Unit := do
  match ← peek? with
  | some _ => fail .endOfInput
  | none => pure ()

variable {α : Type}

/-- The items of a braced list after the opening brace, up to a bound on their
number: they are parted by semicolons, and one more may follow the last. -/
def bracedItems (item : Rule α) : Nat → Rule (List α)
  | 0 => exhausted
  | bound + 1 => do
    let a ← item
    match ← optional (symbol ';') with
    | some _ =>
      match ← optional (symbol '}') with
      | some _ => pure [a]
      | none => do
        let more ← bracedItems item bound
        pure (a :: more)
    | none => do
      symbol '}'
      pure [a]

/-- A list in braces. Every item but the last is followed by a semicolon, so the
text after the brace bounds their number. -/
def braced (item : Rule α) : Rule (List α) :=
  attempt do
    symbol '{'
    match ← optional (symbol '}') with
    | some _ => pure []
    | none => do
      let cs ← rest
      bracedItems item (cs.length + 1)

/-- Something in parentheses. -/
def parenthesized (r : Rule α) : Rule α := do
  symbol '('
  let a ← r
  symbol ')'
  pure a

end Rule

end Michelson
