import Michelson.Pattern.Reading
import Michelson.Text.Letter

/-!
# Openings of groups

What may follow an opening parenthesis: nothing special, a name for the group,
or flags. Flags before a colon hold inside of the group; flags before a closing
parenthesis hold for the rest of the group around them.
-/

namespace Michelson.Pattern

/-- What an opening parenthesis opens. -/
inductive Opening where
  | group (flags : List FlagItem) (captures : Bool)
  | flags (span : Span) (items : List FlagItem)

/-- The flag that a letter stands for. -/
def Flag.ofLetter? : Char → Option Flag
  | 'i' => some .ignoreCase
  | 'm' => some .multiLine
  | 's' => some .dotAll
  | 'U' => some .swapGreed
  | 'u' => some .unicode
  | 'R' => some .crlf
  | 'x' => some .ignoreBlanks
  | _ => none

/-- Whether `c` may stand in the name of a group, at its beginning or later. -/
def isNameChar (first : Bool) (c : Char) : Bool :=
  if first then c == '_' || Letter.isAlphabetic c
  else c ∈ ['_', '.', '[', ']'] || Letter.isAlphanumeric c

namespace Reading

/-- The rest of the name of a group up to `>`, which is not passed. -/
def nameChars : Bool → Nat → Reading (List Char)
  | _, 0 => pure []
  | first, bound + 1 => do
    match ← peek? with
    | none => pure []
    | some '>' => pure []
    | some c =>
      if isNameChar first c then do
        advance 1
        let cs ← nameChars false bound
        pure (c :: cs)
      else refuse (← nextSpan) .nameCharacter

/-- The name of a group and the `>` after it. No two groups have one name. -/
def groupName : Reading Unit := do
  let start ← position
  let name ← nameChars true (← rest).length
  let span ← since start
  match ← peek? with
  | none => refuse (← here) .nameUnclosed
  | some _ => do
    advance 1
    if name.isEmpty then refuse (.point start) .nameEmpty
    else do
      let s ← get
      match s.names.lookup name with
      | some first => refuse span (.nameTwice first)
      | none => set { s with names := (name, span) :: s.names }

/-- The flag that the next character stands for. -/
def flagItem (c : Char) : Reading FlagItem := do
  if c = '-' then pure .negation
  else
    match Flag.ofLetter? c with
    | some f => pure (.flag f)
    | none => refuse (← nextSpan) .flagUnknown

/-- The refusal of an item that a list of flags has already, at `first`. -/
def flagAgain (first : Span) : FlagItem → Fault
  | .negation => .negationTwice first
  | .flag _ => .flagTwice first

/-- The flags up to a colon or a closing parenthesis, which is not passed, after
those that are given, the latest first. The bound is on their number. -/
def flagItems : Nat → List (FlagItem × Span) → Reading (List FlagItem)
  | 0, _ => do refuse (← here) .flagsUnfinished
  | bound + 1, found => do
    match ← peek? with
    | none => refuse (← here) .flagsUnfinished
    | some c =>
      if c = ':' ∨ c = ')' then
        match found with
        | (.negation, span) :: _ => refuse span .flagsEndInNegation
        | _ => pure (found.reverse.map Prod.fst)
      else do
        let span ← nextSpan
        let i ← flagItem c
        match found.lookup i with
        | some first => refuse span (flagAgain first i)
        | none => do
          advance 1
          flagItems bound ((i, span) :: found)

/-- Flags and the character that ends them, after a question mark at `mark` in
a group that opened at `opening`. -/
def flagOpening (opening : Span) (mark : Position) : Reading Opening := do
  match ← peek? with
  | none => refuse opening .groupUnclosed
  | some _ => do
    let items ← flagItems ((← rest).length + 1) []
    let last ← peek?
    advance 1
    if last = some ')' then
      -- without flags the question mark repeats, and there is nothing before it
      if items.isEmpty then refuse (.point mark) .repeatsNothing
      else pure (.flags (← since opening.start) items)
    else pure (.group items false)

/-- The marks of look-around, which is not supported. -/
def lookAroundMarks : List String := ["?=", "?!", "?<=", "?<!"]

/-- The marks before the name of a group. -/
def nameMarks : List String := ["?P<", "?<"]

/-- The opening of a group from its parenthesis on, and the part that the
parenthesis takes up. -/
def opening : Reading (Span × Opening) := do
  let span ← nextSpan
  let _ ← step
  let cs ← rest
  match lookAroundMarks.find? fun m => m.toList.isPrefixOf cs with
  | some m => do
    advance m.length
    refuse (← since span.start) .lookAround
  | none => do
    let mark ← position
    match nameMarks.find? fun m => m.toList.isPrefixOf cs, cs with
    | some m, _ => do
      advance m.length
      groupName
      pure (span, .group [] true)
    | none, '?' :: _ => do
      advance 1
      let o ← flagOpening span mark
      pure (span, o)
    | none, _ => pure (span, .group [] true)

end Reading

end Michelson.Pattern
