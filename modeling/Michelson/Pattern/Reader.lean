import Michelson.Pattern.Brackets
import Michelson.Pattern.Opening

/-!
# Reading trees of patterns

A pattern is an alternation of rows of items. A repetition takes the item before
it along; a group holds a pattern of its own.
-/

namespace Michelson.Pattern

/-- What has been read of an alternation: where it begins, its branches so far,
where the present branch begins, and the parts of that. The latest come first. -/
structure Frame where
  start : Position
  branches : List Tree
  branchStart : Position
  parts : List Tree

namespace Frame

/-- Before the first part of the first branch. -/
def opened (start : Position) : Frame := ⟨start, [], start, []⟩

/-- With one more part. -/
def push (f : Frame) (t : Tree) : Frame := { f with parts := t :: f.parts }

/-- The present branch, which ends at `stop`. -/
def branch (f : Frame) (stop : Position) : Tree := .row ⟨f.branchStart, stop⟩ f.parts.reverse

/-- With the present branch closed at `stop`, and another begun after it. -/
def nextBranch (f : Frame) (stop next : Position) : Frame :=
  ⟨f.start, f.branch stop :: f.branches, next, []⟩

/-- The tree of the alternation, which ends at `stop`. -/
def tree (f : Frame) (stop : Position) : Tree :=
  match f.branches with
  | [] => f.branch stop
  | _ => .alternation ⟨f.start, stop⟩ (f.branch stop :: f.branches).reverse

end Frame

/-- Whether a repetition may take a tree along. -/
def Tree.isRepeatable : Tree → Bool
  | .empty _ => false
  | .flags _ _ => false
  | _ => true

namespace Reading

/-! ## Repetitions -/

/-- A number of 32 bits, with blanks around it. What follows is read on even if
there is none, so the refusal is only handed over. -/
def decimal : Reading (Except Refusal Nat) := do
  let cs ← rest
  advance (cs.takeWhile isBlank).length
  let start ← position
  let digits ← gatherAll Char.isDigit
  let span ← since start
  let _ ← gatherAll isBlank
  if digits.isEmpty then pure (.error ⟨span, .countEmpty⟩)
  else
    let n := Numeral.value 10 digits
    if n < Numeral.bound32 then pure (.ok n) else pure (.error ⟨span, .countTooLarge⟩)

/-- A number that was handed over, or else its refusal. -/
def granted : Except Refusal Nat → Reading Nat
  | .ok n => pure n
  | .error r => throw r

/-- The counts between the braces of a repetition that begins at `start`, up to
the closing brace. -/
def counts (start : Position) : Reading (Nat × Option Nat) := do
  match ← step with
  | none => refuse (← since start) .countUnclosed
  | some _ => do
    let least ← decimal
    match ← peek? with
    | none => refuse (← since start) .countUnclosed
    | some ',' => do
      match ← step with
      | none => refuse (← since start) .countUnclosed
      | some '}' => do
        let n ← granted least
        pure (n, none)
      | some _ => do
        let n ← granted least
        let m ← granted (← decimal)
        pure (n, some m)
    | some _ => do
      let n ← granted least
      pure (n, some n)

/-- A counted repetition from its opening brace on. -/
def countedRepetition (start : Position) : Reading (Nat × Option Nat) := do
  let (least, most) ← counts start
  match ← peek? with
  | some '}' => do
    match ← step with
    | some '?' => advance 1
    | _ => pure ()
    if most.any (· < least) then refuse (← since start) .countRange
    else pure (least, most)
  | _ => refuse (← since start) .countUnclosed

/-- A repetition without counts. -/
def plainRepetition (least : Nat) (most : Option Nat) : Reading (Nat × Option Nat) := do
  advance 1
  match ← peek? with
  | some '?' => advance 1
  | _ => pure ()
  pure (least, most)

/-- A repetition that begins with `c`, of the last part read. -/
def repetition (f : Frame) (c : Char) : Reading Frame := do
  match f.parts with
  | [] => refuse (← here) .repeatsNothing
  | t :: parts =>
    if t.isRepeatable then do
      let start ← position
      let (least, most) ←
        if c = '?' then plainRepetition 0 (some 1)
        else if c = '*' then plainRepetition 0 none
        else if c = '+' then plainRepetition 1 none
        else countedRepetition start
      let span ← since t.span.start
      pure { f with parts := .repetition span least most t :: parts }
    else refuse (← here) .repeatsNothing

/-! ## Trees -/

/-- Lets blanks mean something or nothing, if the flags say so. -/
def applyBlanks (items : List FlagItem) : Reading Unit :=
  match FlagItem.state? .ignoreBlanks items with
  | some b => modify fun s => { s with ignoreBlanks := b }
  | none => pure ()

/-- The rest of an alternation, up to the closing parenthesis around it or the
end of the pattern, which are not passed. The bound is on the items, those of
groups inside counted in. -/
def alternation : Nat → Frame → Reading Tree
  | 0, f => do pure (f.tree (← position))
  | bound + 1, f => do
    skipBlanks
    match ← peek? with
    | none => pure (f.tree (← position))
    | some ')' => pure (f.tree (← position))
    | some '|' => do
      let stop ← position
      advance 1
      alternation bound (f.nextBranch stop (← position))
    | some '(' => do
      let outer ← get
      match ← opening with
      | (_, .flags span items) => do
        applyBlanks items
        alternation bound (f.push (.flags span items))
      | (span, .group items captures) => do
        applyBlanks items
        let sub ← alternation bound (.opened (← position))
        match ← peek? with
        | none => refuse span .groupUnclosed
        | some _ => do
          modify fun s => { s with ignoreBlanks := outer.ignoreBlanks }
          advance 1
          alternation bound (f.push (.group (← since span.start) items captures sub))
    | some '[' => do
      let (span, negated, body) ← brackets ((← rest).length + 1)
      alternation bound (f.push (.brackets span negated body))
    | some c =>
      if c ∈ ['?', '*', '+', '{'] then do
        let f' ← repetition f c
        alternation bound f'
      else do
        let i ← item c
        alternation bound (f.push i.tree)

/-- A whole pattern. -/
def pattern : Reading Tree := do
  let t ← alternation ((← rest).length + 1) (.opened (← position))
  match ← peek? with
  | none => pure t
  | some _ => refuse (← nextSpan) .groupUnopened

end Reading

/-- The levels to which groups and the like may be nested. -/
def maxLevels : Nat := 250

/-- Reads the tree of a pattern. -/
def Tree.read (pattern : List Char) : Except Refusal Tree := do
  let (t, _) ← Reading.pattern.run { cursor := Cursor.ofText pattern }
  match t.tooDeep? maxLevels with
  | some span => throw ⟨span, .tooDeep maxLevels⟩
  | none => pure t

end Michelson.Pattern
