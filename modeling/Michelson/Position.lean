import Michelson.Text.Numeral

/-!
# Positions and cursors

A position names a place in a text three ways: by line, by column and by
offset. A cursor is a position together with the text that follows it.
-/

namespace Michelson

/-- A place in a text. Lines and columns count from one, and columns count
characters; the offset counts the bytes of the UTF-8 form from zero. -/
structure Position where
  line : Nat
  column : Nat
  offset : Nat
deriving DecidableEq, Repr, Inhabited

namespace Position

/-- The place of the first character of a text. -/
def start : Position := ⟨1, 1, 0⟩

/-- The place after the character `c`. Only a line feed starts a new line. -/
def advance (p : Position) (c : Char) : Position :=
  if c = '\n' then ⟨p.line + 1, 1, p.offset + c.utf8Size⟩
  else ⟨p.line, p.column + 1, p.offset + c.utf8Size⟩

/-- The place after a run of characters. -/
def after (p : Position) (cs : List Char) : Position :=
  cs.foldl advance p

/-- A position is shown as `line:column`. -/
def render (p : Position) : String :=
  String.ofList (Numeral.decimal p.line ++ ':' :: Numeral.decimal p.column)

@[simp]
theorem after_nil (p : Position) : p.after [] = p := rfl

@[simp]
theorem after_cons (p : Position) (c : Char) (cs : List Char) :
    p.after (c :: cs) = (p.advance c).after cs := rfl

theorem after_append (p : Position) (cs ds : List Char) :
    p.after (cs ++ ds) = (p.after cs).after ds :=
  List.foldl_append

end Position

/-- A place in a text, with the part of the text that follows it. -/
structure Cursor where
  rest : List Char
  position : Position
deriving DecidableEq, Repr

namespace Cursor

/-- The cursor before the first character of a text. -/
def ofText (text : List Char) : Cursor := ⟨text, Position.start⟩

/-- The character that follows. -/
def peek? (c : Cursor) : Option Char := c.rest.head?

/-- The cursor after the next `n` characters, or after the last one. -/
def skip : Nat → Cursor → Cursor
  | 0, c => c
  | _ + 1, ⟨[], p⟩ => ⟨[], p⟩
  | n + 1, ⟨ch :: rest, p⟩ => skip n ⟨rest, p.advance ch⟩

/-- Skipping is splitting the text: what is passed moves the position, what is
left is the rest. -/
theorem skip_eq (n : Nat) (c : Cursor) :
    c.skip n = ⟨c.rest.drop n, c.position.after (c.rest.take n)⟩ := by
  induction n generalizing c with
  | zero => simp [skip]
  | succ n ih =>
    obtain ⟨rest, p⟩ := c
    cases rest with
    | nil => simp [skip]
    | cons ch rest => simp [skip, ih]

end Cursor

end Michelson
