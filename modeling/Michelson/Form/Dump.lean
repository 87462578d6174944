import Michelson.Form
import Michelson.Text.Numeral
import Michelson.Text.Printable

/-!
# Dumps

The readable rendering of a form, on one line or as an outline in which every
part has a line of its own, indented by four spaces a level and ended by a
comma. Texts are quoted; characters that are not visible on their own are shown
by their code.
-/

namespace Michelson.Form

/-- A character of a quoted text. -/
def dumpChar (c : Char) : List Char :=
  if c.toNat = 0 then ['\\', '0']
  else if c = '\t' then ['\\', 't']
  else if c = '\r' then ['\\', 'r']
  else if c = '\n' then ['\\', 'n']
  else if c = '"' then ['\\', '"']
  else if c = '\\' then ['\\', '\\']
  else if Printable.isHidden c then
    '\\' :: 'u' :: '{' :: (Nat.toDigits 16 c.toNat ++ ['}'])
  else [c]

/-- A quoted text. -/
def dumpText (s : String) : List Char :=
  '"' :: (s.toList.flatMap dumpChar ++ ['"'])

/-- Parts on one line, with commas between them. -/
def commaSeparated : List (List Char) → List Char
  | [] => []
  | [part] => part
  | part :: parts => part ++ ',' :: ' ' :: commaSeparated parts

/-- Labels before their parts. -/
def withLabels : List String → List (List Char) → List (List Char)
  | label :: labels, part :: parts =>
    (label.toList ++ ':' :: ' ' :: part) :: withLabels labels parts
  | _, _ => []

mutual

/-- A form on one line. -/
def dumpLine : Form → List Char
  | .variant name [] => name.toList
  | .variant name (part :: parts) =>
    name.toList ++ '(' :: (commaSeparated (dumpLine part :: dumpLines parts) ++ [')'])
  | .record name labels parts =>
    name.toList ++ ' ' :: '{' :: ' ' ::
      (commaSeparated (withLabels labels (dumpLines parts)) ++ [' ', '}'])
  | .labelled name labels parts =>
    name.toList ++ ' ' :: '{' :: ' ' ::
      (commaSeparated (withLabels labels (dumpLines parts)) ++ [' ', '}'])
  | .list items => '[' :: (commaSeparated (dumpLines items) ++ [']'])
  | .note sigil none => sigil.label.toList ++ "(None)".toList
  | .note sigil (some body) =>
    sigil.label.toList ++ "(Some(".toList ++ dumpText body ++ "))".toList
  | .text s => dumpText s
  | .integer z => Numeral.signedDecimal z
  | .number n => Numeral.decimal n

/-- Forms, each on one line. -/
def dumpLines : List Form → List (List Char)
  | [] => []
  | form :: forms => dumpLine form :: dumpLines forms

end

/-- A line break and the blanks of an indentation level. -/
def newLine (level : Nat) : List Char :=
  '\n' :: List.replicate (4 * level) ' '

/-- Parts between brackets in an outline, each on a line of its own. -/
def indented (level : Nat) (opening closing : Char) (parts : List (List Char)) : List Char :=
  opening :: (parts.flatMap (fun part => newLine (level + 1) ++ part ++ [',']) ++
    newLine level ++ [closing])

mutual

/-- A form as an outline at an indentation level. -/
def dumpTree (level : Nat) : Form → List Char
  | .variant name [] => name.toList
  | .variant name (part :: parts) =>
    name.toList ++
      indented level '(' ')' (dumpTree (level + 1) part :: dumpTrees (level + 1) parts)
  | .record name labels parts =>
    name.toList ++ ' ' ::
      indented level '{' '}' (withLabels labels (dumpTrees (level + 1) parts))
  | .labelled name labels parts =>
    name.toList ++ ' ' ::
      indented level '{' '}' (withLabels labels (dumpTrees (level + 1) parts))
  | .list [] => ['[', ']']
  | .list (item :: items) =>
    indented level '[' ']' (dumpTree (level + 1) item :: dumpTrees (level + 1) items)
  | .note sigil none => sigil.label.toList ++ indented level '(' ')' ["None".toList]
  | .note sigil (some body) =>
    sigil.label.toList ++
      indented level '(' ')' ["Some".toList ++ indented (level + 1) '(' ')' [dumpText body]]
  | .text s => dumpText s
  | .integer z => Numeral.signedDecimal z
  | .number n => Numeral.decimal n

/-- Forms as outlines at an indentation level. -/
def dumpTrees (level : Nat) : List Form → List (List Char)
  | [] => []
  | form :: forms => dumpTree level form :: dumpTrees level forms

end

/-- A form on one line. -/
def line (form : Form) : String := String.ofList (dumpLine form)

/-- A form as an outline. -/
def outline (form : Form) : String := String.ofList (dumpTree 0 form)

end Michelson.Form
