import Michelson.Source.Token

/-!
# Laid-out source text

What may stand between two tokens, said without the scan that passes it, and the
texts that a list of tokens can be written as. The main statement is
`Layout.scan_append`: the scan passes all of a layout and goes on behind it as
if it began there.
-/

namespace Michelson

/-- The texts that are layout: blanks, line comments with their line feeds, and
closed block comments, in any number and order. -/
inductive IsLayout : List Char → Prop where
  | empty : IsLayout []
  | blank {c : Char} {cs : List Char} (hc : isBlank c = true) (h : IsLayout cs) :
      IsLayout (c :: cs)
  | line {comment cs : List Char} (hn : '\n' ∉ comment) (h : IsLayout cs) :
      IsLayout ('#' :: (comment ++ '\n' :: cs))
  | block {comment cs : List Char} (hn : ¬['*', '/'] <:+: comment) (h : IsLayout cs) :
      IsLayout ('/' :: '*' :: (comment ++ '*' :: '/' :: cs))

/-- The texts that lay out a list of tokens: any layout in front and at the end,
and between neighbours a layout that is not empty. -/
inductive LaysOut : List Token → List Char → Prop where
  | layout {cs : List Char} (h : IsLayout cs) : LaysOut [] cs
  | last {front cs : List Char} {t : Token} (hf : IsLayout front) (h : IsLayout cs) :
      LaysOut [t] (front ++ t.text ++ cs)
  | cons {front gap cs : List Char} {t u : Token} {ts : List Token} (hf : IsLayout front)
      (hg : IsLayout gap) (hne : gap ≠ []) (h : LaysOut (u :: ts) cs) :
      LaysOut (t :: u :: ts) (front ++ t.text ++ gap ++ cs)

namespace Layout

/-- A blank is passed. -/
theorem scan_blank {c : Char} (hc : isBlank c = true) (cs : List Char) (p : Position) :
    scan .plain (c :: cs) p = scan .plain cs (p.advance c) := by
  simp [scan, hc]

/-- A line comment is passed with its line feed. -/
theorem scan_line {comment : List Char} (hn : '\n' ∉ comment) (cs : List Char) (p : Position) :
    scan .line (comment ++ '\n' :: cs) p = scan .plain cs (p.after (comment ++ ['\n'])) := by
  induction comment generalizing p with
  | nil => simp [scan]
  | cons c comment ih =>
    obtain ⟨hc, hn⟩ := List.ne_and_not_mem_of_not_mem_cons hn
    simp [scan, Ne.symm hc, ih hn]

/-- A block comment is passed up to the first place that closes it. -/
theorem scan_block {start : Position} {comment : List Char}
    (hn : ¬['*', '/'] <:+: comment) (cs : List Char) (p : Position) :
    scan (.block start) (comment ++ '*' :: '/' :: cs) p =
      scan .plain cs (p.after (comment ++ ['*', '/'])) := by
  induction comment generalizing p with
  | nil => simp [scan]
  | cons c comment ih =>
    have hopen : ¬(c = '*' ∧ (comment ++ '*' :: '/' :: cs).head? = some '/') := by
      rintro ⟨rfl, hd⟩
      cases comment with
      | nil => simp at hd
      | cons d comment =>
        obtain rfl : d = '/' := by simpa using hd
        exact hn ⟨[], comment, by simp⟩
    rw [List.cons_append, scan, if_neg hopen, ih fun h => hn (List.infix_cons h)]
    simp

/-- **Passing layout.** The scan passes all of a layout and goes on behind it as if
it began there. -/
theorem scan_append {front : List Char} (h : IsLayout front) (cs : List Char) (p : Position) :
    scan .plain (front ++ cs) p = scan .plain cs (p.after front) := by
  induction h generalizing p with
  | empty => simp
  | blank hc _ ih => simp [scan_blank hc, ih]
  | line hn _ ih =>
    have hash : isBlank '#' = false := by decide
    simp [scan, hash, scan_line hn, ih, Position.after_append]
  | block hn _ ih =>
    have slash : isBlank '/' = false := by decide
    simp [scan, slash, scan_block hn, ih, Position.after_append]

end Layout

end Michelson
