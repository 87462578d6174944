import Michelson.Proofs.RoundTrip
import Michelson.Proofs.Scans

/-!
# Strings in source text

What is written between double quotes is decoded by the rule for strings, in a text on its own
and wherever the rule is run.

* `Grammar.stringLiteral_breaks` says that the faults of a string are fatal.
* `strings_decode_exactly` puts the reader together with the relation between strings and what
  is written for them.
-/

namespace Michelson

open Rule Grammar

namespace Grammar

open Literal Cursor

variable {limit : Option Nat} {s : State} {w x tail : List Char} {e : Error}

/-- **Faults are fatal.** The rule halts with the error, whatever stands behind the fault. -/
theorem stringLiteral_breaks (h : Writes w x)
    (hb : Breaks s.cursor.position (s.cursor.position.after ('"' :: w)) tail e)
    (hs : s.cursor.rest = '"' :: (w ++ tail)) :
    stringLiteral limit s = raise e limit s := by
  have hpass : s.cursor.Passes ['"'] (s.cursor.skip 1) := passes_skip hs
  have hbody : stringBody s.cursor.position ((w ++ tail).length + 1) (s.cursor.skip 1) =
      .error e := by
    have hone : (s.cursor.skip 1).rest = w ++ tail := rest_skip (w := ['"']) hs
    refine h.stringBody_broken ?_ hone ?_
    · rw [hpass.2]
      exact hb
    · exact Nat.lt_succ_of_le (h.length_le.trans (List.sublist_append_left w tail).length_le)
  have hscan : passString s.cursor = .error e := by
    rw [passString, hs]
    exact hbody
  rw [stringLiteral_eq_scanning, peek?_bind, hs]
  refine bind_halt (t := s.log (.raised e)) ?_
  rw [scanning, hscan]

/-- At a quote the rule for values halts where the rule for strings does. -/
theorem value_breaks (hq : s.cursor.rest.head? = some '"')
    (h : ∀ t : State, t.cursor = s.cursor → (stringLiteral none t).verdict = .halt (.error e)) :
    (Knot.full.value none s).verdict = .halt (.error e) := by
  obtain ⟨cs, hcs⟩ := List.head?_eq_some_iff.mp hq
  let deep : State := { s with depth := s.depth + 1 }
  obtain ⟨u, hu⟩ : ∃ u, integerLiteral none deep = ⟨.miss, u⟩ := by
    rw [integerLiteral_eq, lexical_run, show deep.cursor.rest = '"' :: cs from hcs,
      lookInteger_cons (by decide) (by decide)]
    exact ⟨_, rfl⟩
  have hinteger : Rule.optional integerLiteral none deep =
      ⟨.ok none, { u with cursor := s.cursor }⟩ := by
    rw [Rule.optional, hu]
  have hplain : (plainValue Knot.full none deep).verdict = .halt (.error e) := by
    rw [plainValue, firstOf, bind_ok hinteger]
    exact bind_halts (optional_halts (h { u with cursor := s.cursor } rfl))
  rw [← valueRule_full, valueRule_eq, nested_none, deeper]
  refine attempt_halts ?_
  rw [unlessOpen_run, if_neg (by rw [hcs]; simp)]
  exact hplain

end Grammar

section Parsing

open Literal

variable {front back w x tail : List Char}

theorem parse_writes (h : Writes w x) (hf : IsLayout front) (hb : IsLayout back) :
    Data.parse (String.ofList (front ++ '"' :: (w ++ '"' :: back))) =
      .ok (.string (String.ofList x)) := by
  have hwritten := written_stringLiteral (s := .plain) h
  rw [Style.around_plain] at hwritten
  have htext : front ++ (Token.string w).text ++ back = front ++ '"' :: (w ++ '"' :: back) := by
    simp [Token.text]
  rw [← htext]
  exact Data.parse_token hwritten hf hb

theorem parse_breaks {e : Error} (h : Writes w x) (hf : IsLayout front)
    (hb : Breaks (Position.start.after front) (Position.start.after (front ++ '"' :: w)) tail e) :
    Data.parse (String.ofList (front ++ '"' :: (w ++ tail))) = .error e := by
  have hfills : Layout.Fills front ('"' :: (w ++ tail)) :=
    Layout.fills_of_isLayout hf (Layout.fills_nil_cons (by decide) (by decide) (by decide) _)
  let s := State.initial (front ++ '"' :: (w ++ tail))
  have hrest : (s.past front).cursor.rest = '"' :: (w ++ tail) := State.rest_past rfl
  have hposition : (s.past front).cursor.position = Position.start.after front :=
    (Cursor.passes_skip (c := s.cursor) rfl).2
  have hvalue : (Knot.full.value none (s.past front)).verdict = .halt (.error e) := by
    refine value_breaks (by rw [hrest]; rfl) fun t ht => ?_
    rw [stringLiteral_breaks h (by rwa [ht, hposition, ← Position.after_append])
      (by rw [ht, hrest])]
    rfl
  rw [Data.parse, String.toList_ofList, run_eq_full respected_value,
    whole_of_layout _ (layout_past hfills (s := s) rfl none), Reply.result, bind_halts hvalue]

end Parsing

/-- **Strings are decoded exactly.** Each string can be written between double quotes, and in
whatever way it is written, it is read as this string. All the digits behind the opening of a
code are taken, and the character is the one that has the number for its code, however many
digits there are; if there is none, that is an error behind the backslash. So is what is no
escape at all, and an opening of a code without digits; a string that is not closed is an error
at its quote. The rule for strings halts with these errors, and so does a run over the whole
text. Nothing else can stand behind an opening quote. -/
theorem strings_decode_exactly :
    (∀ x, ∃ w, Literal.Writes w x) ∧
    (∀ front back w x, IsLayout front → IsLayout back → Literal.Writes w x →
      Data.parse (String.ofList (front ++ '"' :: (w ++ '"' :: back))) =
        .ok (.string (String.ofList x))) ∧
    (∀ (radix : Literal.Radix) (digits behind : List Char) (c : Cursor),
      Literal.IsCode radix digits behind → c.rest = radix.letter ++ (digits ++ behind) →
      (∀ ch : Char, ch.toNat = Numeral.value radix.base digits →
        Literal.escape c = .ok (ch, c.skip (radix.letter ++ digits).length)) ∧
      ((∀ ch : Char, ch.toNat ≠ Numeral.value radix.base digits) →
        Literal.escape c = .error (.lexical c.position (.noSuchCharacter
          (min Literal.codeCap (Numeral.value radix.base digits)))))) ∧
    (∀ (limit : Option Nat) (s : State) (w x tail : List Char) (e : Error), Literal.Writes w x →
      s.cursor.rest = '"' :: (w ++ tail) →
      Literal.Breaks s.cursor.position (s.cursor.position.after ('"' :: w)) tail e →
      stringLiteral limit s = ⟨.halt (.error e), s.log (.raised e)⟩) ∧
    (∀ (front w x tail : List Char) (e : Error), IsLayout front → Literal.Writes w x →
      Literal.Breaks (Position.start.after front) (Position.start.after (front ++ '"' :: w)) tail e →
      Data.parse (String.ofList (front ++ '"' :: (w ++ tail))) = .error e) ∧
    ∀ text, ∃ w x tail, text = w ++ tail ∧ Literal.Writes w x ∧
      ((∃ behind, tail = '"' :: behind) ∨ ∀ start p, ∃ e, Literal.Breaks start p tail e) := by
  refine ⟨fun x => ⟨_, Literal.writes_writtenText x⟩,
    fun front back w x hf hb hw => parse_writes hw hf hb,
    fun radix digits behind c hd hc => ⟨fun ch hch => ?_, fun hno => ?_⟩,
    fun limit s w x tail e hw hs hb => stringLiteral_breaks hw hb hs,
    fun front w x tail e hf hw hb => parse_breaks hw hf hb, Literal.ends⟩
  · rw [Literal.escape_code hd hc, Literal.charOfCode?_eq_some.mpr hch]
  · have hnone : Literal.charOfCode? (Numeral.value radix.base digits) = none :=
      Option.eq_none_iff_forall_ne_some.mpr fun ch hch => hno ch (Literal.charOfCode?_eq_some.mp hch)
    rw [Literal.escape_code hd hc, hnone]

end Michelson
