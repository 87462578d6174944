import Michelson.Command.Run
import Michelson.Proofs.Messages

/-!
# Lines that tell of an error

A run ends what it writes about itself with one line about its failure. The message in it may
have a line feed of its own, for a message quotes characters of the text; and before the line
stand the records that are shown.

* `Error.TellsOnly.isTame_message` says that no further line of a message tells of an error.
* `Command.errorLines_line` counts the lines about a failure.
* `Command.isSilent_record` says that the lines of a record tell of none.
-/

namespace Michelson

/-! ## Lines -/

namespace Log

variable {separator : Char} {cs : List Char}

/-- There is always a part, if only an empty one. -/
theorem splitAt_ne_nil (separator : Char) (cs : List Char) : splitAt separator cs ≠ [] := by
  cases cs with
  | nil => exact List.cons_ne_nil _ _
  | cons c cs =>
    rw [splitAt]
    split
    · exact List.cons_ne_nil _ _
    · split <;> exact List.cons_ne_nil _ _

/-- What is free of separators is the first part. -/
theorem splitAt_append (h : separator ∉ cs) (ds : List Char) :
    splitAt separator (cs ++ separator :: ds) = cs :: splitAt separator ds := by
  induction cs with
  | nil =>
    rw [List.nil_append, splitAt]
    cases hds : splitAt separator ds with
    | nil => exact absurd hds (splitAt_ne_nil separator ds)
    | cons part parts => exact if_pos rfl
  | cons c cs ih =>
    obtain ⟨hc, hcs⟩ := List.ne_and_not_mem_of_not_mem_cons h
    rw [List.cons_append, splitAt, ih hcs]
    exact if_neg hc.symm

/-! Removing control sequences changes no text of printable characters, and line feeds stay. -/

/-- What is shown was there. -/
theorem mem_of_mem_visible {inSequence : Bool} {c : Char} (h : c ∈ visible inSequence cs) :
    c ∈ cs := by
  induction cs generalizing inSequence with
  | nil => exact h
  | cons d cs ih =>
    have hcons {inSequence : Bool} (h : c ∈ d :: visible inSequence cs) : c ∈ d :: cs := by
      rcases List.mem_cons.mp h with rfl | hcs
      · exact List.mem_cons_self
      · exact List.mem_cons_of_mem d (ih hcs)
    rw [visible] at h
    split at h
    · exact List.mem_cons_of_mem d (ih h)
    · split at h
      · exact hcons h
      · split at h
        · exact List.mem_cons_of_mem d (ih h)
        · split at h
          · exact List.mem_cons_of_mem d (ih h)
          · exact hcons h

/-- A line feed at the end is shown, whatever stands in front of it. -/
theorem visible_concat (inSequence : Bool) (cs : List Char) :
    visible inSequence (cs ++ ['\n']) = visible inSequence cs ++ ['\n'] := by
  induction cs generalizing inSequence with
  | nil => cases inSequence <;> rfl
  | cons c cs ih =>
    rw [List.cons_append, visible, visible]
    simp only [ih]
    split_ifs <;> rfl

/-- A printable character is shown. -/
theorem visible_cons {c : Char} (h : isWording c = true) (cs : List Char) :
    visible false (c :: cs) = c :: visible false cs := by
  rw [isWording, Bool.and_eq_true, decide_eq_true_eq, decide_eq_true_eq] at h
  have hne {d : Char} (hd : d.toNat < 0x20) : c ≠ d := by
    rintro rfl
    omega
  rw [visible, if_neg (by omega), if_neg, if_neg (by omega), if_neg Bool.false_ne_true]
  rintro (rfl | rfl | rfl | hc)
  · exact hne (by decide) rfl
  · exact hne (by decide) rfl
  · exact hne (by decide) rfl
  · omega

/-- Fixed wording is shown as it is. -/
theorem visible_append (h : IsWorded [] cs) (ds : List Char) :
    visible false (cs ++ ds) = cs ++ visible false ds := by
  induction cs with
  | nil => rfl
  | cons c cs ih =>
    obtain ⟨hc, hcs⟩ := isWorded_cons.mp h
    rw [List.cons_append, visible_cons (hc.resolve_right List.not_mem_nil), ih hcs,
      List.cons_append]

/-- A line feed is shown inside a control sequence as well. -/
theorem visible_newline (inSequence : Bool) (cs : List Char) :
    visible inSequence ('\n' :: cs) = '\n' :: visible inSequence cs := by
  rw [visible, if_neg (by decide), if_pos (by decide)]

/-- A text of one line is not indented. -/
theorem indentLines_of_not_mem (h : '\n' ∉ cs) : indentLines cs = cs := by
  induction cs with
  | nil => rfl
  | cons c cs ih =>
    obtain ⟨hc, hcs⟩ := List.ne_and_not_mem_of_not_mem_cons h
    rw [indentLines, List.flatMap_cons, if_neg hc.symm]
    exact congrArg (c :: ·) (ih hcs)

theorem indentLines_append (cs ds : List Char) :
    indentLines (cs ++ ds) = indentLines cs ++ indentLines ds := List.flatMap_append

end Log

namespace Command

/-- How many lines of a text begin as the line about a failure does. -/
def errorLines (cs : List Char) : Nat :=
  (Log.splitAt '\n' cs).countP fun line => "error:".toList.isPrefixOf line

variable {cs ds line : List Char}

/-- A line in front is one about an error or not. -/
theorem errorLines_append (h : '\n' ∉ line) :
    errorLines (line ++ '\n' :: cs) =
      (if "error:".toList.isPrefixOf line then 1 else 0) + errorLines cs := by
  rw [errorLines, Log.splitAt_append h, List.countP_cons, Nat.add_comm]
  rfl

/-- The lines of the text are complete, and none of them tells of an error. -/
def IsSilent (cs : List Char) : Prop := ∀ ds, errorLines (cs ++ ds) = errorLines ds

/-- Without lines, no line tells of an error. -/
theorem isSilent_nil : IsSilent [] := fun _ => rfl

/-- Complete lines may be put in front of others. -/
theorem IsSilent.append (h : IsSilent cs) (h' : IsSilent ds) : IsSilent (cs ++ ds) := by
  intro more
  rw [List.append_assoc, h, h']

/-- Behind silent lines nothing is left to be counted. -/
theorem IsSilent.eq_zero (h : IsSilent cs) : errorLines cs = 0 := by
  have hnil := h []
  rwa [List.append_nil] at hnil

/-- Lines that are joined are silent if each of them is. -/
theorem isSilent_join {lines : List String} (h : ∀ line ∈ lines, IsSilent line.toList) :
    IsSilent (String.join lines).toList := by
  rw [String.toList_join]
  induction lines with
  | nil => exact isSilent_nil
  | cons line lines ih =>
    obtain ⟨hline, hlines⟩ := List.forall_mem_cons.mp h
    exact hline.append (ih hlines)

/-- A line that begins with another character tells of no error. -/
theorem isSilent_line {c : Char} (hc : c ≠ 'e') (hn : '\n' ∉ c :: line) :
    IsSilent (c :: line ++ ['\n']) := by
  intro more
  have hprefix : "error:".toList.isPrefixOf (c :: line) = false := by
    simp [List.isPrefixOf, hc.symm]
  rw [List.append_assoc, List.singleton_append, errorLines_append hn, hprefix, if_neg (by simp),
    Nat.zero_add]

end Command

/-! ## Messages -/

/-- A line feed is no wording, so it is quoted if it is there. -/
theorem IsWorded.newline_not_mem {quoted cs : List Char} (h : IsWorded quoted cs)
    (hq : '\n' ∉ quoted) : '\n' ∉ cs := by
  intro hmem
  rcases h '\n' hmem with hword | hquoted
  · revert hword
    decide
  · exact hq hquoted

/-- A message with one line feed at most, where the wording goes on behind it with something
else than the word for an error. -/
def IsTame (cs : List Char) : Prop :=
  '\n' ∉ cs ∨ ∃ front back, cs = front ++ '\n' :: back ∧ IsWorded [] front ∧ IsWorded [] back ∧
    back.head? ≠ some 'e'

/-- Fixed wording in front changes neither the lines behind nor how they begin. -/
theorem IsTame.append {front cs : List Char} (hf : IsWorded [] front) (h : IsTame cs) :
    IsTame (front ++ cs) := by
  rcases h with hn | ⟨a, b, rfl, ha, hb, hhead⟩
  · left
    rw [List.mem_append, not_or]
    exact ⟨hf.newline_not_mem List.not_mem_nil, hn⟩
  · exact .inr ⟨front ++ a, b, (List.append_assoc ..).symm, isWorded_append.mpr ⟨hf, ha⟩, hb, hhead⟩

/-- The fixed words around a line feed that is quoted do not begin like the word for an error. -/
theorem LexicalFault.isTame_describe {fault : LexicalFault} (h : fault.quoted = ['\n']) :
    IsTame fault.describe.toList := by
  cases fault with
  | strayCharacter c =>
    obtain rfl : c = '\n' := (List.cons.inj h).1
    exact .inr ⟨"unexpected character '".toList, ['\''], by decide, isWorded_of_all (by decide),
      isWorded_of_all (by decide), by decide⟩
  | unknownEscape c =>
    obtain rfl : c = '\n' := (List.cons.inj h).1
    exact .inr ⟨"invalid escape sequence '\\".toList, ['\''], by decide,
      isWorded_of_all (by decide), isWorded_of_all (by decide), by decide⟩
  | stated text =>
    have htext : text.toList = ['\n'] := h
    exact .inr ⟨[], [], htext, isWorded_nil, isWorded_nil, by decide⟩
  | _ => cases h

/-- So it is with the words around the digits of bytes. -/
theorem LiteralFault.isTame_describe {fault : LiteralFault} (h : fault.quoted = ['\n']) :
    IsTame fault.describe.toList := by
  cases fault with
  | oddHexDigits literal =>
    have hliteral : literal.toList = ['\n'] := h
    refine .inr ⟨"bytes literal `".toList, "` has an odd number of hex digits".toList, ?_,
      isWorded_of_all (by decide), isWorded_of_all (by decide), by decide⟩
    simp [describe, hliteral]
  | stated text =>
    have htext : text.toList = ['\n'] := h
    exact .inr ⟨[], [], htext, isWorded_nil, isWorded_nil, by decide⟩

/-- A terse error that quotes a line feed quotes nothing else. -/
theorem Error.IsTerse.quoted_eq {e : Error} (h : e.IsTerse) (hn : '\n' ∈ e.quoted) :
    e.quoted = ['\n'] := by
  rcases h with hlength | hword
  · obtain ⟨c, hc⟩ := List.length_eq_one_iff.mp
      (le_antisymm hlength (List.length_pos_of_mem hn))
    rw [hc, List.mem_singleton] at hn
    rw [hc, hn]
  · exact absurd (List.all_eq_true.mp hword '\n' hn) (by decide)

/-- **Messages are tame.** -/
theorem Error.TellsOnly.isTame_message {text : String} {e : Error} (h : e.TellsOnly text) :
    IsTame e.message.toList := by
  by_cases hn : '\n' ∈ e.quoted
  · have hquoted := h.terse.quoted_eq hn
    cases e with
    | lexical p fault =>
      have hfront : IsWorded [] ("Lex error at ".toList ++ (p.render.toList ++ ": ".toList)) := by
        simp [isWording]
      have htame := (LexicalFault.isTame_describe hquoted).append hfront
      simpa [message, List.append_assoc] using htame
    | literal p fault =>
      have hfront : IsWorded []
          ("Literal format error at ".toList ++ (p.render.toList ++ ": ".toList)) := by
        simp [isWording]
      have htame := (LiteralFault.isTame_describe hquoted).append hfront
      simpa [message, List.append_assoc] using htame
    | _ => cases hn
  · exact .inl (h.isWorded_message.newline_not_mem hn)

namespace Command

/-- **Records are silent.** The lines of a record tell of no error. -/
theorem isSilent_record {r : Log.Record} (htarget : IsWorded [] r.target.toList)
    (h : IsTame r.message.toList) : IsSilent r.line.toList := by
  obtain ⟨level, target, message⟩ := r
  obtain ⟨front, hfront, hline⟩ : ∃ front, IsWorded [] front ∧
      (Log.Record.line ⟨level, target, message⟩).toList =
        '[' :: Log.visible false (front ++ Log.indentLines message.toList ++ ['\n']) := by
    refine ⟨level.name.toList ++ ' ' :: (target.toList ++ [']', ' ']), ?_, ?_⟩
    · have hname : IsWorded [] level.name.toList := by
        cases level <;> exact isWorded_of_all (by decide)
      simp [hname, htarget, isWording]
    · rw [Log.Record.line, String.toList_ofList, Log.visible_cons (by decide)]
      simp [List.append_assoc]
  rw [hline]
  rcases h with hn | ⟨a, b, hmessage, ha, hb, -⟩
  · rw [Log.indentLines_of_not_mem hn, Log.visible_concat]
    refine isSilent_line (by decide) fun hmem => ?_
    have hmem := Log.mem_of_mem_visible ((List.mem_cons.mp hmem).resolve_left (by decide))
    exact (List.mem_append.mp hmem).elim
      (hfront.newline_not_mem List.not_mem_nil) hn
  · -- the second line is indented, so it begins with a blank
    have hindent : Log.indentLines message.toList = a ++ '\n' :: ("    ".toList ++ b) := by
      have hnewline : Log.indentLines ('\n' :: b) = "\n    ".toList ++ Log.indentLines b := rfl
      rw [hmessage, Log.indentLines_append, hnewline,
        Log.indentLines_of_not_mem (ha.newline_not_mem List.not_mem_nil),
        Log.indentLines_of_not_mem (hb.newline_not_mem List.not_mem_nil)]
      rfl
    have hfirst : IsWorded [] (front ++ a) := isWorded_append.mpr ⟨hfront, ha⟩
    have hsecond : IsWorded [] ("    ".toList ++ b) :=
      isWorded_append.mpr ⟨isWorded_of_all (by decide), hb⟩
    have hshown : Log.visible false (front ++ Log.indentLines message.toList ++ ['\n']) =
        (front ++ a) ++ '\n' :: (("    ".toList ++ b) ++ ['\n']) := by
      calc Log.visible false (front ++ Log.indentLines message.toList ++ ['\n'])
          = Log.visible false ((front ++ a) ++ '\n' :: (("    ".toList ++ b) ++ ['\n'])) := by
            simp [hindent]
        _ = (front ++ a) ++ '\n' :: Log.visible false (("    ".toList ++ b) ++ ['\n']) := by
            rw [Log.visible_append hfirst, Log.visible_newline]
        _ = (front ++ a) ++ '\n' :: (("    ".toList ++ b) ++ ['\n']) := by
            rw [Log.visible_append hsecond]
            rfl
    have hlines : '[' :: ((front ++ a) ++ '\n' :: (("    ".toList ++ b) ++ ['\n'])) =
        ('[' :: (front ++ a) ++ ['\n']) ++ (' ' :: ("   ".toList ++ b) ++ ['\n']) := by simp
    have hbracket : '\n' ∉ '[' :: (front ++ a) :=
      (isWorded_cons.mpr ⟨.inl (by decide), hfirst⟩).newline_not_mem List.not_mem_nil
    rw [hshown, hlines]
    exact (isSilent_line (by decide) hbracket).append
      (isSilent_line (by decide) (hsecond.newline_not_mem List.not_mem_nil))

/-- **One line.** The line about a failure is the only one of its lines that begins so. -/
theorem errorLines_line {front : List Char} (hf : '\n' ∉ front) {message : List Char}
    (h : IsTame message) : errorLines ("error: ".toList ++ (front ++ message) ++ ['\n']) = 1 := by
  have hline {cs : List Char} (hcs : '\n' ∉ cs) (more : List Char) :
      errorLines ("error: ".toList ++ (front ++ cs) ++ '\n' :: more) = 1 + errorLines more := by
    refine (errorLines_append ?_).trans ?_
    · simp [hf, hcs]
    · rfl
  rcases h with hn | ⟨a, b, rfl, ha, hb, hhead⟩
  · exact hline hn []
  · -- a line feed that is quoted ends the line, and the wording goes on in another one
    have hrest : errorLines (b ++ ['\n']) = 0 := by
      rcases b with _ | ⟨c, b⟩
      · decide
      · refine (isSilent_line (fun hc => hhead (by rw [hc]; rfl)) ?_).eq_zero
        exact hb.newline_not_mem List.not_mem_nil
    have hsplit := hline (ha.newline_not_mem List.not_mem_nil) (b ++ ['\n'])
    rw [hrest] at hsplit
    simpa [List.append_assoc] using hsplit

end Command

end Michelson
