import Mathlib.Data.List.TakeWhile
import Michelson.Grammar.Notes
import Michelson.Proofs.Gap
import Michelson.Proofs.Numerals

/-!
# Lexemes

A lexeme is a token with the layout behind it. A text that rules can read is a
run of lexemes after some layout; how it is cut into lexemes depends on what
follows each of them, so the predicates here look at the text behind.

* `Note.scan_append` says when the text of a note is read up to its end.
* `Lexeme.Fits` says that a lexeme ends where it should.
* `LaysOut.lexemes` cuts a laid-out list of tokens into lexemes.
-/

namespace Michelson

/-! ## Tokens and what follows them -/

/-- The codes of digits lie in a row. -/
theorem isDigit_bounds {c : Char} (h : c.isDigit = true) : 48 ≤ c.toNat ∧ c.toNat ≤ 57 := by
  simpa only [Char.isDigit, Bool.and_eq_true, decide_eq_true_eq, UInt32.le_iff_toNat_le, ge_iff_le,
    Char.reduceVal, UInt32.reduceToNat, Char.toNat_val] using h

/-- A letter is one of the capitals or of the small letters. -/
theorem isAlpha_iff {c : Char} : c.isAlpha = true ↔
    (65 ≤ c.toNat ∧ c.toNat ≤ 90) ∨ (97 ≤ c.toNat ∧ c.toNat ≤ 122) := by
  have h : c.isAlpha = (decide (c.val ≥ 'A'.val ∧ c.val ≤ 'Z'.val) ||
    (decide (c.val ≥ 'a'.val) && decide (c.val ≤ 'z'.val))) := rfl
  rw [h]
  simp only [Bool.or_eq_true, Bool.and_eq_true, decide_eq_true_eq, UInt32.le_iff_toNat_le,
    ge_iff_le, Char.reduceVal, UInt32.reduceToNat, Char.toNat_val]

/-- The codes of letters lie in two rows, with a few others in between. -/
theorem isAlpha_bounds {c : Char} (h : c.isAlpha = true) : 65 ≤ c.toNat ∧ c.toNat ≤ 122 := by
  have := isAlpha_iff.mp h
  omega

/-- All codes of words lie between those of the first digit and the last letter. -/
theorem isWordChar_bounds {c : Char} (h : isWordChar c = true) : 48 ≤ c.toNat ∧ c.toNat ≤ 122 := by
  simp only [isWordChar, Char.isAlphanum, Bool.or_eq_true, beq_iff_eq] at h
  rcases h with (h | h) | rfl
  · have := isAlpha_bounds h
    omega
  · have := isDigit_bounds h
    omega
  · decide

/-- Digits are no letters. -/
theorem isAlpha_of_isDigit {c : Char} (h : c.isDigit = true) : c.isAlpha = false := by
  rw [Bool.eq_false_iff]
  intro ha
  have := isDigit_bounds h
  have := isAlpha_bounds ha
  omega

/-- Where passing ends, the next character is not one to be passed. -/
theorem head?_dropWhile_all (p : Char → Bool) (cs : List Char) :
    ((cs.dropWhile p).head?.all fun c => !p c) = true := by
  have h := List.head?_dropWhile_not p cs
  rcases hd : (cs.dropWhile p).head? with _ | c
  · rfl
  · rw [hd] at h
    simpa using h

theorem endsWord_eq (cs : List Char) : endsWord cs = cs.head?.all fun c => !isWordChar c := by
  cases cs <;> rfl

/-- No character of a word is a blank. -/
theorem isBlank_of_isWordChar {c : Char} (h : isWordChar c = true) : isBlank c = false := by
  have hn := isWordChar_bounds h
  simp only [isBlank, Bool.or_eq_false_iff, Bool.and_eq_false_iff, decide_eq_false_iff_not,
    beq_eq_false_iff_ne]
  omega

namespace Note

/-- A body is one of the markers, and characters that may follow it. -/
theorem isBody_iff {body : List Char} :
    isBody body = true ↔ ∃ m ∈ markers, ∃ cs, body = m ++ cs ∧ cs.all isBodyChar = true := by
  simp only [isBody, List.any_eq_true, Bool.and_eq_true, List.isPrefixOf_iff_prefix]
  refine exists_congr fun m => and_congr_right fun _ => ?_
  constructor
  · rintro ⟨⟨cs, rfl⟩, hcs⟩
    rw [List.drop_left] at hcs
    exact ⟨cs, rfl, hcs⟩
  · rintro ⟨cs, rfl, hcs⟩
    rw [List.drop_left]
    exact ⟨List.prefix_append m cs, hcs⟩

/-- What begins the text of a note is the text of a note. -/
theorem isBody_of_append {cs ds : List Char} (h : isBody (cs ++ ds) = true) :
    isBody cs = true := by
  obtain ⟨m, hm, es, heq, hes⟩ := isBody_iff.mp h
  rcases List.append_eq_append_iff.mp heq with ⟨fs, rfl, rfl⟩ | ⟨fs, rfl, rfl⟩
  · -- the text ends within the marker
    have hshort : ∀ m ∈ markers, m.length ≤ 2 ∧ ∀ n < 3, isBody (m.take n) = true := by decide
    obtain ⟨hlen, htake⟩ := hshort _ hm
    rw [List.length_append] at hlen
    have hcs := htake cs.length (by omega)
    rwa [List.take_left] at hcs
  · rw [List.all_append, Bool.and_eq_true] at hes
    exact isBody_iff.mpr ⟨m, hm, fs, rfl, hes.1⟩

/-- The marker that is found is one of those that there are. -/
theorem marker_mem (cs : List Char) : marker cs ∈ markers := by
  unfold marker
  split <;> decide

theorem marker_begins (cs : List Char) : marker cs <+: cs := by
  unfold marker
  split
  exacts [⟨_, rfl⟩, ⟨_, rfl⟩, ⟨_, rfl⟩, ⟨_, rfl⟩]

/-- No marker that a text begins with is longer than its marker. -/
theorem length_le_marker {m cs : List Char} (hm : m ∈ markers) (h : m <+: cs) :
    m.length ≤ (marker cs).length := by
  obtain ⟨ds, rfl⟩ := h
  simp only [markers, List.mem_cons, List.not_mem_nil, or_false] at hm
  rcases hm with rfl | rfl | rfl | rfl
  · exact Nat.zero_le _
  · exact Nat.le_refl 2
  · exact Nat.le_refl 1
  · change 1 ≤ (marker ('%' :: ds)).length
    unfold marker
    split
    · exact Nat.le_succ 1
    · exact Nat.le_refl 1
    · rename_i heq
      cases heq
    · rename_i hne _
      exact absurd rfl (hne ds)

/-- What is read as the text of a note is one, and cannot go on. -/
theorem isBody_scan (cs : List Char) : isBody (scan cs) = true ∧ ∃ tail, cs = scan cs ++ tail ∧
    ∀ c, tail.head? = some c → isBody (scan cs ++ [c]) = false := by
  have hdrop : cs = marker cs ++ cs.drop (marker cs).length :=
    (List.prefix_iff_eq_append.mp (marker_begins cs)).symm
  have hsplit : cs = scan cs ++ (cs.drop (marker cs).length).dropWhile isBodyChar := by
    rw [scan, List.append_assoc, List.takeWhile_append_dropWhile]
    exact hdrop
  refine ⟨isBody_iff.mpr ⟨_, marker_mem cs, _, rfl, List.all_takeWhile⟩, _, hsplit, fun c hc => ?_⟩
  have hcbody : isBodyChar c = false := by
    have := List.head?_dropWhile_not isBodyChar (cs.drop (marker cs).length)
    rw [hc] at this
    simpa using this
  obtain ⟨tail, htail⟩ := List.head?_eq_some_iff.mp hc
  rw [Bool.eq_false_iff]
  intro hbody
  obtain ⟨m, hm, ds, heq, hds⟩ := isBody_iff.mp hbody
  rcases List.eq_nil_or_concat ds with rfl | ⟨ds, d, rfl⟩
  · -- the next character would belong to a longer marker
    rw [List.append_nil] at heq
    rw [htail] at hsplit
    have hpre : m <+: cs := ⟨tail, by rw [← heq, List.append_assoc]; exact hsplit.symm⟩
    have hlen := length_le_marker hm hpre
    rw [← heq, scan, List.length_append, List.length_append, List.length_singleton] at hlen
    omega
  · rw [List.concat_eq_append, ← List.append_assoc] at heq
    obtain rfl : c = d := by simpa using (List.append_inj' heq rfl).2
    simp [hcbody] at hds

/-- The text of a note is read up to its end where it cannot go on. -/
theorem scan_append {body tail : List Char} (h : isBody body = true)
    (ht : ∀ c, tail.head? = some c → isBody (body ++ [c]) = false) : scan (body ++ tail) = body := by
  obtain ⟨hscan, tail', heq, ht'⟩ := isBody_scan (body ++ tail)
  -- the longer of the two would be the shorter one, continued
  rcases List.append_eq_append_iff.mp heq with ⟨ds, hds, rfl⟩ | ⟨ds, hds, rfl⟩
  · cases ds with
    | nil => rw [hds, List.append_nil]
    | cons d ds =>
      have hlong := ht d rfl
      rw [hds, ← List.singleton_append, ← List.append_assoc] at hscan
      rw [isBody_of_append hscan] at hlong
      cases hlong
  · cases ds with
    | nil => exact (hds.trans (List.append_nil _)).symm
    | cons d ds =>
      have hlong := ht' d rfl
      rw [hds, ← List.singleton_append, ← List.append_assoc] at h
      rw [isBody_of_append h] at hlong
      cases hlong

/-- Whether `c` may stand in the text of a note, its marker included. -/
def isNoteChar (c : Char) : Bool := isBodyChar c || c == '%' || c == '@'

/-- All characters of a body are among those that a note may have. -/
theorem isNoteChar_of_isBody {body : List Char} (h : isBody body = true) :
    ∀ c ∈ body, isNoteChar c = true := by
  obtain ⟨m, hm, cs, rfl, hcs⟩ := isBody_iff.mp h
  have hmarkers : ∀ m ∈ markers, m.all isNoteChar = true := by decide
  intro c hc
  rcases List.mem_append.mp hc with hc | hc
  · exact List.all_eq_true.mp (hmarkers m hm) c hc
  · simp [isNoteChar, List.all_eq_true.mp hcs c hc]

end Note

namespace Token

/-- Whether a token ends before the next character, or at the end of the text. -/
def endsBefore (next : Option Char) : Token → Bool
  | word _ => next.all fun c => !isWordChar c
  | integer _ _ => next.all fun c => !isWordChar c
  | bytes _ => next.all fun c => !isWordChar c
  | string _ => true
  | note _ body => next.all fun c => mayFollowNote c && !Note.isBody (body ++ [c])
  | mark _ => true

/-- Whether a token may begin with a character: no layout does. -/
def begins (c : Char) : Bool := !isBlank c && c != '#' && c != '/'

/-- A word begins with one of the characters with which tokens begin. -/
theorem begins_of_isWordChar {c : Char} (h : isWordChar c = true) : begins c = true := by
  have hn := isWordChar_bounds h
  have hl : c ≠ '#' := by
    rintro rfl
    revert hn
    decide
  have hs : c ≠ '/' := by
    rintro rfl
    revert hn
    decide
  simp [begins, isBlank_of_isWordChar h, hl, hs]

theorem begins_of_isNoteChar {c : Char} (h : Note.isNoteChar c = true) : begins c = true := by
  simp only [Note.isNoteChar, Note.isBodyChar, Bool.or_eq_true, beq_iff_eq] at h
  rcases h with ((((h | rfl) | rfl) | rfl) | rfl) | rfl
  · exact begins_of_isWordChar (by simp [isWordChar, h])
  all_goals decide

theorem isWordChar_of_isAlpha {c : Char} (h : c.isAlpha = true) : isWordChar c = true := by
  simp [isWordChar, Char.isAlphanum, h]

theorem isWordChar_of_isDigit {c : Char} (h : c.isDigit = true) : isWordChar c = true := by
  simp [isWordChar, Char.isAlphanum, h]

/-- A valid word begins with a letter and goes on with word characters. -/
theorem isValid_word {letters : List Char} : (word letters).isValid = true ↔
    ∃ c cs, letters = c :: cs ∧ c.isAlpha = true ∧ cs.all isWordChar = true := by
  cases letters with
  | nil =>
    constructor
    · intro h
      cases h
    · rintro ⟨c, cs, h, -⟩
      cases h
  | cons c cs =>
    rw [isValid, beq_iff_eq, word?]
    constructor
    · intro h
      split at h
      · rename_i hc
        have hcs := (List.cons.inj (Option.some.inj h)).2
        refine ⟨c, cs, rfl, hc, ?_⟩
        rw [← hcs]
        exact List.all_takeWhile
      · cases h
    · rintro ⟨_, _, heq, hc, hcs⟩
      obtain ⟨rfl, rfl⟩ := List.cons.inj heq
      rw [if_pos hc, List.takeWhile_eq_self_iff.mpr (List.all_eq_true.mp hcs)]

/-- A valid token begins with a character with which no layout begins. -/
theorem exists_text_eq {t : Token} (h : t.isValid = true) :
    ∃ c cs, t.text = c :: cs ∧ begins c = true := by
  cases t with
  | word letters =>
    obtain ⟨c, cs, rfl, hc, -⟩ := isValid_word.mp h
    exact ⟨c, cs, rfl, begins_of_isWordChar (isWordChar_of_isAlpha hc)⟩
  | integer negative digits =>
    simp only [isValid, Bool.and_eq_true, Bool.not_eq_true'] at h
    cases negative with
    | true => exact ⟨'-', digits, rfl, by decide⟩
    | false =>
      cases digits with
      | nil => cases h.1
      | cons d digits =>
        have hd := List.all_eq_true.mp h.2 d List.mem_cons_self
        exact ⟨d, digits, rfl, begins_of_isWordChar (isWordChar_of_isDigit hd)⟩
  | bytes digits => exact ⟨'0', _, rfl, by decide⟩
  | string written => exact ⟨'"', _, rfl, by decide⟩
  | note σ body =>
    refine ⟨σ.char, body, rfl, ?_⟩
    cases σ <;> decide
  | mark c =>
    refine ⟨c, [], rfl, ?_⟩
    have hmarks : ∀ c ∈ ['{', '}', '(', ')', ';'], begins c = true :=
      List.all_eq_true.mp (by decide)
    exact hmarks c (by simpa [isValid] using h)

/-- A valid token has a character at least. -/
theorem text_ne_nil {t : Token} (h : t.isValid = true) : t.text ≠ [] := by
  obtain ⟨c, cs, heq, -⟩ := exists_text_eq h
  rw [heq]
  exact List.cons_ne_nil c cs

/-- No layout stands between a token and its first character. -/
theorem fills_text {t : Token} (h : t.isValid = true) (cs : List Char) :
    Layout.Fills [] (t.text ++ cs) := by
  obtain ⟨c, ds, heq, hc⟩ := exists_text_eq h
  simp only [begins, Bool.and_eq_true, Bool.not_eq_true', bne_iff_ne] at hc
  rw [heq, List.cons_append]
  exact Layout.fills_nil_cons hc.1.1 hc.1.2 hc.2 _

/-- Every token ends before a layout. -/
theorem endsBefore_of_isLayout {t : Token} (h : t.isValid = true) {gap : List Char}
    (hg : IsLayout gap) (hne : gap ≠ []) (cs : List Char) :
    t.endsBefore (gap ++ cs).head? = true := by
  obtain ⟨c, gap, rfl⟩ := List.exists_cons_of_ne_nil hne
  have hbegins : begins c = false := by
    rcases hg.head with hc | rfl | rfl
    · simp [begins, hc]
    · decide
    · decide
  have hword : isWordChar c = false := by
    rw [Bool.eq_false_iff]
    intro hw
    rw [begins_of_isWordChar hw] at hbegins
    cases hbegins
  cases t with
  | word letters => simp [endsBefore, hword]
  | integer negative digits => simp [endsBefore, hword]
  | bytes digits => simp [endsBefore, hword]
  | string written => rfl
  | note σ body =>
    have hfollow : mayFollowNote c = true := by
      rcases hg.head with hc | rfl | rfl
      · simp [mayFollowNote, hc]
      · decide
      · decide
    have hbody : Note.isBody (body ++ [c]) = false := by
      rw [Bool.eq_false_iff]
      intro hb
      rw [begins_of_isNoteChar (Note.isNoteChar_of_isBody hb c (by simp))] at hbegins
      cases hbegins
    simp [endsBefore, hfollow, hbody]
  | mark d => rfl

end Token

/-! ## Lexemes -/

/-- A token with the layout behind it. -/
structure Lexeme where
  token : Token
  gap : List Char

namespace Lexeme

/-- The characters of a lexeme. -/
def text (l : Lexeme) : List Char := l.token.text ++ l.gap

/-- Whether a lexeme before the given text ends where that text begins. -/
structure Fits (l : Lexeme) (rest : List Char) : Prop where
  isValid : l.token.isValid = true
  endsBefore : l.token.endsBefore (l.gap ++ rest).head? = true
  fills : Layout.Fills l.gap rest

theorem text_ne_nil {l : Lexeme} (h : l.token.isValid = true) : l.text ≠ [] := by
  intro hnil
  exact Token.text_ne_nil h (List.append_eq_nil_iff.mp hnil).1

end Lexeme

namespace Lexemes

/-- The characters of a run of lexemes. -/
def text (ls : List Lexeme) : List Char := ls.flatMap Lexeme.text

/-- The tokens of a run of lexemes. -/
def tokens (ls : List Lexeme) : List Token := ls.map Lexeme.token

/-- Whether each lexeme of a run before the given text fits. -/
def Fit : List Lexeme → List Char → Prop
  | [], _ => True
  | l :: ls, ending => l.Fits (text ls ++ ending) ∧ Fit ls ending

@[simp]
theorem text_nil : text [] = [] := rfl

@[simp]
theorem text_cons (l : Lexeme) (ls : List Lexeme) : text (l :: ls) = l.text ++ text ls := rfl

/-- The texts of two rows of lexemes follow each other. -/
@[simp]
theorem text_append (ls ms : List Lexeme) : text (ls ++ ms) = text ls ++ text ms :=
  List.flatMap_append

@[simp]
theorem tokens_cons (l : Lexeme) (ls : List Lexeme) : tokens (l :: ls) = l.token :: tokens ls := rfl

@[simp]
theorem tokens_append (ls ms : List Lexeme) : tokens (ls ++ ms) = tokens ls ++ tokens ms :=
  List.map_append

/-- A run of lexemes fits if its beginning fits before the rest of it. -/
theorem fit_append {ls ms : List Lexeme} {ending : List Char} :
    Fit (ls ++ ms) ending ↔ Fit ls (text ms ++ ending) ∧ Fit ms ending := by
  induction ls with
  | nil => simp [Fit]
  | cons l ls ih =>
    rw [List.cons_append, Fit, Fit, ih, text_append, List.append_assoc, and_assoc]

/-- No layout stands in front of lexemes that fit. -/
theorem Fit.fills_nil {ls : List Lexeme} {ending : List Char} (h : Fit ls ending)
    (he : Layout.Fills [] ending) : Layout.Fills [] (text ls ++ ending) := by
  cases ls with
  | nil => exact he
  | cons l ls =>
    rw [text_cons, Lexeme.text, List.append_assoc, List.append_assoc]
    exact Token.fills_text h.1.isValid _

end Lexemes

/-- **Cutting a laid-out text.** A text that lays out valid tokens is a layout and a
run of lexemes with these tokens. -/
theorem LaysOut.lexemes {ts : List Token} {cs : List Char} (h : LaysOut ts cs)
    (hv : ∀ t ∈ ts, t.isValid = true) :
    ∃ front ls, cs = front ++ Lexemes.text ls ∧ Lexemes.tokens ls = ts ∧ IsLayout front ∧
      Lexemes.Fit ls [] := by
  induction h with
  | @layout cs h => exact ⟨cs, [], by simp, rfl, h, trivial⟩
  | @last front gap t hf hg =>
    have ht : t.isValid = true := hv t (by simp)
    refine ⟨front, [⟨t, gap⟩], by simp [Lexeme.text], rfl, hf, ⟨ht, ?_, ?_⟩, trivial⟩
    · rcases gap with _ | ⟨c, gap⟩
      · cases t <;> rfl
      · exact Token.endsBefore_of_isLayout ht hg (List.cons_ne_nil c gap) _
    · exact Layout.fills_of_isLayout hg Layout.fills_nil_nil
  | @cons front gap cs t u ts hf hg hne _ ih =>
    have ht : t.isValid = true := hv t (by simp)
    obtain ⟨front', ls, rfl, hts, hf', hfit⟩ := ih fun v hv' => hv v (List.mem_cons_of_mem t hv')
    refine ⟨front, ⟨t, gap ++ front'⟩ :: ls, ?_, by simp [hts], hf, ⟨ht, ?_, ?_⟩, hfit⟩
    · simp [Lexeme.text]
    · exact Token.endsBefore_of_isLayout ht (hg.append hf') (by simp [hne]) _
    · exact Layout.fills_of_isLayout (hg.append hf') (hfit.fills_nil Layout.fills_nil_nil)

end Michelson
