import Michelson.Proofs.BytesLiterals

/-!
# Missing digits of bytes

A text that is read is cut into lexemes, and one of them may be a bytes literal. Where it has a
digit less, a run keeps step with the run that has read the text up to the literal, tries the
literal at the same moment and halts there; nothing undoes a halt.

* `Track.halting` is the placement of runs that keep step up to a literal.
* `bytes_decode_exactly` puts it together with the decoding of single literals.
-/

namespace Michelson

open Rule Grammar

/-! ## Cuts -/

/-- A text is cut into lexemes behind the layout in front of it. -/
structure Lexemes.Cut (text front : List Char) (ls : List Lexeme) : Prop where
  text : text = front ++ Lexemes.text ls
  fills : Layout.Fills front (Lexemes.text ls)
  fit : Fit ls []

/-- A bytes literal stands in a text: a cut of the text has it for a lexeme. -/
structure Literal.HasBytes (text before digits after : List Char) : Prop where
  cut : ∃ front ls gap ms, Lexemes.Cut text front (ls ++ ⟨.bytes digits, gap⟩ :: ms) ∧
    before = front ++ Lexemes.text ls ∧ after = gap ++ Lexemes.text ms

namespace Lexemes

variable {ls ms : List Lexeme} {gap digits digits' : List Char}

/-- Lexemes fit before another ending that begins with the same character of a token. -/
theorem Fit.before {ending ending' : List Char} (h : Fit ls ending) (hne : ending ≠ [])
    (hhead : ending.head? = ending'.head?) (hfills : Layout.Fills [] ending') : Fit ls ending' := by
  induction ls with
  | nil => trivial
  | cons l ls ih =>
    obtain ⟨hl, hls⟩ := h
    have hls' := ih hls
    refine ⟨⟨hl.isValid, ?_, ?_⟩, hls'⟩
    · have heq : (l.gap ++ (text ls ++ ending')).head? = (l.gap ++ (text ls ++ ending)).head? := by
        simp only [List.head?_append, hhead]
      rw [heq]
      exact hl.endsBefore
    · refine Layout.fills_of_isLayout (hl.fills.isLayout ?_) (hls'.fills_nil hfills)
      exact fun hnil => hne (List.append_eq_nil_iff.mp hnil).2

/-- A cut stays one where a bytes literal has other digits. -/
theorem Fit.withDigits (h : Fit (ls ++ ⟨.bytes digits, gap⟩ :: ms) [])
    (hdigits : digits'.all (Numeral.isDigit 16) = true) :
    Fit (ls ++ ⟨.bytes digits', gap⟩ :: ms) [] := by
  obtain ⟨hls, hl, hms⟩ := fit_append.mp h
  refine fit_append.mpr ⟨hls.before (List.cons_ne_nil _ _) rfl ?_, ⟨hdigits, hl.endsBefore, hl.fills⟩,
    hms⟩
  exact Layout.fills_nil_cons (by decide) (by decide) (by decide) _

end Lexemes

/-! ## Runs up to a literal -/

/-- Runs without a limit of which the second may halt with an error. -/
def Setting.halting (e : Error) : Setting where
  limit := none
  limit' := none
  memory _ _ := True
  placed _ _ := True
  halts _ _ _ _ := True
  excused _ := False
  excused' stop := stop = .error e
  moved _ _ := trivial

/-- Two tracks that are the same but for the digits of a bytes literal. -/
structure Track.Differ (T T' : Track) (k : Nat) (digits digits' : List Char) : Prop where
  length : T.length = T'.length
  token : T.token? k = some (.bytes digits)
  token' : T'.token? k = some (.bytes digits')
  same {j : Nat} : j < k → T.token? j = T'.token? j

theorem onTracks_halting (e : Error) {T T' : Track} (h : T.length = T'.length) :
    OnTracks (.halting e) T T' 0 where
  limit := rfl
  limit' := rfl
  placed _ _ := trivial
  bound := by rw [Nat.zero_add, h]
  expect _ _ _ _ _ := trivial
  log _ _ _ := trivial
  depth _ _ _ := trivial
  raised _ _ _ := trivial
  halts_depth _ _ _ := trivial

namespace Track.Differ

variable {T T' : Track} {k : Nat} {digits digits' : List Char} {e : Error}
  (D : T.Differ T' k digits digits')

include D

theorem lt_length : k < T.length := by
  by_contra hk
  have htoken := D.token
  rw [Track.token?, List.getElem?_eq_none (by rw [T.length_tokens]; omega)] at htoken
  cases htoken

/-- Up to the literal, tables without bytes make the same of the tokens. -/
theorem near {α : Type} {table : Option Token → Reading α} (hno : TakesNoBytes table) {j : Nat}
    (hj : j ≤ k) : table (T.token? j) = table (T'.token? (0 + j)) := by
  rw [Nat.zero_add]
  rcases hj.lt_or_eq with hj | rfl
  · rw [D.same hj]
  · rw [D.token, D.token', hno.sameBytes digits digits']

/-- What is taken up to the literal, if it is no bytes, leads no further than the literal. -/
theorem step {α : Type} {table : Option Token → Reading α} (hno : TakesNoBytes table) {j : Nat}
    {t : Token} {a : α} (hj : j ≤ k) (ht : T.token? j = some t) (htaken : table (some t) = .taken a) :
    j + 1 ≤ k := by
  refine hj.lt_of_ne ?_
  rintro rfl
  obtain rfl := Option.some.inj (ht.symm.trans D.token)
  exact hno.bytes digits a htaken

theorem plain {α : Type} {look : List Char → Answer α} {table : Option Token → Reading α}
    (h : Lexical look table) (hno : TakesNoBytes table) (d e' n : Nat) :
    Sim (.halting e) (T.Places T' 0 (fun _ j => j ≤ k) d n)
      (T.Places T' 0 (fun _ j => j ≤ k) e' (n - 1)) Eq (Rule.lexical look) (Rule.lexical look) :=
  (onTracks_halting e D.length).keepsLexical h
    (fun hj _ => D.near hno hj) (fun hj ht htaken => D.step hno hj ht htaken) n

theorem brace {c : Char} (hc : c ∈ Token.marks) (d e' n : Nat) :
    Sim (.halting e) (T.Places T' 0 (fun _ j => j ≤ k) d n)
      (T.Places T' 0 (fun _ j => j ≤ k) e' (n - 1)) Eq (symbol c) (symbol c) := by
  rw [symbol_eq]
  exact D.plain (lexical_symbol hc) (takesNoBytes_symbol c) d e' n

/-- At the literal the second run halts. -/
theorem bytes (hhalts : ∀ s : State, s.cursor = T'.place k →
      (Rule.lexical lookBytes none s).verdict = .halt (.error e)) (d n : Nat) :
    Sim (.halting e) (T.Places T' 0 (fun _ j => j ≤ k) d n)
      (T.Places T' 0 (fun _ j => j ≤ k) d (n - 1)) Eq (Rule.lexical lookBytes)
      (Rule.lexical lookBytes) := by
  rintro s s' ⟨j, hj, hs, hs', hjk, hn⟩ hmem
  rcases hjk.lt_or_eq with hlt | rfl
  · refine (onTracks_halting e D.length).lexical lexical_bytes hj ?_ (fun t a ht htaken => ?_)
      hs hs' hmem
    · rw [Nat.zero_add, D.same hlt]
    · have hlength := D.lt_length
      exact ⟨j + 1, by omega, rfl, rfl, hlt, by omega⟩
  · rw [Nat.zero_add] at hs'
    have hrun := hhalts s' hs'
    rcases hx : Rule.lexical lookBytes none s' with ⟨v, t⟩
    rw [hx] at hrun
    obtain rfl : v = .halt (.error e) := hrun
    change Setting.Alike _ _ _ _ (Rule.lexical lookBytes none s')
    rw [hx]
    exact .of_excused' rfl _

/-- **The second run keeps step** up to the literal, and halts there. -/
theorem halting (hhalts : ∀ s : State, s.cursor = T'.place k →
      (Rule.lexical lookBytes none s).verdict = .halt (.error e)) :
    Placement (.halting e) (T.Places T' 0 fun _ j => j ≤ k) where
  placed _ := trivial
  positive := OnTracks.positive
  weaken := OnTracks.weaken
  opens := by
    rintro d n _ _ ⟨j, hj, rfl, rfl, hjk, -⟩
    have hlength := D.length
    rw [T.head?_place hj (by decide), T'.head?_place (by omega) (by decide), Nat.zero_add]
    rcases hjk.lt_or_eq with hlt | rfl
    · rw [D.same hlt]
    · rw [D.token, D.token']
      simp
  offsets := (onTracks_halting e D.length).offsets
  nested := (onTracks_halting e D.length).nested
  lexical h hblind := D.plain h hblind.toTakesNoBytes _ _ _
  bounded := (onTracks_halting e D.length).bounded
  expect _ _ _ := trivial
  log _ _ _ := trivial
  plain h hplain := D.plain h hplain.toTakesNoBytes _ _ _
  bytes := D.bytes hhalts _ _
  opening := D.brace (by decide) _ _ _
  closing _ := D.brace (by decide) _ _ _

/-- A rule that reads the first track to its end halts on the second. -/
theorem verdict {α : Type} {rule : Knot → Rule α} (hr : Respected rule) {a : α}
    (hhalts : ∀ s : State, s.cursor = T'.place k →
      (Rule.lexical lookBytes none s).verdict = .halt (.error e))
    (hy : T.Yields (rule Knot.full) 0 a T.length) {s : State} (hs : s.cursor = T'.place 0) :
    (rule Knot.full none s).verdict = .halt (.error e) := by
  have hplace : T.Places T' 0 (fun _ j => j ≤ k) 1 (T.length + 1) (T.place 0) (T'.place 0) :=
    ⟨0, Nat.zero_le _, rfl, rfl, Nat.zero_le _, Nat.lt_succ_of_le (Nat.sub_le _ _)⟩
  have hrun := (D.halting hhalts).keeps rfl rfl (fun _ _ => trivial) hr (T.length + 1) 1
    (T.length + 1) le_rfl le_rfl { s with cursor := T.place 0 } s (hs ▸ hplace) trivial
  obtain ⟨t, hfirst, ht⟩ := hy.run { s with cursor := T.place 0 } rfl
  change Setting.Alike _ _ _ (rule Knot.full none { s with cursor := T.place 0 })
    (rule Knot.full none s) at hrun
  rw [hfirst] at hrun
  rcases hsecond : rule Knot.full none s with ⟨b | _ | stop, t'⟩ <;> rw [hsecond] at hrun
  case ok =>
    -- no place behind the literal is one of both runs
    obtain ⟨-, ⟨j, hj, hplace, -, hjk, -⟩, -⟩ := hrun
    have heq := Track.place_injective le_rfl hj (ht.symm.trans hplace)
    have hlt := D.lt_length
    omega
  case miss => exact hrun.elim
  case halt => exact congrArg Verdict.halt hrun

end Track.Differ

/-! ## Whole texts -/

section Whole

variable {α : Type} {rule : Knot → Rule α} {a : α} {T : Track} {text before digits after : List Char}

/-- Each cut of a text that is read is read to its end. -/
theorem Track.yields_of_run (hr : Respected rule) {front : List Char}
    (hfront : Layout.Fills front T.text) (horigin : T.origin = Position.start.after front)
    (h : (run rule none (front ++ T.text)).result = .ok a) :
    T.Yields (rule Knot.full) 0 a T.length := by
  obtain ⟨s, t, u, hlayout, hrule, hend⟩ := parts_of_run hr h
  rw [layout_initial hfront horigin none] at hlayout
  obtain rfl := (Reply.mk.inj hlayout).2
  obtain ⟨j, hj, ht⟩ := (Track.kept_of_respected hr).yields (Nat.zero_le _) rfl hrule
  -- no lexeme is left where the text ends
  have hlength := T.le_length_rest j
  rw [← ht, (endOfInput_ok hend).1, List.length_nil] at hlength
  obtain rfl : j = T.length := le_antisymm hj.le_length (by omega)
  exact hj

/-- A text that is read has a cut. -/
theorem exists_cut (hr : Respected rule) (h : (run rule none text).result = .ok a) :
    ∃ front ls, Lexemes.Cut text front ls := by
  obtain ⟨front, T, htext, hfront, -⟩ := (run_ok_iff hr).mp h
  exact ⟨front, T.lexemes, htext, hfront, T.fit⟩

section Bytes

variable {T' : Track} {ls ms : List Lexeme} {gap digits' : List Char}

theorem Track.differ_of_lexemes (hT : T.lexemes = ls ++ ⟨.bytes digits, gap⟩ :: ms)
    (hT' : T'.lexemes = ls ++ ⟨.bytes digits', gap⟩ :: ms) :
    T.Differ T' ls.length digits digits' where
  length := by simp [Track.length, hT, hT']
  token := by simp [Track.token?, Track.tokens, Lexemes.tokens, hT]
  token' := by simp [Track.token?, Track.tokens, Lexemes.tokens, hT']
  same hj := by
    simp [Track.token?, Track.tokens, Lexemes.tokens, hT, hT', List.getElem?_append_left, hj]

/-- At half a byte on a track the rule for bytes halts. -/
theorem Track.halts_of_odd (hT : T.lexemes = ls ++ ⟨.bytes digits, gap⟩ :: ms)
    (hodd : Numeral.ofHex? digits = none) {s : State} (hs : s.cursor = T.place ls.length) :
    (Rule.lexical lookBytes none s).verdict = .halt (.error (.literal
      (T.origin.after (Lexemes.text ls)) (.oddHexDigits (String.ofList ('0' :: 'x' :: digits))))) := by
  have hplace : T.place ls.length = ⟨'0' :: 'x' :: (digits ++ (gap ++ Lexemes.text ms)),
      T.origin.after (Lexemes.text ls)⟩ := by
    simp [Track.place, Lexeme.text, Token.text, hT]
  have hfit := T.fit
  rw [hT] at hfit
  have hl := (Lexemes.fit_append.mp hfit).2.1
  have hend := hl.endsBefore
  rw [List.append_nil] at hend
  rw [← bytesLiteral_eq, bytesLiteral_raises hl.isValid hodd (Token.not_isWordChar_of_endsBefore hend)
    (by rw [hs, hplace]), hs, hplace]
  rfl

end Bytes

/-- **Half a byte is found.** Where the bytes of a text that is read have an odd number of
digits instead of their own, a run ends with the error at the literal. -/
theorem run_oddHexDigits (hr : Respected rule) (h : (run rule none text).result = .ok a)
    (hbytes : Literal.HasBytes text before digits after) {digits' : List Char}
    (hdigits : digits'.all (Numeral.isDigit 16) = true) (hodd : Numeral.ofHex? digits' = none) :
    (run rule none (before ++ '0' :: 'x' :: (digits' ++ after))).result =
      .error (.literal (Position.start.after before)
        (.oddHexDigits (String.ofList ('0' :: 'x' :: digits')))) := by
  obtain ⟨front, ls, gap, ms, ⟨rfl, hfront, hfit⟩, rfl, rfl⟩ := hbytes.cut
  let T : Track := ⟨ls ++ ⟨.bytes digits, gap⟩ :: ms, Position.start.after front, hfit⟩
  let T' : Track := ⟨ls ++ ⟨.bytes digits', gap⟩ :: ms, Position.start.after front,
    hfit.withDigits hdigits⟩
  have hy : T.Yields (rule Knot.full) 0 a T.length := Track.yields_of_run hr hfront rfl h
  have D : T.Differ T' ls.length digits digits' := Track.differ_of_lexemes rfl rfl
  have hfront' : Layout.Fills front T'.text := by
    have hnil := T'.fit.fills_nil Layout.fills_nil_nil
    rw [List.append_nil] at hnil
    refine Layout.fills_of_isLayout (hfront.isLayout ?_) hnil
    simp [Lexeme.text, Token.text]
  have htext : front ++ Lexemes.text ls ++ '0' :: 'x' :: (digits' ++ (gap ++ Lexemes.text ms)) =
      front ++ T'.text := by
    simp [T', Track.text, Lexeme.text, Token.text]
  rw [htext, run_eq_full hr, whole_of_layout _ (Track.layout_initial hfront' rfl none),
    Reply.result, bind_halts (D.verdict hr (fun _ => Track.halts_of_odd rfl hodd) hy rfl),
    Position.after_append]

/-- The bytes of a text that is read have an even number of digits. -/
theorem exists_areHexOf_of_run (hr : Respected rule) (h : (run rule none text).result = .ok a)
    (hbytes : Literal.HasBytes text before digits after) :
    ∃ bytes, Numeral.AreHexOf digits bytes := by
  obtain ⟨front, ls, gap, ms, ⟨htext, -, hfit⟩, rfl, rfl⟩ := hbytes.cut
  have hdigits : digits.all (Numeral.isDigit 16) = true := (Lexemes.fit_append.mp hfit).2.1.isValid
  rcases hodd : Numeral.ofHex? digits with _ | bytes
  · have hrun := run_oddHexDigits hr h hbytes hdigits hodd
    have hsame : front ++ Lexemes.text ls ++ '0' :: 'x' :: (digits ++ (gap ++ Lexemes.text ms)) =
        text := by
      rw [htext]
      simp [Lexeme.text, Token.text]
    rw [hsame, h] at hrun
    cases hrun
  · exact ⟨bytes, .of_ofHex? hodd⟩

/-- **A missing digit is found.** Where a text that is read lacks a digit of its bytes, a run
ends with the error at the literal. -/
theorem run_eraseIdx (hr : Respected rule) (h : (run rule none text).result = .ok a)
    (hbytes : Literal.HasBytes text before digits after) {i : Nat} (hi : i < digits.length) :
    (run rule none (before ++ '0' :: 'x' :: (digits.eraseIdx i ++ after))).result =
      .error (.literal (Position.start.after before)
        (.oddHexDigits (String.ofList ('0' :: 'x' :: digits.eraseIdx i)))) := by
  obtain ⟨bytes, hhex⟩ := exists_areHexOf_of_run hr h hbytes
  have hdigits : (digits.eraseIdx i).all (Numeral.isDigit 16) = true :=
    List.all_eq_true.mpr fun c hc =>
      List.all_eq_true.mp hhex.isDigit c ((List.eraseIdx_sublist digits i).subset hc)
  refine run_oddHexDigits hr h hbytes hdigits (Numeral.ofHex?_eq_none hdigits ?_)
  have hlength := hhex.length
  rw [List.length_eraseIdx_of_lt hi]
  omega

end Whole

/-- A missing digit of bytes is found: where a text that is read lacks one, the result is the
error at the literal. -/
def FindsMissingDigits {α : Type} (parse : String → Except Error α) : Prop :=
  ∀ text a, parse text = .ok a → (∃ front ls, Lexemes.Cut text.toList front ls) ∧
    ∀ before digits after, Literal.HasBytes text.toList before digits after →
      ∀ i < digits.length,
        parse (String.ofList (before ++ '0' :: 'x' :: (digits.eraseIdx i ++ after))) =
          .error (.literal (Position.start.after before)
            (.oddHexDigits (String.ofList ('0' :: 'x' :: digits.eraseIdx i))))

theorem findsMissingDigits {α : Type} {rule : Knot → Rule α} (hr : Respected rule) :
    FindsMissingDigits fun text => (run rule none text.toList).result := by
  refine fun text a h => ⟨exists_cut hr h, fun before digits after hbytes i hi => ?_⟩
  dsimp only
  rw [String.toList_ofList]
  exact run_eraseIdx hr h hbytes hi

/-- **Bytes are decoded exactly.** Digits in an even number are read as the bytes that have them,
in whatever case they are, and digits in an odd number are an error at the literal. The rule for
bytes takes all digits up to the end of a word; where a word goes on behind digits it misses, no
rule passes any of them, and no value and no text is read.

A digit that is missing from bytes anywhere in a text is found: a contract, a value or a block
that is read is cut into lexemes, and where one of them is bytes with a digit less, the result is
the error at this literal. -/
theorem bytes_decode_exactly :
    (∀ digits : List Char, digits.all (Numeral.isDigit 16) = true →
      (digits.length % 2 = 0 → ∃ bytes, Numeral.AreHexOf digits bytes ∧
        ∀ front back, IsLayout front → IsLayout back →
          Data.parse (String.ofList (front ++ '0' :: 'x' :: (digits ++ back))) =
            .ok (.bytes bytes)) ∧
      (digits.length % 2 = 1 → ∀ front behind, IsLayout front →
        (∀ c, behind.head? = some c → isWordChar c = false) →
          Data.parse (String.ofList (front ++ '0' :: 'x' :: (digits ++ behind))) =
            .error (.literal (Position.start.after front)
              (.oddHexDigits (String.ofList ('0' :: 'x' :: digits)))))) ∧
    (∀ (limit : Option Nat) (s t : State) (d : Data), bytesLiteral limit s = ⟨.ok d, t⟩ →
      ∃ digits bytes behind, d = .bytes bytes ∧ Numeral.AreHexOf digits bytes ∧
        s.cursor.rest = '0' :: 'x' :: (digits ++ behind) ∧
          ∀ c, behind.head? = some c → isWordChar c = false) ∧
    (∀ (limit : Option Nat) (s : State) (digits behind : List Char),
      Literal.IsWordy digits behind → s.cursor.rest = '0' :: 'x' :: (digits ++ behind) →
      bytesLiteral limit s = ⟨.miss, s.expect .bytes⟩ ∧
      (∀ d t, Knot.full.value limit s ≠ ⟨.ok d, t⟩) ∧
      ∀ {α : Type} (rule : Knot → Rule α), Respected rule →
        ∀ a t, rule Knot.full limit s = ⟨.ok a, t⟩ → t.cursor = s.cursor) ∧
    (∀ (front digits behind : List Char), IsLayout front → Literal.IsWordy digits behind →
      ∀ d, Data.parse (String.ofList (front ++ '0' :: 'x' :: (digits ++ behind))) ≠ .ok d) ∧
    FindsMissingDigits Contract.parse ∧ FindsMissingDigits Data.parse ∧
      FindsMissingDigits Block.parse := by
  refine ⟨fun digits h => ⟨fun heven => ?_, fun hodd front behind hf hb => ?_⟩,
    fun limit s t d h => bytesLiteral_eq_ok h, fun limit s digits behind h hs =>
      ⟨bytesLiteral_misses h hs, fun d t => value_ne_ok_at_wordy h hs,
        fun rule hr a t hrun => stays_at_wordy hr h hs hrun⟩,
    fun front digits behind hf h d => ?_, findsMissingDigits respected_contractRule,
    findsMissingDigits respected_value, findsMissingDigits respected_block⟩
  · obtain ⟨bytes, hbytes⟩ := Numeral.exists_areHexOf h heven
    exact ⟨bytes, hbytes, fun front back hf hb => Data.parse_areHexOf hbytes hf hb⟩
  · exact Data.parse_oddHexDigits h (Numeral.ofHex?_eq_none h hodd) hf hb
  · rw [Data.parse, String.toList_ofList]
    exact run_wordy respected_value h hf

/-- The digit that is missing may belong to a key of a map. -/
example : (Data.parse "\x7b Elt 0x0A 1 ; Elt 0xb 2 \x7d").map (fun _ => ()) =
    .error (.literal ⟨1, 20, 19⟩ (.oddHexDigits "0xb")) := by
  decide +kernel

end Michelson
