import Michelson.CallInterface
import Michelson.Proofs.Documents
import Michelson.Proofs.Messages

/-!
# Answers to calls

An argument is a string of bytes that ends at its first zero byte, and zero characters are
taken out of every answer. Neither loses anything. The text of an argument has no zero
character; documents and reports have none whatever they are about, since strings are
escaped in them; a hash is made of digits; and a message quotes the text only. So an
answer is what the service says, character for character.

* `Json.zeroFree_compact` and `Json.zeroFree_pretty` are about documents.
* `CallInterface.zeroFree_argumentText` is about arguments.
* `answers_faithful` is the statement about the three services.
-/

namespace Michelson

/-! ## Documents -/

theorem zeroFree_digitChar {n : Nat} (hn : n < 16) : (Nat.digitChar n).toNat ≠ 0 := by
  interval_cases n <;> decide

namespace Json

/-- The escape of the zero character has none in it. -/
theorem zeroFree_escapeChar (c : Char) : ZeroFree (escapeChar c) := by
  rw [escapeChar]
  by_cases hlow : c.toNat < 0x20
  · have hfirst := zeroFree_digitChar (n := c.toNat / 16) (by omega)
    have hlast := zeroFree_digitChar (n := c.toNat % 16) (Nat.mod_lt _ (by decide))
    have hcode : ZeroFree ['\\', 'u', '0', '0', Nat.digitChar (c.toNat / 16),
        Nat.digitChar (c.toNat % 16)] := by simp [hfirst, hlast]
    split_ifs
    all_goals first | exact hcode | decide
  · have hone : ZeroFree [c] := by
      simp only [zeroFree_cons, zeroFree_nil, and_true]
      omega
    split_ifs
    case neg => exact hone
    all_goals decide

example : escapeChar (Char.ofNat 0) = ['\\', 'u', '0', '0', '0', '0'] := by decide

/-- What is quoted is escaped, the zero character as well. -/
theorem zeroFree_quote (s : String) : ZeroFree (quote s) := by
  have hescaped : ZeroFree (s.toList.flatMap escapeChar) := by
    intro c hc
    obtain ⟨d, -, hc⟩ := List.mem_flatMap.mp hc
    exact zeroFree_escapeChar d c hc
  simp [quote, hescaped]

theorem zeroFree_quoteOrLone (s? : Option String) : ZeroFree (quoteOrLone s?) := by
  cases s? with
  | some s => exact zeroFree_quote s
  | none => decide

/-- A number is digits, and maybe a sign in front of them. -/
theorem zeroFree_signedDecimal (z : Int) : ZeroFree (Numeral.signedDecimal z) := by
  cases z with
  | ofNat n => exact zeroFree_decimal n
  | negSucc n => simp [Numeral.signedDecimal]

/-- Blanks are not the zero character. -/
theorem zeroFree_of_areBlank {gap : List Char} (h : AreBlank gap) : ZeroFree gap := by
  have hblanks : ZeroFree blanks := by decide
  exact fun c hc => hblanks c (h c hc)

namespace Layout

variable {L : Layout}

mutual

/-- A plain document has no zero character. -/
theorem zeroFree_written (hL : L.IsBlank) (level : Nat) :
    ∀ j, IsPlain j → ZeroFree (L.written level j)
  | .null, _ => (by decide : ZeroFree ['n', 'u', 'l', 'l'])
  | .bool true, _ => (by decide : ZeroFree ['t', 'r', 'u', 'e'])
  | .bool false, _ => (by decide : ZeroFree ['f', 'a', 'l', 's', 'e'])
  | .integer z, _ => zeroFree_signedDecimal z
  | .real _, h => nomatch h
  | .string s?, _ => zeroFree_quoteOrLone s?
  | .array [], _ => (by decide : ZeroFree ['[', ']'])
  | .array (x :: xs), h => by
    have hline := zeroFree_of_areBlank (hL.line (level + 1))
    have hfirst := zeroFree_written hL (level + 1) x h.1
    have hrest := zeroFree_writtenItems hL level xs h.2
    simp [written, hline, hfirst, hrest]
  | .object [], _ => (by decide : ZeroFree ['\x7b', '\x7d'])
  | .object ((k, v) :: ms), h => by
    have hline := zeroFree_of_areBlank (hL.line (level + 1))
    have hspace := zeroFree_of_areBlank hL.space
    have hfirst := zeroFree_written hL (level + 1) v h.2.1
    have hrest := zeroFree_writtenMembers hL level ms h.2.2
    simp [written, hline, hspace, zeroFree_quoteOrLone, hfirst, hrest]

theorem zeroFree_writtenItems (hL : L.IsBlank) (level : Nat) :
    ∀ js, ArePlain js → ZeroFree (L.writtenItems level js)
  | [], _ => by simp [writtenItems, zeroFree_of_areBlank (hL.line level)]
  | x :: xs, h => by
    have hline := zeroFree_of_areBlank (hL.line (level + 1))
    have hfirst := zeroFree_written hL (level + 1) x h.1
    have hrest := zeroFree_writtenItems hL level xs h.2
    simp [writtenItems, hline, hfirst, hrest]

theorem zeroFree_writtenMembers (hL : L.IsBlank) (level : Nat) :
    ∀ ms, ArePlainMembers ms → ZeroFree (L.writtenMembers level ms)
  | [], _ => by simp [writtenMembers, zeroFree_of_areBlank (hL.line level)]
  | (k, v) :: ms, h => by
    have hline := zeroFree_of_areBlank (hL.line (level + 1))
    have hspace := zeroFree_of_areBlank hL.space
    have hfirst := zeroFree_written hL (level + 1) v h.2.1
    have hrest := zeroFree_writtenMembers hL level ms h.2.2
    simp [writtenMembers, hline, hspace, zeroFree_quoteOrLone, hfirst, hrest]

end

end Layout

theorem zeroFree_compact {j : Json} (h : j.IsPlain) : ZeroFree j.compact.toList := by
  rw [compact, String.toList_ofList, ← Layout.written_tight 0]
  exact Layout.zeroFree_written Layout.isBlank_tight 0 j h

theorem zeroFree_pretty {j : Json} (h : j.IsPlain) : ZeroFree j.pretty.toList := by
  rw [pretty, String.toList_ofList, ← Layout.written_wide 0]
  exact Layout.zeroFree_written Layout.isBlank_wide 0 j h

end Json

/-- A hash is made of hexadecimal digits. -/
theorem Contract.zeroFree_fingerprint (c : Contract) : ZeroFree c.fingerprint.toList := by
  rw [fingerprint, String.toList_ofList]
  intro ch hch
  obtain ⟨b, -, hch⟩ := List.mem_flatMap.mp hch
  have hb := b.toNat_lt
  rw [Numeral.hexByte, List.mem_pair] at hch
  rcases hch with rfl | rfl
  · exact zeroFree_digitChar (by omega)
  · exact zeroFree_digitChar (Nat.mod_lt _ (by decide))

/-! ## Arguments -/

namespace CallInterface

/-- The bytes of an argument before its first zero byte. -/
def upToZero (bytes : List UInt8) : ByteArray := (bytes.takeWhile (· != 0)).toByteArray

/-- There is no argument, or its bytes are those of no text. -/
def IsUnusable (argument : Option (List UInt8)) : Prop :=
  ∀ bytes, argument = some bytes → ¬(upToZero bytes).IsValidUTF8

/-- There is no text in an argument that is missing or is not UTF-8 up to its first zero. -/
theorem argumentText?_eq_none {argument : Option (List UInt8)} :
    argumentText? argument = none ↔ IsUnusable argument := by
  cases argument with
  | none => simp [argumentText?, IsUnusable]
  | some bytes =>
    change String.fromUTF8? (upToZero bytes) = none ↔ _
    simp [String.fromUTF8?, IsUnusable]

/-- The text in an argument is written in the bytes up to the first zero. -/
theorem argumentText?_eq_some {argument : Option (List UInt8)} {text : String} :
    argumentText? argument = some text ↔
      ∃ bytes, argument = some bytes ∧ text.toByteArray = upToZero bytes := by
  cases argument with
  | none => simp [argumentText?]
  | some bytes =>
    change String.fromUTF8? (upToZero bytes) = some text ↔ _
    rw [String.fromUTF8?]
    constructor
    · intro h
      split at h
      · cases h
        exact ⟨bytes, rfl, rfl⟩
      · cases h
    · rintro ⟨bytes', hbytes, htext⟩
      obtain rfl := Option.some.inj hbytes
      rw [dif_pos (htext ▸ text.isValidUTF8), Option.some.injEq]
      exact String.toByteArray_inj.mp htext.symm

/-- The bytes of a text are those of its characters, one after the other. -/
theorem toByteArray_eq_flatMap (text : String) :
    text.toByteArray = (text.toList.flatMap String.utf8EncodeChar).toByteArray := by
  conv_lhs => rw [← String.ofList_toList (s := text)]
  exact String.toByteArray_ofList

/-- The text of an argument has no zero character, since its bytes end at the first zero. -/
theorem zeroFree_argumentText {argument : Option (List UInt8)} {text : String}
    (h : argumentText? argument = some text) : ZeroFree text.toList := by
  obtain ⟨bytes, -, htext⟩ := argumentText?_eq_some.mp h
  rw [toByteArray_eq_flatMap, upToZero, List.toByteArray_inj] at htext
  intro c hc hzero
  have hbyte : 0 ∈ String.utf8EncodeChar c := by
    rw [← Char.ofNat_toNat c, hzero]
    decide
  have hmem : 0 ∈ bytes.takeWhile (· != 0) := htext ▸ List.mem_flatMap.mpr ⟨c, hc, hbyte⟩
  have hne := List.mem_takeWhile_imp hmem
  cases hne

/-! ## Answers -/

/-- Nothing is left out where there is nothing to leave out. -/
theorem withoutZeros_eq {s : String} (h : ZeroFree s.toList) : withoutZeros s = s := by
  have hall : ∀ c ∈ s.toList, (c.toNat != 0) = true := by simpa [ZeroFree] using h
  rw [withoutZeros, List.filter_eq_self.mpr hall, String.ofList_toList]

/-- The text has no zero character, so it is passed on as it is. -/
structure Passes (s : String) : Prop where
  zeroFree : ZeroFree s.toList
  unchanged : withoutZeros s = s

theorem passes_of_zeroFree {s : String} (h : ZeroFree s.toList) : Passes s :=
  ⟨h, withoutZeros_eq h⟩

/-- All that the services say about a contract passes, whatever the contract is. -/
theorem passes_contract (c : Contract) :
    Passes c.document.pretty ∧ Passes c.canonical ∧ Passes c.fingerprint := by
  have hplain : c.document.IsPlain := Form.plain_document _
  exact ⟨passes_of_zeroFree (Json.zeroFree_pretty hplain),
    passes_of_zeroFree (Json.zeroFree_compact hplain), passes_of_zeroFree c.zeroFree_fingerprint⟩

/-- A report is a document, so it has no zeros. -/
theorem passes_report (r : Report) : Passes r.render :=
  passes_of_zeroFree (Json.zeroFree_pretty r.plain_document)

/-- The message of an error passes if it is about a text without zero characters. -/
theorem passes_message {text : String} (ht : ZeroFree text.toList) {e : Error}
    (h : Contract.parse text = .error e) : Passes e.message := by
  have htells : e.TellsOnly text := Grammar.tellsOnly_run Grammar.respected_contractRule
    (fun calls => (Grammar.Knot.notes_tied calls).contractRule) h
  exact passes_of_zeroFree (htells.zeroFree_message ht)

/-- The services answer about the result of reading a contract. -/
structure Served (argument : Option (List UInt8)) (r : Except Error Contract) : Prop where
  /-- The check has a result, the report. -/
  check : check argument = .ok (Report.ofResult r).render
  /-- About a contract the other two have a result. -/
  read (c : Contract) : r = .ok c →
    parseContract argument = .ok c.document.pretty ∧ fingerprint argument = .ok c.fingerprint
  /-- Otherwise both have one failure, which is the message of the report as well. -/
  refused (e : Error) : r = .error e →
    parseContract argument = .error e.message ∧ fingerprint argument = .error e.message ∧
      (Report.ofResult r).error.map ErrorReport.message = some e.message

/-- A service is asked about the text, and its answer is passed on. -/
theorem call_of_text {service : String → Answer} {argument : Option (List UInt8)} {text : String}
    (h : argumentText? argument = some text) : call service argument = (service text).passed := by
  rw [call, h]

/-- All three services get the one text, and none of their answers loses a character. -/
theorem served_of_text {argument : Option (List UInt8)} {text : String}
    (h : argumentText? argument = some text) : Served argument (Contract.parse text) := by
  have ht := zeroFree_argumentText h
  constructor
  case check =>
    rw [check, call_of_text h, Answer.passed, (passes_report _).unchanged]
  case read =>
    intro c hc
    obtain ⟨hpretty, -, hhash⟩ := passes_contract c
    rw [parseContract, fingerprint, call_of_text h, call_of_text h, hc]
    simp only [Answer.passed, hpretty.unchanged, hhash.unchanged, and_self]
  case refused =>
    intro e he
    have hmessage := passes_message ht he
    rw [parseContract, fingerprint, call_of_text h, call_of_text h, he]
    simp only [Answer.passed, hmessage.unchanged, true_and]
    rfl

/-- Without a text no service is asked. -/
theorem call_of_unusable (service : String → Answer) {argument : Option (List UInt8)}
    (h : IsUnusable argument) : call service argument = .error unusableArgument := by
  rw [call, argumentText?_eq_none.mpr h]
  exact congrArg Except.error (withoutZeros_eq (by decide))

/-- **The call interface neither loses nor invents anything.** An answer is a result or a
failure. All services fail in the same way for an argument without a text. For any other
argument the check has a result, the report; the other two have a result, the document
and the hash, just for a contract, and fail with the message of the report otherwise. And
nothing that they say about a text without zero characters has a zero character, so
nothing is taken out of it. -/
theorem answers_faithful (argument : Option (List UInt8)) :
    (IsUnusable argument → parseContract argument = .error unusableArgument ∧
      check argument = .error unusableArgument ∧
      fingerprint argument = .error unusableArgument) ∧
    (¬IsUnusable argument → ∃ bytes text, argument = some bytes ∧
      text.toByteArray = upToZero bytes ∧ ZeroFree text.toList ∧
      Served argument (Contract.parse text)) ∧
    ∀ text, ZeroFree text.toList →
      Passes (Report.ofResult (Contract.parse text)).render ∧
      (∀ c, Contract.parse text = .ok c →
        Passes c.document.pretty ∧ Passes c.canonical ∧ Passes c.fingerprint) ∧
      ∀ e, Contract.parse text = .error e → Passes e.message := by
  refine ⟨fun h => ?_, fun h => ?_, fun text ht => ?_⟩
  · exact ⟨call_of_unusable _ h, call_of_unusable _ h, call_of_unusable _ h⟩
  · obtain ⟨text, htext⟩ := Option.ne_none_iff_exists'.mp (mt argumentText?_eq_none.mp h)
    obtain ⟨bytes, hbytes, hutf8⟩ := argumentText?_eq_some.mp htext
    exact ⟨bytes, text, hbytes, hutf8, zeroFree_argumentText htext, served_of_text htext⟩
  · exact ⟨passes_report _, fun c _ => passes_contract c, fun e he => passes_message ht he⟩

end CallInterface

end Michelson
