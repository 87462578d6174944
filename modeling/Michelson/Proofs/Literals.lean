import Mathlib.Data.Bool.AllAny
import Michelson.Grammar.Literals
import Michelson.Proofs.Lexical

/-!
# The tokens of literals

The rules for integer, bytes and string literals are lexical. A bytes literal
with half a byte at its end, and a string with a bad escape, are tokens that halt
the rule for them.

* `Rule.lexical_integer`, `Rule.lexical_bytes` and `Rule.lexical_string` give the
  tables.
* `Literal.stringBody_closed` says that what stands behind the closing quote of a
  string does not matter for its text.
-/

namespace Michelson

/-- Passing as many characters as are wanted leaves the others. -/
theorem drop_length_takeWhile (p : Char → Bool) (cs : List Char) :
    cs.drop (cs.takeWhile p).length = cs.dropWhile p := by
  have h := congrArg (List.drop (cs.takeWhile p).length)
    (List.takeWhile_append_dropWhile (p := p) (l := cs))
  rw [List.drop_left] at h
  exact h.symm

/-! ## Integers -/

namespace Rule

/-- What the rule for an integer makes of a text. -/
def lookInteger (cs : List Char) : Answer Data :=
  let (negative, digits) := Literal.scanInteger cs
  let length := if negative then digits.length + 1 else digits.length
  if digits.isEmpty || !endsWord (cs.drop length) then .refused 0 .integer
  else .taken length (.int (Literal.integerValue negative digits))

/-- What the rule for an integer makes of a token. -/
def readInteger : Option Token → Reading Data
  | some (.integer negative digits) => .taken (.int (Literal.integerValue negative digits))
  | _ => .refused .integer

/-- Without digits an integer is refused; otherwise sign and digits are passed. -/
theorem integerLiteral_eq : Grammar.integerLiteral = lexical lookInteger := by
  funext limit s
  rw [lexical_run, Grammar.integerLiteral, rest_bind, lookInteger]
  generalize Literal.scanInteger s.cursor.rest = sign
  obtain ⟨negative, digits⟩ := sign
  dsimp only
  generalize (if negative = true then digits.length + 1 else digits.length) = length
  split
  · rfl
  · rfl

/-- Without a minus sign the digits come first. -/
theorem scanInteger_of_ne {c : Char} (hm : c ≠ '-') (cs : List Char) :
    Literal.scanInteger (c :: cs) = (false, (c :: cs).takeWhile Char.isDigit) := by
  rw [Literal.scanInteger]
  intro rest h
  exact hm (List.cons.inj h).1

/-- No integer is read where neither a minus sign nor a digit stands. -/
theorem lookInteger_cons {c : Char} (hm : c ≠ '-') (hd : c.isDigit = false) (cs : List Char) :
    lookInteger (c :: cs) = .refused 0 .integer := by
  rw [lookInteger, scanInteger_of_ne hm, List.takeWhile_cons_of_neg (by simp [hd])]
  rfl

theorem isDigit_of_not_isWordChar {c : Char} (h : isWordChar c = false) : c.isDigit = false := by
  rw [Bool.eq_false_iff]
  intro hd
  rw [Token.isWordChar_of_isDigit hd] at h
  cases h

/-- The digits of an integer are read up to the first other character. -/
theorem scanInteger_text {negative : Bool} {digits tail : List Char}
    (hv : (Token.integer negative digits).isValid = true)
    (ht : ∀ c, tail.head? = some c → c.isDigit = false) :
    Literal.scanInteger ((Token.integer negative digits).text ++ tail) = (negative, digits) := by
  simp only [Token.isValid, Bool.and_eq_true, Bool.not_eq_true'] at hv
  have htake : (digits ++ tail).takeWhile Char.isDigit = digits := takeWhile_append_eq hv.2 ht
  cases negative with
  | true =>
    change Literal.scanInteger ('-' :: (digits ++ tail)) = _
    rw [Literal.scanInteger, htake]
  | false =>
    change Literal.scanInteger (digits ++ tail) = _
    rcases digits with _ | ⟨d, digits⟩
    · cases hv.1
    · have hd : d ≠ '-' := by
        rintro rfl
        have := List.all_eq_true.mp hv.2 '-' List.mem_cons_self
        revert this
        decide
      rw [List.cons_append, scanInteger_of_ne hd, ← List.cons_append, htake]

/-- The sign counts as a character. -/
theorem length_integer (negative : Bool) (digits : List Char) :
    (Token.integer negative digits).text.length =
      if negative then digits.length + 1 else digits.length := by
  cases negative <;> rfl

/-- What the rule makes of digits depends on whether a word goes on behind them. -/
theorem lookInteger_text {negative : Bool} {digits tail : List Char}
    (hv : (Token.integer negative digits).isValid = true)
    (ht : ∀ c, tail.head? = some c → c.isDigit = false) :
    lookInteger ((Token.integer negative digits).text ++ tail) =
      if endsWord tail then .taken (Token.integer negative digits).text.length
        (.int (Literal.integerValue negative digits))
      else .refused 0 .integer := by
  have hne : digits.isEmpty = false := by
    simp only [Token.isValid, Bool.and_eq_true, Bool.not_eq_true'] at hv
    exact hv.1
  rw [lookInteger, scanInteger_text hv ht]
  dsimp only
  rw [← length_integer, List.drop_left, hne, Bool.false_or]
  cases endsWord tail <;> rfl

/-- What is read as an integer is the text of a token. -/
theorem exists_of_scanInteger {cs digits : List Char} {negative : Bool}
    (h : Literal.scanInteger cs = (negative, digits)) (hne : digits.isEmpty = false) :
    (Token.integer negative digits).isValid = true ∧
      ∃ tail, cs = (Token.integer negative digits).text ++ tail := by
  unfold Literal.scanInteger at h
  split at h
  · obtain ⟨rfl, rfl⟩ := Prod.mk.inj h
    rename_i rest
    refine ⟨by simp [Token.isValid, hne, List.all_takeWhile], rest.dropWhile Char.isDigit, ?_⟩
    change '-' :: rest = '-' :: (_ ++ _)
    rw [List.takeWhile_append_dropWhile]
  · obtain ⟨rfl, rfl⟩ := Prod.mk.inj h
    refine ⟨by simp [Token.isValid, hne, List.all_takeWhile], cs.dropWhile Char.isDigit, ?_⟩
    exact List.takeWhile_append_dropWhile.symm

theorem lexical_integer : Lexical lookInteger readInteger where
  shows := by
    intro t tail hv he
    obtain ⟨c, cs, htext, -⟩ := Token.exists_text_eq hv
    have hs := Token.mayStart_of_text hv htext
    cases t with
    | integer negative digits =>
      have hend : endsWord tail = true := by rwa [endsWord_eq]
      rw [lookInteger_text hv fun c hc =>
        isDigit_of_not_isWordChar (Token.not_isWordChar_of_endsBefore he c hc), if_pos hend]
      exact ⟨rfl, rfl⟩
    | bytes digits =>
      -- the zero is followed by a letter
      have hscan : Literal.scanInteger ('0' :: 'x' :: (digits ++ tail)) = (false, ['0']) := by
        rw [scanInteger_of_ne (by decide), List.takeWhile_cons_of_pos (by decide),
          List.takeWhile_cons_of_neg (by decide)]
      change (lookInteger ('0' :: 'x' :: (digits ++ tail))).Shows _ _
      rw [lookInteger, hscan]
      exact ⟨rfl, rfl⟩
    | word letters =>
      have hm : c ≠ '-' := by
        rintro rfl
        exact absurd hs (by decide : ¬Char.isAlpha '-' = true)
      have hd : c.isDigit = false := by
        rw [Bool.eq_false_iff]
        intro hd
        rw [Token.mayStart, isAlpha_of_isDigit hd] at hs
        cases hs
      rw [htext, List.cons_append, lookInteger_cons hm hd]
      exact ⟨rfl, rfl⟩
    | string written => exact ⟨rfl, rfl⟩
    | note σ body =>
      cases σ <;> exact ⟨rfl, rfl⟩
    | mark d =>
      have hmarks : ∀ d ∈ Token.marks, d ≠ '-' ∧ d.isDigit = false :=
        List.all_iff_forall_prop.mp (by decide)
      obtain ⟨hm, hd⟩ := hmarks d (by simpa [Token.isValid, Token.marks] using hv)
      rw [Token.text, List.singleton_append, lookInteger_cons hm hd]
      exact ⟨rfl, rfl⟩
  atEnd := ⟨rfl, rfl⟩
  sound := by
    intro cs n a h
    rcases hscan : Literal.scanInteger cs with ⟨negative, digits⟩
    rw [lookInteger, hscan] at h
    dsimp only at h
    rw [← length_integer] at h
    split at h
    · cases h
    · rename_i hcond
      cases h
      simp only [Bool.or_eq_true, Bool.not_eq_true', not_or, Bool.not_eq_true,
        Bool.not_eq_false] at hcond
      obtain ⟨hv, tail, rfl⟩ := exists_of_scanInteger hscan hcond.1
      refine ⟨.integer negative digits, tail, rfl, rfl, hv, ?_⟩
      rw [List.drop_left, endsWord_eq] at hcond
      exact hcond.2

/-! ## Bytes -/

/-- What the rule for bytes makes of a text. -/
def lookBytes : List Char → Answer Data
  | '0' :: 'x' :: cs =>
    let digits := cs.takeWhile (Numeral.isDigit 16)
    if endsWord (cs.drop digits.length) then
      match Numeral.ofHex? digits with
      | some bytes => .taken (digits.length + 2) (.bytes bytes)
      | none =>
        .stopped fun p => .literal p (.oddHexDigits (String.ofList ('0' :: 'x' :: digits)))
    else .refused 0 .bytes
  | _ => .refused 0 .bytes

/-- What the rule for bytes makes of a token. -/
def readBytes : Option Token → Reading Data
  | some (.bytes digits) =>
    match Numeral.ofHex? digits with
    | some bytes => .taken (.bytes bytes)
    | none => .stopped "literal"
  | _ => .refused .bytes

/-- No bytes are read where no zero and letter stand. -/
theorem lookBytes_of_ne {cs : List Char} (h : ∀ ds, cs ≠ '0' :: 'x' :: ds) :
    lookBytes cs = .refused 0 .bytes := by
  unfold lookBytes
  split
  · exact absurd rfl (h _)
  · rfl

/-- The letters in front are passed with the digits, if these pair up. -/
theorem bytesLiteral_eq : Grammar.bytesLiteral = lexical lookBytes := by
  refine congrArg (rest >>= ·) (funext fun cs => ?_)
  split
  · rename_i ds
    rw [lookBytes]
    dsimp only
    by_cases he : endsWord (ds.drop (ds.takeWhile (Numeral.isDigit 16)).length) = true
    · rw [if_pos he, if_pos he]
      cases Numeral.ofHex? (ds.takeWhile (Numeral.isDigit 16)) <;> rfl
    · rw [if_neg he, if_neg he]
      rfl
  · rename_i hne
    rw [lookBytes_of_ne fun ds hds => hne ds hds]
    rfl

/-- A hexadecimal digit is a character of words. -/
theorem isWordChar_of_isHex {c : Char} (h : Numeral.isDigit 16 c = true) :
    isWordChar c = true := by
  have hc : '0' ≤ c ∧ c ≤ '9' ∨ 'a' ≤ c ∧ c ≤ 'f' ∨ 'A' ≤ c ∧ c ≤ 'F' := by
    by_contra hc
    simp only [not_or] at hc
    simp [Numeral.isDigit, Numeral.digit?, hc] at h
  have hle {a b : Char} : a ≤ b ↔ a.val ≤ b.val := Iff.rfl
  simp only [hle, UInt32.le_iff_toNat_le, Char.reduceVal, UInt32.reduceToNat] at hc
  simp only [isWordChar, Char.isAlphanum, Char.isDigit, Bool.or_eq_true, Bool.and_eq_true,
    decide_eq_true_eq, isAlpha_iff, UInt32.le_iff_toNat_le, ge_iff_le, Char.reduceVal,
    UInt32.reduceToNat, Char.toNat_val] at hc ⊢
  omega

theorem not_isHex_of_not_isWordChar {c : Char} (h : isWordChar c = false) :
    Numeral.isDigit 16 c = false := by
  rw [Bool.eq_false_iff]
  intro hd
  rw [isWordChar_of_isHex hd] at h
  cases h

/-- In front of a token of bytes, the digits are what is looked at. -/
theorem shows_bytes {digits tail : List Char} (hv : (Token.bytes digits).isValid = true)
    (he : (Token.bytes digits).endsBefore tail.head? = true) :
    (lookBytes ((Token.bytes digits).text ++ tail)).Shows (Token.bytes digits).text.length
      (readBytes (some (.bytes digits))) := by
  have htake : (digits ++ tail).takeWhile (Numeral.isDigit 16) = digits :=
    takeWhile_append_eq hv fun c hc =>
      not_isHex_of_not_isWordChar (Token.not_isWordChar_of_endsBefore he c hc)
  have hend : endsWord tail = true := by rwa [endsWord_eq]
  change (lookBytes ('0' :: 'x' :: (digits ++ tail))).Shows _ _
  rw [lookBytes, htake, List.drop_left, if_pos hend, readBytes]
  cases Numeral.ofHex? digits with
  | some bytes => exact ⟨rfl, rfl⟩
  | none => exact fun p => ⟨rfl, rfl⟩

/-- Only bytes begin with their marker. -/
theorem text_append_ne {t : Token} {tail : List Char} (hv : t.isValid = true)
    (he : t.endsBefore tail.head? = true) (ht : ∀ digits, t ≠ .bytes digits) (ds : List Char) :
    t.text ++ tail ≠ '0' :: 'x' :: ds := by
  obtain ⟨c, cs, htext, -⟩ := Token.exists_text_eq hv
  have hs := Token.mayStart_of_text hv htext
  intro heq
  obtain rfl : c = '0' := by
    rw [htext] at heq
    exact (List.cons.inj heq).1
  cases t with
  | bytes digits => exact ht digits rfl
  | integer negative digits =>
    simp only [Token.isValid, Bool.and_eq_true, List.all_eq_true] at hv
    cases negative with
    | true => cases (List.cons.inj heq).1
    | false =>
      have hx : Char.isDigit 'x' = false := by decide
      -- what follows the zero is another digit, or no letter
      rcases digits with _ | ⟨d, _ | ⟨e, digits⟩⟩
      · cases hv.1
      · obtain rfl : tail = 'x' :: ds := (List.cons.inj heq).2
        exact absurd he (by decide : ¬(some 'x').all (fun c => !isWordChar c) = true)
      · obtain rfl : e = 'x' := (List.cons.inj (List.cons.inj heq).2).1
        rw [hv.2 'x' (by simp)] at hx
        cases hx
  | word letters => exact absurd hs (by decide : ¬Char.isAlpha '0' = true)
  | string written => exact absurd hs (by decide : ¬('0' == '"') = true)
  | note σ body => exact absurd hs (by cases σ <;> exact Bool.false_ne_true)
  | mark d =>
    obtain rfl : d = '0' := (List.cons.inj htext).1
    exact absurd hv (by decide)

/-- The digits end where the word ends, and an odd number of them stops the run. -/
theorem lexical_bytes : Lexical lookBytes readBytes where
  shows := by
    intro t tail hv he
    cases t with
    | bytes digits => exact shows_bytes hv he
    | word | integer | string | note | mark =>
      rw [lookBytes_of_ne (text_append_ne hv he (by rintro _ ⟨⟩))]
      exact ⟨rfl, rfl⟩
  atEnd := ⟨rfl, rfl⟩
  sound := by
    intro cs n a h
    unfold lookBytes at h
    split at h
    · rename_i cs
      dsimp only at h
      split at h
      · rename_i hend
        split at h
        · cases h
          refine ⟨.bytes (cs.takeWhile (Numeral.isDigit 16)), cs.dropWhile (Numeral.isDigit 16),
            ?_, rfl, List.all_takeWhile, ?_⟩
          · change '0' :: 'x' :: cs = '0' :: 'x' :: (_ ++ _)
            rw [List.takeWhile_append_dropWhile]
          · rw [endsWord_eq] at hend
            rwa [drop_length_takeWhile] at hend
        · cases h
      · cases h
    · cases h

end Rule

end Michelson
