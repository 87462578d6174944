import Mathlib.Data.List.TakeWhile
import Mathlib.Data.Nat.Digits.Defs
import Mathlib.Tactic.IntervalCases
import Michelson.Text.Numeral

/-!
# Numerals are read back

What is written in digits denotes the number that was written: decimal digits,
the two hexadecimal digits of a byte, and digits in base `2 ^ 32`.
-/

namespace Michelson

/-- A run of characters ends where the first other character stands. -/
theorem takeWhile_append_eq {p : Char → Bool} {cs tail : List Char} (h : cs.all p = true)
    (ht : ∀ c, tail.head? = some c → p c = false) : (cs ++ tail).takeWhile p = cs := by
  rw [List.takeWhile_append_of_pos (List.all_eq_true.mp h)]
  rcases tail with _ | ⟨c, tail⟩
  · rw [List.takeWhile_nil, List.append_nil]
  · rw [List.takeWhile_cons_of_neg (by simp [ht c rfl]), List.append_nil]

namespace Numeral

/-! ## Decimal digits -/

/-- One digit more multiplies the value by the radix and adds the digit. -/
theorem value_append_singleton (radix : Nat) (digits : List Char) (c : Char) :
    value radix (digits ++ [c]) = value radix digits * radix + (digit? radix c).getD 0 :=
  List.foldl_append

/-- The number of a run of digits is the sum of the digits by their places. -/
theorem value_eq_ofDigits (radix : Nat) (digits : List Char) :
    value radix digits =
      Nat.ofDigits radix (digits.reverse.map fun c => (digit? radix c).getD 0) := by
  rw [Nat.ofDigits_eq_foldr, List.map_reverse, List.foldr_reverse, List.foldl_map]
  simp only [value, Nat.cast_id, Nat.mul_comm, Nat.add_comm]

theorem isDigit_iff_le {c : Char} : c.isDigit = true ↔ '0' ≤ c ∧ c ≤ '9' := by
  simp [Char.isDigit, Char.le_def, UInt32.le_iff_toNat_le]

/-- Decimal digits have their codes in a row. -/
theorem digit?_of_isDigit {c : Char} (h : c.isDigit = true) :
    digit? 10 c = some (c.toNat - '0'.toNat) := by
  have hc := isDigit_iff_le.mp h
  have hnine : c.toNat ≤ '9'.toNat := hc.2
  rw [digit?, if_pos hc, Option.filter_eq_some_iff]
  refine ⟨rfl, ?_⟩
  rw [decide_eq_true_eq]
  change c.toNat ≤ 57 at hnine
  change c.toNat - 48 < 10
  omega

/-- The digit of a number below the radix. -/
theorem digit?_digitChar {radix n : Nat} (hn : n < radix) (hr : radix ≤ 16) :
    digit? radix (Nat.digitChar n) = some n := by
  have h16 : n < 16 := hn.trans_le hr
  have hvalue : ∀ n < 16, digit? 16 (Nat.digitChar n) = some n := by decide
  have hv := hvalue n h16
  rw [digit?, Option.filter_eq_some_iff] at hv ⊢
  exact ⟨hv.1, by simpa using hn⟩

/-- **Decimal digits denote the number that was written.** -/
@[simp]
theorem value_decimal (n : Nat) : value 10 (decimal n) = n := by
  induction n using Nat.strongRecOn with
  | ind n ih =>
    rw [decimal, Nat.toDigits_eq_if (by decide)]
    split
    · rename_i hlt
      change 0 * 10 + (digit? 10 (Nat.digitChar n)).getD 0 = n
      rw [digit?_digitChar hlt (by decide), Option.getD_some]
      omega
    · rename_i hge
      have hmod : n % 10 < 10 := Nat.mod_lt _ (by decide)
      rw [value_append_singleton, digit?_digitChar hmod (by decide), Option.getD_some]
      have hdiv := ih (n / 10) (by omega)
      rw [decimal] at hdiv
      rw [hdiv]
      omega

theorem decimal_ne_nil (n : Nat) : decimal n ≠ [] := Nat.toDigits_ne_nil

theorem isDigit_decimal (n : Nat) : (decimal n).all Char.isDigit = true :=
  List.all_eq_true.mpr fun _ hc => Nat.isDigit_of_mem_toDigits (by decide) (by decide) hc

/-- No zero stands before other digits. -/
theorem decimal_head (n : Nat) (h : 1 < (decimal n).length) : (decimal n).head? ≠ some '0' := by
  induction n using Nat.strongRecOn with
  | ind n ih =>
    rw [decimal, Nat.toDigits_eq_if (by decide)] at h ⊢
    split at h
    · simp at h
    · rename_i hge
      have hne : Nat.toDigits 10 (n / 10) ≠ [] := Nat.toDigits_ne_nil
      obtain ⟨c, cs, hcs⟩ := List.exists_cons_of_ne_nil hne
      have hhead : (Nat.toDigits 10 (n / 10) ++ [Nat.digitChar (n % 10)]).head? =
          (Nat.toDigits 10 (n / 10)).head? := by
        rw [hcs]
        rfl
      rw [if_neg hge, hhead]
      by_cases hlen : 1 < (decimal (n / 10)).length
      · exact ih (n / 10) (by omega) hlen
      · -- one digit is left, and it is not the one of zero
        have hlt : n / 10 < 10 := by
          by_contra hle
          refine hlen ?_
          rw [decimal, Nat.toDigits_eq_if (by decide), if_neg hle, List.length_append,
            List.length_singleton]
          have := Nat.length_toDigits_pos (b := 10) (n := n / 10 / 10)
          omega
        have hpos : 0 < n / 10 := by omega
        rw [Nat.toDigits_of_lt_base hlt]
        generalize n / 10 = d at hlt hpos
        interval_cases d <;> decide

/-! ## Bytes -/

/-- **The hexadecimal digits of bytes denote these bytes.** -/
@[simp]
theorem ofHex?_hexBytes (bytes : List UInt8) : ofHex? (hexBytes bytes) = some bytes := by
  induction bytes with
  | nil => rfl
  | cons b bytes ih =>
    have hhigh : b.toNat / 16 < 16 := by
      have := b.toNat_lt
      omega
    have hlow : b.toNat % 16 < 16 := Nat.mod_lt _ (by decide)
    have hb : UInt8.ofNat (b.toNat / 16 * 16 + b.toNat % 16) = b := by
      rw [Nat.div_add_mod']
      exact UInt8.ofNat_toNat
    change ofHex? (Nat.digitChar _ :: Nat.digitChar _ :: hexBytes bytes) = _
    simp only [ofHex?, digit?_digitChar hhigh le_rfl, digit?_digitChar hlow le_rfl, ih, hb,
      Option.bind_eq_bind, Option.bind_some]

/-- Bytes can be read back from their digits. -/
theorem hexBytes_injective : Function.Injective hexBytes := fun a b h =>
  Option.some.inj ((ofHex?_hexBytes a).symm.trans ((congrArg ofHex? h).trans (ofHex?_hexBytes b)))

/-! ## Digits in base `2 ^ 32` -/

theorem one_lt_bound32 : 1 < bound32 := by decide

/-- Enough digits are all of them. -/
theorem limbsWithin_eq_digits (bound n : Nat) (h : n < 2 ^ bound) :
    limbsWithin bound n = Nat.digits bound32 n := by
  induction bound generalizing n with
  | zero =>
    obtain rfl : n = 0 := by simpa using h
    rw [limbsWithin, Nat.digits_zero]
  | succ bound ih =>
    cases n with
    | zero => rw [limbsWithin, Nat.digits_zero]
    | succ n =>
      have hdiv : (n + 1) / bound32 < 2 ^ bound := by
        have : (n + 1) / bound32 ≤ (n + 1) / 2 := Nat.div_le_div_left (by decide) (by decide)
        rw [Nat.pow_succ] at h
        omega
      rw [Nat.digits_def' one_lt_bound32 n.succ_pos, ← ih _ hdiv]
      rfl

/-- The limbs of a number are its digits in a base of 32 bits. -/
theorem limbs_eq_digits (n : Nat) : limbs n = Nat.digits bound32 n :=
  limbsWithin_eq_digits _ _ Nat.lt_log2_self

theorem ofLimbs_eq_ofDigits (ds : List Nat) : ofLimbs ds = Nat.ofDigits bound32 ds :=
  (Nat.ofDigits_eq_foldr bound32 ds).symm

/-- **Digits in base `2 ^ 32` denote the number that was written.** -/
@[simp]
theorem ofLimbs_limbs (n : Nat) : ofLimbs (limbs n) = n := by
  rw [ofLimbs_eq_ofDigits, limbs_eq_digits, Nat.ofDigits_digits]

/-- Every limb fits into 32 bits. -/
theorem lt_of_mem_limbs {n d : Nat} (h : d ∈ limbs n) : d < bound32 :=
  Nat.digits_lt_base one_lt_bound32 (limbs_eq_digits n ▸ h)

end Numeral

end Michelson
