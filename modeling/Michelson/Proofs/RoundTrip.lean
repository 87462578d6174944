import Michelson.Proofs.WellFormed
import Michelson.Proofs.Written.Trees

/-!
# Writing and reading

Source text that is written for a contract in any style is read as the contract, if it
is well formed, and for no other contract is this so: `Contract.parse_sourceIn_iff`.
-/

namespace Michelson

open Rule Grammar

/-- One space between tokens lays them out. -/
theorem Token.laysOut_spaced (ts : List Token) : LaysOut ts (spaced ts) := by
  induction ts with
  | nil => exact .layout .empty
  | cons t ts ih =>
    cases ts with
    | nil =>
      have hlast : LaysOut [t] ([] ++ t.text ++ []) := .last .empty .empty
      rwa [List.nil_append, List.append_nil] at hlast
    | cons u us =>
      have hspace : IsLayout [' '] := .blank isBlank_space .empty
      have hcons : LaysOut (t :: u :: us) ([] ++ t.text ++ [' '] ++ spaced (u :: us)) :=
        .cons .empty hspace (List.cons_ne_nil _ _) ih
      rwa [List.nil_append, List.append_assoc] at hcons

/-- What is written for a value is read as the value by a whole run, however it is laid
out. -/
theorem Grammar.run_written {α : Type} {rule : Knot → Rule α} (hr : Respected rule)
    {F : Option Token → Prop} {ts : List Token} {a : α} (h : Written F (rule Knot.full) ts a)
    (hF : F none) {cs : List Char} (hcs : LaysOut ts cs) : (run rule none cs).result = .ok a := by
  obtain ⟨front, T, rfl, hfront, horigin, hT⟩ := hcs.exists_track h.valid
  have hat : T.At 0 (ts ++ []) := ⟨Nat.zero_le _, by rw [List.drop_zero, List.append_nil, hT]⟩
  obtain ⟨j, hj, hend⟩ := h.reads hat hF
  -- no token is left
  have hge : T.length ≤ j := T.length_tokens ▸ List.drop_eq_nil_iff.mp hend.drop
  obtain rfl : j = T.length := le_antisymm hend.le hge
  exact (run_ok_iff hr).mpr ⟨front, T, rfl, hfront, horigin, hj⟩

/-- A text that is one token, in any layout, is read as what the token is read as. -/
theorem Data.parse_token {t : Token} {d : Data} (h : Written Quiet Knot.full.value [t] d)
    {front back : List Char} (hf : IsLayout front) (hb : IsLayout back) :
    Data.parse (String.ofList (front ++ t.text ++ back)) = .ok d := by
  rw [Data.parse, String.toList_ofList]
  exact run_written respected_value h (by rintro _ _ ⟨⟩) (.last hf hb)

/-- **Writing and reading.** In any style, the source text of a contract is read as the
contract if and only if the contract is well formed. -/
theorem Contract.parse_sourceIn_iff (c : Contract) (s : Style) :
    Contract.parse (c.sourceIn s) = .ok c ↔ c.isWellFormed = true := by
  constructor
  · intro h
    exact run_invariant respected_contractRule
      (fun T => Track.wellFormed_contractRule T.wellFormed_code (Nat.zero_le _)) h
  · intro h
    have hlaid : LaysOut (c.tokens s) (c.sourceIn s).toList := by
      rw [sourceIn, String.toList_ofList]
      exact Token.laysOut_spaced _
    exact run_written respected_contractRule (written_contract h s) (by rintro _ ⟨⟩) hlaid

/-- The source text of a contract that drops what it is given. -/
example :
    Contract.source
        ⟨.atom .absent (.base .int), .atom ⟨some "s"⟩ (.base .nat), [.prim (.plain .drop)]⟩ =
      "parameter int ; storage nat :s ; code \x7b DROP \x7d ;" := by
  decide +kernel

end Michelson
