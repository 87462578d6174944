import Mathlib.Data.List.Nodup
import Michelson.Decoding.Code

/-!
# Heads by their names

The words of the language and the names of encoded trees are looked up in lists.
Each list has all heads, and no two of them have the same name, so looking up the
name of a head finds this head.
-/

namespace Michelson

/-- Looking up the name of a member finds the member, if names are distinct. -/
theorem find?_name {α : Type} (name : α → String) {as : List α} (h : (as.map name).Nodup) {a : α}
    (ha : a ∈ as) : as.find? (fun b => name b == name a) = some a := by
  induction as with
  | nil => cases ha
  | cons b as ih =>
    rw [List.map_cons, List.nodup_cons] at h
    by_cases hb : name b = name a
    · rw [List.find?_cons_of_pos (by simpa using hb)]
      rcases List.mem_cons.mp ha with rfl | ha
      · rfl
      · exact absurd (List.mem_map.mpr ⟨a, ha, hb.symm⟩) h.1
    · rw [List.find?_cons_of_neg (by simpa using hb)]
      rcases List.mem_cons.mp ha with rfl | ha
      · exact absurd rfl hb
      · exact ih h.2 ha

/-! ## Types -/

/-- The list of bases has all of them. -/
theorem Base.mem_all (b : Base) : b ∈ all := by cases b <;> decide

/-- The keyword of a base is looked up as the base. -/
theorem Base.ofKeyword?_keyword (b : Base) : ofKeyword? b.keyword = some b :=
  find?_name keyword (by decide +kernel) b.mem_all

namespace Ty.Head

/-- The list of the heads of types has all of them. -/
theorem mem_all (head : Head) : head ∈ all := by
  cases head with
  | atom a => cases a with
    | base b => exact List.mem_append_right _ (List.mem_map.mpr ⟨b, b.mem_all, rfl⟩)
    | _ => decide
  | wrapped w => cases w <;> decide
  | joint j => cases j <;> decide
  | table t => cases t <;> decide
  | _ => decide

theorem ofKeyword?_keyword (head : Head) : ofKeyword? head.keyword = some head :=
  find?_name keyword (by decide +kernel) head.mem_all

end Ty.Head

/-! ## Values -/

namespace Data.Head

theorem mem_all (head : Head) : head ∈ all := by
  cases head with
  | constant c => cases c <;> decide
  | wrapped w => cases w <;> decide
  | pair => decide

theorem ofKeyword?_keyword (head : Head) : ofKeyword? head.keyword = some head :=
  find?_name keyword (by decide +kernel) head.mem_all

end Data.Head

/-! ## Instructions -/

namespace Instr.Head

theorem mem_all (head : Head) : head ∈ all := by
  cases head with
  | plain name => cases name <;> decide
  | noted name => cases name <;> decide
  | typed name => cases name <;> decide
  | branch name => cases name <;> decide
  | enclosing name => cases name <;> decide
  | traversal name => cases name <;> decide
  | project side => cases side <;> decide
  | inject side => cases side <;> decide
  | _ => decide

theorem ofMnemonic?_mnemonic (head : Head) : ofMnemonic? head.mnemonic = Option.some head :=
  find?_name mnemonic (by decide +kernel) head.mem_all

/-- The name in encoded trees finds the head. -/
theorem find?_headTag (head : Head) :
    all.find? (fun other => Decoder.headTag other == Decoder.headTag head) = Option.some head :=
  find?_name Decoder.headTag (by decide +kernel) head.mem_all

/-- One name is that of no head: it stands for a second form of an instruction. -/
theorem headTag_ne (head : Head) : Decoder.headTag head ≠ "CreateContract2" := by
  have hall : ∀ head ∈ all, Decoder.headTag head ≠ "CreateContract2" := by decide +kernel
  exact hall head head.mem_all

end Instr.Head

end Michelson
