import Michelson.Proofs.Heads
import Michelson.Proofs.Names
import Michelson.Proofs.PairTrees

/-!
# Written names

The name of a well-formed macro is spelled by the letters that are written for it, and
these letters are no mnemonic of an instruction.

* `Macro.spelled_name` is the first statement.
* `MacroName.Spelled.ofMnemonic?_eq_none` is the second. A pair of two leaves is left out,
  which is spelled like the instruction.
-/

namespace Michelson

open Grammar

/-- A word that is no mnemonic is looked up in vain. -/
theorem Instr.Head.ofMnemonic?_eq_none {w : List Char}
    (h : ∀ head : Head, head.mnemonic.toList ≠ w) : ofMnemonic? (String.ofList w) = Option.none := by
  rw [ofMnemonic?, List.find?_eq_none]
  intro head _ heq
  refine h head ?_
  rw [beq_iff_eq.mp heq, String.toList_ofList]

/-- A depth begins with its letter twice. -/
theorem Grammar.DepthLetters.exists_opening {letter : Char} {w : List Char} {d : UInt32}
    (h : DepthLetters letter w d) : [letter, letter] <+: w := by
  obtain ⟨k, rfl, hd, rfl⟩ := h
  match k, hd with
  | 0, hd => exact absurd hd (by decide)
  | 1, hd => exact absurd hd (by decide)
  | k + 2, _ => exact ⟨List.replicate k letter ++ ['P'], rfl⟩

namespace MacroName

/-- The names without a depth, a pair tree or a path. -/
def constants : List MacroName :=
  .ifSome :: Fixed.all.map .fixed ++ Comparison.all.flatMap fun c =>
    [.compare c, .ifCompared c, .ifCompare c, .assertCompared c, .assertCompare c]

/-- The letters with which the other names begin. A pair of two leaves is left out. -/
def openings : List (List Char) :=
  [['D', 'I', 'I'], ['D', 'U', 'U'], ['P', 'P'], ['P', 'A', 'P'], ['U', 'N', 'P', 'P'],
    ['U', 'N', 'P', 'A', 'I'], ['U', 'N', 'P', 'A', 'P'], ['C', 'A', 'A'], ['C', 'A', 'D'],
    ['C', 'D', 'A'], ['C', 'D', 'D'], ['S', 'E', 'T', '_', 'C'], ['M', 'A', 'P', '_', 'C']]

/-- No mnemonic begins like a name, and none is a name as a whole. -/
theorem mnemonics_apart (head : Instr.Head) :
    (∀ opening ∈ openings, ¬opening <+: head.mnemonic.toList) ∧
      ∀ n ∈ constants, n.letters ≠ head.mnemonic.toList := by
  have hall : (Instr.Head.all.map fun head => head.mnemonic.toList).all (fun w =>
      openings.all (fun opening => !opening.isPrefixOf w) &&
        constants.all fun n => n.letters != w) = true := by
    decide +kernel
  have hhead := List.all_eq_true.mp hall _ (List.mem_map_of_mem head.mem_all)
  simpa only [Bool.and_eq_true, List.all_eq_true, Bool.not_eq_true', bne_iff_ne,
    ← Bool.not_eq_true, List.isPrefixOf_iff_prefix] using hhead

/-- No mnemonic begins like these names do. -/
theorem ofMnemonic?_of_opening {opening w : List Char} (h : opening ∈ openings)
    (hw : opening <+: w) : Instr.Head.ofMnemonic? (String.ofList w) = none := by
  refine Instr.Head.ofMnemonic?_eq_none fun head hhead => ?_
  rw [← hhead] at hw
  exact (mnemonics_apart head).1 opening h hw

theorem ofMnemonic?_of_constant {n : MacroName} (h : n ∈ constants) :
    Instr.Head.ofMnemonic? (String.ofList n.letters) = none :=
  Instr.Head.ofMnemonic?_eq_none fun head hhead => (mnemonics_apart head).2 n h hhead.symm

/-- **Names are no mnemonics.** -/
theorem Spelled.ofMnemonic?_eq_none {n : MacroName} {w : List Char} (h : n.Spelled w)
    (hn : ∀ t, n = .pairUp t → 3 ≤ t.leafCount) :
    Instr.Head.ofMnemonic? (String.ofList w) = none := by
  cases n with
  | fixed x | compare x | ifCompared x | ifCompare x | assertCompared x | assertCompare x =>
    obtain rfl : w = letters _ := h
    exact ofMnemonic?_of_constant (by cases x <;> decide)
  | ifSome =>
    obtain rfl : w = letters _ := h
    exact ofMnemonic?_of_constant (by decide)
  | dipDeep d =>
    obtain ⟨v, hv, rfl⟩ := h
    have hprefix := (List.prefix_cons_inj 'D').mpr hv.exists_opening
    exact ofMnemonic?_of_opening (by decide) hprefix
  | dupDeep d =>
    obtain ⟨v, hv, rfl⟩ := h
    have hprefix := (List.prefix_cons_inj 'D').mpr hv.exists_opening
    exact ofMnemonic?_of_opening (by decide) hprefix
  | pairUp t =>
    obtain ⟨ht, rfl⟩ := h
    obtain ⟨l, r, rfl, -⟩ := ht.exists_node
    cases l with
    | node l l' =>
      exact ofMnemonic?_of_opening (by decide : ['P', 'P'] ∈ openings) ⟨_, rfl⟩
    | leaf v f =>
      cases r with
      | leaf v' f' =>
        -- the name of this tree is the mnemonic of pairs
        exact absurd (hn _ rfl) (by simp [PairTree.leafCount])
      | node r r' =>
        exact ofMnemonic?_of_opening (by decide : ['P', 'A', 'P'] ∈ openings) ⟨_, rfl⟩
  | unpair t =>
    obtain ⟨ht, rfl⟩ := h
    obtain ⟨l, r, rfl, -⟩ := ht.exists_node
    cases l with
    | node l l' =>
      exact ofMnemonic?_of_opening (by decide : ['U', 'N', 'P', 'P'] ∈ openings) ⟨_, rfl⟩
    | leaf v f =>
      cases r with
      | leaf v' f' =>
        exact ofMnemonic?_of_opening (by decide : ['U', 'N', 'P', 'A', 'I'] ∈ openings) ⟨_, rfl⟩
      | node r r' =>
        exact ofMnemonic?_of_opening (by decide : ['U', 'N', 'P', 'A', 'P'] ∈ openings) ⟨_, rfl⟩
  | getPath p =>
    obtain ⟨hp, rfl⟩ := h
    rcases p with _ | ⟨side, _ | ⟨side', p⟩⟩
    · exact absurd hp (by decide)
    · exact absurd hp (Nat.not_succ_le_self 1)
    · have hopening : ['C', side.letter, side'.letter] ∈ openings := by
        cases side <;> cases side' <;> decide
      exact ofMnemonic?_of_opening hopening ⟨_, rfl⟩
  | setPath p =>
    obtain ⟨-, rfl⟩ := h
    exact ofMnemonic?_of_opening (by decide : ['S', 'E', 'T', '_', 'C'] ∈ openings) ⟨_, rfl⟩
  | mapPath p =>
    obtain ⟨-, rfl⟩ := h
    exact ofMnemonic?_of_opening (by decide : ['M', 'A', 'P', '_', 'C'] ∈ openings) ⟨_, rfl⟩

end MacroName

namespace PairTree

/-- Notes have no letters. -/
theorem letters_stripped (t : PairTree) :
    (MacroName.pairUp t.stripped).letters = (MacroName.pairUp t).letters ∧
      (MacroName.unpair t.stripped).letters = (MacroName.unpair t).letters := by
  rw [MacroName.letters, MacroName.letters, MacroName.letters, MacroName.letters, t.name_stripped.2]
  exact ⟨rfl, rfl⟩

theorem isShape_stripped {t : PairTree} (h : 2 ≤ t.leafCount) : t.stripped.IsShape :=
  ⟨t.stripped_stripped, t.leafCount_stripped.symm ▸ h⟩

/-- Two leaves would be the instruction for pairs. -/
theorem leafCount_of_pairing {t : PairTree} (h : t.isWellFormedForPairing = true) :
    3 ≤ t.leafCount := by
  simp only [isWellFormedForPairing, Bool.and_eq_true, decide_eq_true_eq] at h
  exact h.1.1.2

end PairTree

/-- **Names of macros.** What is written for the name of a well-formed macro spells it. -/
theorem Macro.spelled_name {m : Macro} (h : m.isWellFormed = true) :
    m.name.Spelled m.name.letters := by
  cases m with
  | dipDeep depth body =>
    simp only [isWellFormed, Bool.and_eq_true, decide_eq_true_eq] at h
    exact ⟨_, ⟨depth.toNat, UInt32.ofNat_toNat.symm, h.1, rfl⟩, rfl⟩
  | dupDeep depth v =>
    simp only [isWellFormed, Bool.and_eq_true, decide_eq_true_eq] at h
    exact ⟨_, ⟨depth.toNat, UInt32.ofNat_toNat.symm, h.1, rfl⟩, rfl⟩
  | pairUp shape t v =>
    simp only [isWellFormed, Bool.and_eq_true] at h
    have hcount := PairTree.leafCount_of_pairing h.1.1
    exact ⟨PairTree.isShape_stripped (by omega), rfl⟩
  | unpair shape =>
    simp only [isWellFormed, PairTree.isWellFormedForUnpairing, Bool.and_eq_true,
      decide_eq_true_eq] at h
    exact ⟨PairTree.isShape_stripped h.1.1.2, rfl⟩
  | getPath path v f =>
    simp only [isWellFormed, Bool.and_eq_true, decide_eq_true_eq] at h
    exact ⟨h.1.1, rfl⟩
  | setPath path v f =>
    simp only [isWellFormed, Bool.and_eq_true, decide_eq_true_eq] at h
    exact ⟨h.1.1, rfl⟩
  | mapPath path v f body =>
    simp only [isWellFormed, Bool.and_eq_true, decide_eq_true_eq] at h
    exact ⟨h.1.1.1, rfl⟩
  | _ => rfl

/-- No instruction has the name of a well-formed macro. -/
theorem Macro.ofMnemonic?_name {m : Macro} (h : m.isWellFormed = true) :
    Instr.Head.ofMnemonic? (String.ofList m.name.letters) = none := by
  refine (spelled_name h).ofMnemonic?_eq_none fun t ht => ?_
  cases m with
  | pairUp shape t' v =>
    obtain rfl := MacroName.pairUp.inj ht
    simp only [isWellFormed, Bool.and_eq_true] at h
    rw [PairTree.leafCount_stripped]
    exact PairTree.leafCount_of_pairing h.1.1
  | _ => cases ht

end Michelson
