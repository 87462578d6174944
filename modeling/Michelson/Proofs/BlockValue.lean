import Michelson.Proofs.Nodes

/-!
# Blocks as values

A value in braces is tried as a map, as a sequence and then as code. What the grammar of
code reads as a block, the grammar of values reads as a value with the same extent: as
the block, if it has a step of its own, and as a sequence otherwise.

* `Track.yields_value_of_block` is the statement.
* `Track.hasOwnStep_of_yields` says what blocks can be values.
-/

namespace Michelson

open Rule Grammar

/-! ## Words that are no values -/

theorem Data.ofKeyword?_mnemonic {w : List Char} {head : Instr.Head}
    (h : Instr.Head.ofMnemonic? (String.ofList w) = some head) :
    Data.Head.ofKeyword? (String.ofList w) = none ∧ w ≠ "Elt".toList := by
  have hall : ∀ head ∈ Instr.Head.all, Data.Head.ofKeyword? head.mnemonic = none ∧
      head.mnemonic.toList ≠ "Elt".toList := by decide
  obtain ⟨hkeyword, helt⟩ := hall head (List.mem_of_find?_eq_some h)
  have hw : head.mnemonic = String.ofList w := by simpa using List.find?_some h
  rw [hw] at hkeyword helt
  exact ⟨hkeyword, by simpa using helt⟩

theorem Data.ofKeyword?_spelled {w : List Char} {n : MacroName} (h : n.Spelled w) :
    Data.Head.ofKeyword? (String.ofList w) = none ∧ w ≠ "Elt".toList := by
  obtain ⟨c, cs, rfl, -, hcs⟩ := h.exists_cons
  constructor
  · have hall : ∀ head ∈ Data.Head.all,
        head.keyword.toList.tail.all MacroName.isNameChar = false := by decide
    rcases hhead : Data.Head.ofKeyword? (String.ofList (c :: cs)) with _ | head
    · rfl
    · have hname := hall head (List.mem_of_find?_eq_some hhead)
      have hw : head.keyword = String.ofList (c :: cs) := by simpa using List.find?_some hhead
      rw [hw, String.toList_ofList, List.tail_cons, List.all_eq_true.mpr hcs] at hname
      cases hname
  · rintro heq
    obtain ⟨-, rfl⟩ := List.cons.inj heq
    exact absurd (hcs 'l' List.mem_cons_self) (by decide)

namespace Track

variable {T : Track} {k j : Nat}

/-- A step that is no nested block begins with a word that begins no value and no entry. -/
theorem OpAt.cases {o : Op} (h : T.OpAt k o j) :
    (∃ b, o = .seq b ∧ T.Yields Knot.full.block k b j) ∨
      (∀ b, o ≠ .seq b) ∧ ∃ w, T.token? k = some (.word w) ∧
        Data.Head.ofKeyword? (String.ofList w) = none ∧ w ≠ "Elt".toList := by
  cases h with
  | prim ht hw _ => exact .inr ⟨fun _ h => (nomatch h), _, ht, Data.ofKeyword?_mnemonic hw⟩
  | mac ht hn _ _ => exact .inr ⟨fun _ h => (nomatch h), _, ht, Data.ofKeyword?_spelled hn⟩
  | seq h => exact .inl ⟨_, rfl, h⟩

end Track

theorem Block.hasOwnStep_iff {b : Block} :
    Block.hasOwnStep b = true ↔ ∃ o ∈ b, ∀ b', o ≠ .seq b' := by
  rw [Block.hasOwnStep, List.any_eq_true]
  refine exists_congr fun o => and_congr_right fun _ => ?_
  cases o with
  | seq b' => exact ⟨fun h => (nomatch h), fun h => absurd rfl (h b')⟩
  | _ => exact ⟨fun _ _ h => (nomatch h), fun _ => rfl⟩

/-- A nested block and the value that it is read as. -/
def Op.IsReadAs (o : Op) (d : Data) : Prop := ∃ b, o = .seq b ∧ d = Data.ofBlock b

theorem nestedValues_eq {b : Block} {ds : List Data} (h : List.Forall₂ Op.IsReadAs b ds) :
    nestedValues b = ds := by
  induction h with
  | nil => rw [nestedValues]
  | cons ho _ ih =>
    obtain ⟨b, rfl, rfl⟩ := ho
    rw [nestedValues, ih, nestedValue, Data.ofBlock]
    split <;> rfl

namespace Track

variable {T : Track} {k j : Nat}

/-- No entry of a map begins where the first step of a block does. -/
theorem no_entry_of_block {b : Block} (h : T.Braced (step Knot.full) k b j) :
    T.token? (k + 1) ≠ some (.word "Elt".toList) := by
  intro ht
  obtain ⟨hopen, ⟨-, hend, -⟩ | ⟨-, hitems⟩⟩ := h
  · cases ht.symm.trans hend
  · have hfirst : ∃ o i, T.Yields (step Knot.full) (k + 1) o i := by
      cases hitems with
      | last h _ | lastSemicolon h _ _ | more h _ _ _ => exact ⟨_, _, h⟩
    obtain ⟨o, i, ho⟩ := hfirst
    rcases (ho.of_gives (gives_step (le_of_token? hopen))).cases with ⟨b, -, hb⟩ | ⟨-, w, ht', -, hw⟩
    · cases ht.symm.trans (hb.of_gives (gives_block (le_of_token? hopen))).1
    · exact hw (by simpa using ht'.symm.trans ht)

/-- No sequence is read where a block with a step of its own is, if the nested blocks are
settled. -/
theorem misses_sequence_of_block {b : Block} (h : T.Braced (step Knot.full) k b j)
    (hown : Block.hasOwnStep b = true)
    (hnested : ∀ i b' i', k < i → T.Yields Knot.full.block i b' i' →
      T.Yields Knot.full.value i (Data.ofBlock b') i') : T.Misses (braced Knot.full.value) k := by
  obtain ⟨hopen, ⟨rfl, -, -⟩ | ⟨hgo, hitems⟩⟩ := h
  · cases hown
  · refine misses_braced_of_items hopen hgo ?_
    refine hitems.misses (fun o => ∀ b', o ≠ .seq b') (fun o _ i i' hki ho => ?_)
      (Block.hasOwnStep_iff.mp hown)
    have hop := ho.of_gives (gives_step (ho.le.trans ho.le_length))
    rcases hop.cases with ⟨b', rfl, hb'⟩ | ⟨hne, w, ht, hw, -⟩
    · exact .inr ⟨fun hne => hne b' rfl, _, hnested i b' i' hki hb'⟩
    · exact .inl ⟨hne, misses_value_of_word ht hw⟩

/-- Where nested blocks alone are, a sequence is read, if the nested blocks are settled. -/
theorem yields_sequence_of_block {b : Block} (h : T.Braced (step Knot.full) k b j)
    (hown : ¬Block.hasOwnStep b = true)
    (hnested : ∀ i b' i', k < i → T.Yields Knot.full.block i b' i' →
      T.Yields Knot.full.value i (Data.ofBlock b') i') :
    T.Yields (sequenceLiteral Knot.full) k (.seq (nestedValues b)) j := by
  have hseq : ∃ ds, List.Forall₂ Op.IsReadAs b ds ∧ T.Braced Knot.full.value k ds j := by
    obtain ⟨hopen, ⟨rfl, hend, rfl⟩ | ⟨hgo, hitems⟩⟩ := h
    · exact ⟨[], .nil, hopen, .inl ⟨rfl, hend, rfl⟩⟩
    · have hread : ∀ o ∈ b, ∀ i i', k + 1 ≤ i → T.Yields (step Knot.full) i o i' →
          ∃ d, o.IsReadAs d ∧ T.Yields Knot.full.value i d i' := by
        intro o ho i i' hki hstep
        have hop := hstep.of_gives (gives_step (hstep.le.trans hstep.le_length))
        rcases hop.cases with ⟨b', rfl, hb'⟩ | ⟨hne, -⟩
        · exact ⟨_, ⟨b', rfl, rfl⟩, hnested i b' i' hki hb'⟩
        · exact absurd (Block.hasOwnStep_iff.mpr ⟨o, ho, hne⟩) hown
      obtain ⟨ds, hds, hitems⟩ := hitems.exists_forall₂ hread
      exact ⟨ds, hds, hopen, .inr ⟨hgo, hitems⟩⟩
  obtain ⟨ds, hds, hbraced⟩ := hseq
  rw [nestedValues_eq hds]
  exact hbraced.yields.map _

/-- What the grammar of values makes of a block, if the nested blocks are settled. -/
theorem yields_plainValue_of_block {b : Block} (h : T.Braced (step Knot.full) k b j)
    (hnested : ∀ i b' i', k < i → T.Yields Knot.full.block i b' i' →
      T.Yields Knot.full.value i (Data.ofBlock b') i') :
    T.Yields (plainValue Knot.full) k (Data.ofBlock b) j := by
  have hopen := h.1
  have hk : k ≤ T.length := h.yields.le.trans h.yields.le_length
  have hmap := misses_mapLiteral hopen (no_entry_of_block h)
  obtain ⟨hi, hs, hb⟩ := misses_literals hopen ⟨_, rfl⟩ ⟨_, rfl⟩ ⟨_, rfl⟩
  have hword : T.Misses (dataWord Knot.full) k := by
    refine misses_dataWord hk fun w ht => ?_
    rw [hopen] at ht
    cases ht
  refine hi.firstOf_yields (hs.firstOf_yields (hb.firstOf_yields (hword.firstOf_yields
    (hmap.firstOf_yields ?_))))
  rw [Data.ofBlock]
  split
  · -- a step of its own makes the sequence miss
    rename_i hown
    refine Misses.firstOf_yields ((misses_sequence_of_block h hown hnested).bind _) ?_
    exact (yields_block h).map _
  · -- all steps are nested blocks, and each is read as a value
    rename_i hown
    exact (yields_sequence_of_block h hown hnested).firstOf _ _

/-- **Blocks as values.** Where a block is read, a value with the same extent is. -/
theorem yields_value_of_block {b : Block} (h : T.Yields Knot.full.block k b j) :
    T.Yields Knot.full.value k (Data.ofBlock b) j := by
  have hall : ∀ k ≤ T.length, ∀ b j, T.Yields Knot.full.block k b j →
      T.Yields Knot.full.value k (Data.ofBlock b) j := by
    refine places_induction fun k hk ih b j h => ?_
    have hbraced := h.of_gives (gives_block hk)
    have hopen : T.token? k ≠ some (.mark '(') := by
      rw [hbraced.1]
      decide
    refine wraps_value.yields hopen (yields_plainValue_of_block hbraced fun i b' i' hki hb' => ?_)
    exact ih i hki (hb'.le.trans hb'.le_length) b' i' hb'
  exact hall k (h.le.trans h.le_length) b j h

/-- A block that is read as a value has a step of its own. -/
theorem hasOwnStep_of_yields {b : Block} {i : Nat} (hb : T.Yields Knot.full.block k b j)
    (h : T.Yields Knot.full.value k (.code b) i) : Block.hasOwnStep b = true := by
  obtain ⟨heq, -⟩ := (yields_value_of_block hb).unique h
  rw [Data.ofBlock] at heq
  split at heq
  · assumption
  · cases heq

end Track

end Michelson
