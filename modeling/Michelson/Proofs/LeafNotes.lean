import Mathlib.Data.List.Perm.Basic
import Michelson.Proofs.RoundTrip

/-!
# Notes on the leaves of pairs

The notes of a macro on pairs are handed out to the leaves of its tree from left to right,
one to a leaf, whatever the shape of the tree is.

* `PairTree.leaves_withLeafNotes_append` says who gets what if the notes come in two parts.
* `PairTree.getElem?_leaves_withLeafNotes` is the note of a single leaf.
* `notes_are_handed_out` says so for the source text of the macros.
-/

namespace Michelson

open Rule Grammar

namespace PairTree

variable {t : PairTree}

/-- The notes of the second part begin at the leaf behind those that the first part fills. -/
theorem leaves_withLeafNotes_append (t : PairTree) (xs ys : List (Note .var × Note .field)) :
    (t.withLeafNotes (xs ++ ys)).leaves = xs.take t.leafCount ++
      (ys.take (t.leafCount - xs.length) ++ t.leaves.drop (xs.length + ys.length)) := by
  rw [withLeafNotes, (t.leaves_assign _).1, List.take_append, List.length_append,
    List.append_assoc]

/-- The two parts may be handed out one after the other, if the first leaves keep their notes
for the time being. -/
theorem withLeafNotes_append (t : PairTree) (xs ys : List (Note .var × Note .field)) :
    t.withLeafNotes (xs ++ ys) =
      (t.withLeafNotes (t.leaves.take xs.length ++ ys)).withLeafNotes xs := by
  refine ext_leaves ?_ ?_
  · rw [stripped_withLeafNotes, stripped_withLeafNotes, stripped_withLeafNotes]
  · rw [leaves_withLeafNotes_append, withLeafNotes, (leaves_assign _ xs).1, leafCount_withLeafNotes,
      leaves_withLeafNotes_append, List.length_take, length_leaves, List.take_take]
    refine congrArg _ ?_
    rcases Nat.le_total xs.length t.leafCount with hle | hge
    · rw [Nat.min_eq_left hle, Nat.min_eq_right hle, List.drop_left' ?_]
      rw [List.length_take, length_leaves, Nat.min_eq_left hle]
    · -- the first part fills all the leaves
      rw [Nat.min_eq_right hge, Nat.min_eq_left hge, Nat.sub_eq_zero_of_le hge, Nat.sub_self,
        List.take_zero, List.nil_append, List.nil_append]
      rw [List.drop_of_length_le, List.drop_of_length_le]
      · rw [List.length_append, List.length_take, List.length_drop, length_leaves]
        omega
      · rw [length_leaves]
        omega

/-- What a leaf of a tree without notes is handed out. -/
theorem getElem?_leaves_withLeafNotes (h : t.stripped = t) (xs : List (Note .var × Note .field))
    {i : Nat} (hi : i < t.leafCount) :
    (t.withLeafNotes xs).leaves[i]? = some (xs[i]?.getD (.absent, .absent)) := by
  rw [withLeafNotes, (t.leaves_assign xs).1, leaves_eq_of_stripped h, List.drop_replicate]
  rcases Nat.lt_or_ge i xs.length with hlt | hge
  · rw [List.getElem?_append_left (by rw [List.length_take]; omega), List.getElem?_take_of_lt hi,
      List.getElem?_eq_getElem hlt]
    rfl
  · rw [List.getElem?_append_right (by rw [List.length_take]; omega), List.getElem?_eq_none hge,
      List.getElem?_replicate, if_pos (by rw [List.length_take]; omega)]
    rfl

end PairTree

/-- A step that is all that is written in a block. -/
theorem parse_singleton {ts : List Token} {o : Op} (hopens : Opens ts)
    (h : Written Closes (step Knot.full) ts o) (s : Style) {cs : List Char}
    (hcs : LaysOut (s.braced [ts]) cs) : Block.parse (String.ofList cs) = .ok [o] := by
  have hitems : AreWritten (step Knot.full) [ts] [o] := .cons ⟨hopens, h⟩ .nil
  rw [Block.parse, String.toList_ofList]
  exact run_written respected_block (hitems.block s) trivial hcs

/-- What is written for some slots in another order is written for the slots in another
order. -/
theorem exists_perm_map {ι : Type} (tokens : ι → List Token) (is : List ι)
    {groups : List (List Token)} (h : groups.Perm (is.map tokens)) :
    ∃ js : List ι, groups = js.map tokens ∧ js.Perm is := by
  have hcomp := congrFun (congrFun (List.eq_map_comp_perm tokens) groups) is
  exact hcomp.mpr h

/-- **Notes on leaves.** Handing notes out keeps the shape of a tree; the first leaves get the
notes in order and the others keep their own, and a list in two parts is handed out one part
behind the other. In source text, the macro that pairs up a tree of three leaves or more is
read with a run of field notes, a type note and a variable note in any order and any layout:
each leaf gets the field note in its place, if there is one, and no variable note. The macro
that takes a pair apart is read with a run of variable notes and a run of field notes in
either order: a leaf gets the two notes in its place if there are both, or else none. -/
theorem notes_are_handed_out :
    (∀ (t : PairTree) (notes : List (Note .var × Note .field)),
      (t.withLeafNotes notes).stripped = t.stripped ∧
      (t.withLeafNotes notes).leafCount = t.leafCount ∧
      (t.withLeafNotes notes).leaves = notes.take (min t.leafCount notes.length) ++
        t.leaves.drop (min t.leafCount notes.length)) ∧
    (∀ (t : PairTree) (xs ys : List (Note .var × Note .field)),
      (t.withLeafNotes (xs ++ ys)).leaves = xs.take t.leafCount ++
        (ys.take (t.leafCount - xs.length) ++ t.leaves.drop (xs.length + ys.length)) ∧
      t.withLeafNotes (xs ++ ys) =
        (t.withLeafNotes (t.leaves.take xs.length ++ ys)).withLeafNotes xs) ∧
    (∀ (t : PairTree) (fields : List (Note .field)) (type : Note .type) (var : Note .var)
        (groups : List (List Token)), 3 ≤ t.leafCount →
      (∀ f ∈ fields, f.isWellFormed = true ∧ f.isPresent = true) → type.isWellFormed = true →
      var.isWellFormed = true →
      groups.Perm [type.tokens, var.tokens, fields.flatMap Note.tokens] →
      ∃ shape : PairTree, shape.stripped = t.stripped ∧
        (∀ i < t.leafCount, shape.leaves[i]? = some (.absent, fields[i]?.getD .absent)) ∧
        Written Closes (step Knot.full) (.word (MacroName.pairUp t).letters :: groups.flatten)
          (.mac (.pairUp shape type var)) ∧
        ∀ (s : Style) (cs : List Char),
          LaysOut (s.braced [.word (MacroName.pairUp t).letters :: groups.flatten]) cs →
          Block.parse (String.ofList cs) = .ok [.mac (.pairUp shape type var)]) ∧
    ∀ (t : PairTree) (vars : List (Note .var)) (fields : List (Note .field))
        (groups : List (List Token)), 2 ≤ t.leafCount →
      (∀ v ∈ vars, v.isWellFormed = true ∧ v.isPresent = true) →
      (∀ f ∈ fields, f.isWellFormed = true ∧ f.isPresent = true) →
      groups.Perm [vars.flatMap Note.tokens, fields.flatMap Note.tokens] →
      ∃ shape : PairTree, shape.stripped = t.stripped ∧
        (∀ i v f, i < t.leafCount → vars[i]? = some v → fields[i]? = some f →
          shape.leaves[i]? = some (v, f)) ∧
        (∀ i, i < t.leafCount → min vars.length fields.length ≤ i →
          shape.leaves[i]? = some (.absent, .absent)) ∧
        Written Closes (step Knot.full) (.word (MacroName.unpair t).letters :: groups.flatten)
          (.mac (.unpair shape)) ∧
        ∀ (s : Style) (cs : List Char),
          LaysOut (s.braced [.word (MacroName.unpair t).letters :: groups.flatten]) cs →
          Block.parse (String.ofList cs) = .ok [.mac (.unpair shape)] := by
  refine ⟨fun t notes => ⟨t.stripped_withLeafNotes notes, PairTree.leafCount_withLeafNotes, ?_⟩,
    fun t xs ys => ⟨t.leaves_withLeafNotes_append xs ys, t.withLeafNotes_append xs ys⟩,
    fun t fields type var groups hcount hfields htype hvar hgroups => ?_,
    fun t vars fields groups hcount hvars hfields hgroups => ?_⟩
  · rw [PairTree.withLeafNotes, (t.leaves_assign notes).1, ← t.length_leaves, List.take_eq_take_min,
      Nat.min_comm, List.drop_eq_drop_min]
  · -- the notes that are written are those of the three slots in some order
    obtain ⟨is, rfl, his⟩ := exists_perm_map (PairSlot.tokens ⟨type, var, fields⟩)
      [.type, .var, .fields] hgroups
    have hread := written_pairing (n := ⟨type, var, fields⟩) hcount htype hvar hfields his
    rw [← List.flatMap_def]
    refine ⟨_, PairTree.stripped_withLeafNotes _ _ |>.trans t.stripped_stripped, fun i hi => ?_,
      hread, fun s cs hcs => parse_singleton ⟨_, _, rfl, rfl⟩ hread s hcs⟩
    rw [PairTree.getElem?_leaves_withLeafNotes t.stripped_stripped _
      (t.leafCount_stripped.symm ▸ hi), List.getElem?_map]
    cases fields[i]? <;> rfl
  · obtain ⟨is, rfl, his⟩ := exists_perm_map (LeafSlot.tokens ⟨vars, fields⟩)
      [.vars, .fields] hgroups
    have hread := written_unpairing (n := ⟨vars, fields⟩) hcount hvars hfields his
    have hleaf {i : Nat} (hi : i < t.leafCount) := PairTree.getElem?_leaves_withLeafNotes
      t.stripped_stripped (vars.zip fields) (t.leafCount_stripped.symm ▸ hi)
    rw [← List.flatMap_def]
    refine ⟨_, PairTree.stripped_withLeafNotes _ _ |>.trans t.stripped_stripped,
      fun i v f hi hv hf => ?_, fun i hi hlen => ?_, hread,
      fun s cs hcs => parse_singleton ⟨_, _, rfl, rfl⟩ hread s hcs⟩
    · have hpair : (vars.zip fields)[i]? = some (v, f) := List.getElem?_zip_eq_some.mpr ⟨hv, hf⟩
      rw [hleaf hi, hpair]
      rfl
    · rw [hleaf hi, List.getElem?_eq_none (by rw [List.length_zip]; exact hlen)]
      rfl

end Michelson
