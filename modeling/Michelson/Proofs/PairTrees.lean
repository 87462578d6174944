import Michelson.Proofs.Letters
import Michelson.WellFormed

/-!
# The leaves of pair trees

A macro on pairs spells the shape of a tree, and its notes are handed out to the leaves
from left to right.

* `PairTree.leaves_assign` says what notes the leaves have then, and
  `PairTree.stripped_withLeafNotes_filled` what notes make the tree again.
* `PairTree.isWellFormedForPairing_withLeafNotes` and the theorem for taking apart say
  that the trees of macros are well formed.
-/

namespace Michelson

theorem isFilledInOrder_append {filled empty : List Bool} (hf : ∀ b ∈ filled, b = true)
    (he : ∀ b ∈ empty, b = false) : isFilledInOrder (filled ++ empty) = true := by
  have hdrop : (filled ++ empty).dropWhile id = empty.dropWhile id :=
    List.dropWhile_append_of_pos hf
  rw [isFilledInOrder, hdrop, List.all_eq_true]
  intro b hb
  rw [he b ((List.dropWhile_sublist id).subset hb)]
  rfl

/-- What is filled in order is a row of filled ones and a row of empty ones. -/
theorem exists_of_isFilledInOrder {α : Type} {p : α → Bool} {as : List α}
    (h : isFilledInOrder (as.map p) = true) : ∃ filled empty, as = filled ++ empty ∧
      (∀ a ∈ filled, p a = true) ∧ ∀ a ∈ empty, p a = false := by
  refine ⟨as.takeWhile p, as.dropWhile p, List.takeWhile_append_dropWhile.symm,
    fun a ha => List.mem_takeWhile_imp ha, ?_⟩
  rw [isFilledInOrder, List.dropWhile_map, List.all_map, List.all_eq_true] at h
  exact fun a ha => by simpa using h a ha

namespace PairTree

/-- The leaves of a tree are as many as it counts. -/
theorem length_leaves (t : PairTree) : t.leaves.length = t.leafCount := by
  induction t with
  | leaf v f => rfl
  | node l r ihl ihr => rw [leaves, List.length_append, ihl, ihr, leafCount]

/-- Notes are handed out to the first leaves, and the others keep their own. -/
theorem leaves_assign (t : PairTree) (notes : List (Note .var × Note .field)) :
    (t.assign notes).1.leaves = notes.take t.leafCount ++ t.leaves.drop notes.length ∧
      (t.assign notes).2 = notes.drop t.leafCount := by
  induction t generalizing notes with
  | leaf v f =>
    cases notes with
    | nil => exact ⟨rfl, rfl⟩
    | cons n notes => simp [assign, leaves, leafCount]
  | node l r ihl ihr =>
    obtain ⟨hl, hrest⟩ := ihl notes
    obtain ⟨hr, hrest'⟩ := ihr (notes.drop l.leafCount)
    have hassign : (node l r).assign notes =
        (node (l.assign notes).1 (r.assign (notes.drop l.leafCount)).1,
          (r.assign (notes.drop l.leafCount)).2) := by
      rw [← hrest]
      rfl
    rw [hassign, leaves, leaves, leafCount, hl, hr, hrest', List.drop_drop, List.length_drop]
    refine ⟨?_, rfl⟩
    rw [List.drop_append, length_leaves, List.take_add]
    rcases le_or_gt l.leafCount notes.length with hle | hlt
    · have hnone : l.leaves.drop notes.length = [] :=
        List.drop_of_length_le (l.length_leaves.trans_le hle)
      rw [hnone, List.append_nil, List.nil_append, List.append_assoc]
    · have hnone : notes.drop l.leafCount = [] := List.drop_of_length_le hlt.le
      rw [hnone, List.take_nil, List.append_nil, List.nil_append, List.append_assoc]

/-- A tree without notes. -/
theorem leaves_eq_of_stripped {t : PairTree} (h : t.stripped = t) :
    t.leaves = List.replicate t.leafCount (.absent, .absent) := by
  rw [← h]
  clear h
  induction t with
  | leaf v f => rfl
  | node l r ihl ihr =>
    rw [stripped, leaves, leafCount, ihl, ihr, List.replicate_append_replicate]

section WithLeafNotes

variable {t : PairTree} (h : t.stripped = t) (notes : List (Note .var × Note .field))

include h

/-- The leaves of a tree without notes after notes have been handed out. -/
theorem leaves_withLeafNotes : ∃ empty, (∀ leaf ∈ empty, leaf = (.absent, .absent)) ∧
    (t.withLeafNotes notes).leaves = notes.take t.leafCount ++ empty := by
  refine ⟨_, fun leaf hleaf => ?_, (t.leaves_assign notes).1⟩
  rw [leaves_eq_of_stripped h] at hleaf
  exact List.eq_of_mem_replicate (List.mem_of_mem_drop hleaf)

variable {notes}

theorem forall_leaves_withLeafNotes {P : Note .var × Note .field → Prop}
    (hnotes : ∀ leaf ∈ notes, P leaf) (hempty : P (.absent, .absent)) :
    ∀ leaf ∈ (t.withLeafNotes notes).leaves, P leaf := by
  obtain ⟨empty, hall, heq⟩ := leaves_withLeafNotes h notes
  rw [heq, List.forall_mem_append]
  refine ⟨fun leaf hleaf => hnotes leaf (List.mem_of_mem_take hleaf), fun leaf hleaf => ?_⟩
  rw [hall leaf hleaf]
  exact hempty

theorem isFilledInOrder_withLeafNotes (hnotes : ∀ leaf ∈ notes, leaf.2.isPresent = true) :
    isFilledInOrder ((t.withLeafNotes notes).leaves.map fun leaf => leaf.2.isPresent) = true := by
  obtain ⟨empty, hall, heq⟩ := leaves_withLeafNotes h notes
  rw [heq, List.map_append]
  refine isFilledInOrder_append (List.forall_mem_map.mpr fun leaf hleaf => ?_)
    (List.forall_mem_map.mpr fun leaf hleaf => ?_)
  · exact hnotes leaf (List.mem_of_mem_take hleaf)
  · rw [hall leaf hleaf]
    rfl

omit h in
/-- Notes make no leaves. -/
theorem leafCount_withLeafNotes : (t.withLeafNotes notes).leafCount = t.leafCount := by
  rw [← length_leaves, withLeafNotes, (t.leaves_assign notes).1, List.length_append,
    List.length_take, List.length_drop, length_leaves]
  omega

/-- The tree of a macro that pairs up. -/
theorem isWellFormedForPairing_withLeafNotes (hcount : 3 ≤ t.leafCount) {fields : List (Note .field)}
    (hfields : ∀ n ∈ fields, n.isWellFormed = true ∧ n.isPresent = true) :
    (t.withLeafNotes (fields.map fun f => (.absent, f))).isWellFormedForPairing = true := by
  have hnotes {P : Note .var × Note .field → Prop} (hP : ∀ n ∈ fields, P (.absent, n)) :
      ∀ leaf ∈ fields.map fun f => (.absent, f), P leaf := List.forall_mem_map.mpr hP
  rw [isWellFormedForPairing, hasWellFormedNotes, leafCount_withLeafNotes]
  simp only [Bool.and_eq_true, decide_eq_true_eq, List.all_eq_true]
  refine ⟨⟨⟨?_, hcount⟩, ?_⟩, ?_⟩
  · exact forall_leaves_withLeafNotes h (hnotes fun n hn => ⟨rfl, (hfields n hn).1⟩) ⟨rfl, rfl⟩
  · exact forall_leaves_withLeafNotes h (hnotes fun _ _ => rfl) rfl
  · exact isFilledInOrder_withLeafNotes h (hnotes fun n hn => (hfields n hn).2)

/-- The tree of a macro that takes a pair apart. -/
theorem isWellFormedForUnpairing_withLeafNotes (hcount : 2 ≤ t.leafCount) {vars : List (Note .var)}
    {fields : List (Note .field)} (hvars : ∀ n ∈ vars, n.isWellFormed = true ∧ n.isPresent = true)
    (hfields : ∀ n ∈ fields, n.isWellFormed = true ∧ n.isPresent = true) :
    (t.withLeafNotes (vars.zip fields)).isWellFormedForUnpairing = true := by
  have hmem {leaf : Note .var × Note .field} (hleaf : leaf ∈ vars.zip fields) :
      leaf.1 ∈ vars ∧ leaf.2 ∈ fields := List.of_mem_zip hleaf
  rw [isWellFormedForUnpairing, hasWellFormedNotes, leafCount_withLeafNotes]
  simp only [Bool.and_eq_true, decide_eq_true_eq, List.all_eq_true, beq_iff_eq]
  refine ⟨⟨⟨?_, hcount⟩, ?_⟩, ?_⟩
  · exact forall_leaves_withLeafNotes h (fun leaf hleaf =>
      ⟨(hvars _ (hmem hleaf).1).1, (hfields _ (hmem hleaf).2).1⟩) ⟨rfl, rfl⟩
  · refine forall_leaves_withLeafNotes h (fun leaf hleaf => ?_) rfl
    rw [(hvars _ (hmem hleaf).1).2, (hfields _ (hmem hleaf).2).2]
  · exact isFilledInOrder_withLeafNotes h fun leaf hleaf => (hfields _ (hmem hleaf).2).2

end WithLeafNotes

/-! ## Trees from their leaves -/

theorem stripped_stripped (t : PairTree) : t.stripped.stripped = t.stripped := by
  induction t with
  | leaf v f => rfl
  | node l r ihl ihr => rw [stripped, stripped, ihl, ihr]

theorem leafCount_stripped (t : PairTree) : t.stripped.leafCount = t.leafCount := by
  induction t with
  | leaf v f => rfl
  | node l r ihl ihr => rw [stripped, leafCount, leafCount, ihl, ihr]

/-- The notes are no part of the name. -/
theorem name_stripped (t : PairTree) :
    t.stripped.leftName = t.leftName ∧ t.stripped.rightName = t.rightName := by
  induction t with
  | leaf v f => exact ⟨rfl, rfl⟩
  | node l r ihl ihr =>
    rw [stripped, leftName, leftName, rightName, rightName, ihl.1, ihr.2]
    exact ⟨rfl, rfl⟩

/-- A tree is its shape and the notes at its leaves. -/
theorem ext_leaves {t t' : PairTree} (hs : t.stripped = t'.stripped) (hl : t.leaves = t'.leaves) :
    t = t' := by
  induction t generalizing t' with
  | leaf v f =>
    cases t' with
    | leaf v' f' =>
      obtain ⟨rfl, rfl⟩ := Prod.mk.inj (List.singleton_inj.mp hl)
      rfl
    | node l' r' => cases hs
  | node l r ihl ihr =>
    cases t' with
    | leaf v' f' => cases hs
    | node l' r' =>
      obtain ⟨hsl, hsr⟩ := PairTree.node.inj hs
      have hlength : l.leaves.length = l'.leaves.length := by
        rw [length_leaves, length_leaves, ← l.leafCount_stripped, hsl, leafCount_stripped]
      obtain ⟨hll, hlr⟩ := List.append_inj hl hlength
      rw [ihl hsl hll, ihr hsr hlr]

/-- The notes that are handed out can be taken away again. -/
theorem stripped_withLeafNotes (t : PairTree) (notes : List (Note .var × Note .field)) :
    (t.withLeafNotes notes).stripped = t.stripped := by
  rw [withLeafNotes]
  induction t generalizing notes with
  | leaf v f => cases notes <;> rfl
  | node l r ihl ihr =>
    change node (l.assign notes).1.stripped (r.assign (l.assign notes).2).1.stripped = _
    rw [ihl, ihr, stripped]

/-- A tree is made of its shape and of the notes on its first leaves, if the others have
none. -/
theorem stripped_withLeafNotes_filled {t : PairTree} {filled empty : List (Note .var × Note .field)}
    (h : t.leaves = filled ++ empty) (hempty : ∀ leaf ∈ empty, leaf = (.absent, .absent)) :
    t.stripped.withLeafNotes filled = t := by
  have hcount : t.leafCount = filled.length + empty.length := by
    rw [← length_leaves, h, List.length_append]
  refine ext_leaves ?_ ?_
  · rw [stripped_withLeafNotes, stripped_stripped]
  · rw [withLeafNotes, (leaves_assign _ _).1, leaves_eq_of_stripped t.stripped_stripped,
      leafCount_stripped, hcount, List.take_of_length_le (Nat.le_add_right _ _),
      List.drop_replicate, Nat.add_sub_cancel_left, h]
    exact congrArg _ (List.eq_replicate_iff.mpr ⟨rfl, hempty⟩).symm

/-- A pair of two leaves is spelled like the instruction. -/
theorem rightName_of_leafCount {t : PairTree} (h : t.IsShape) (hcount : t.leafCount < 3) :
    t.rightName = ['P', 'A', 'I'] := by
  obtain ⟨l, r, rfl, -⟩ := h.exists_node
  have hl := l.leafCount_pos
  have hr := r.leafCount_pos
  rw [leafCount] at hcount
  cases l with
  | leaf _ _ =>
    cases r with
    | leaf _ _ => rfl
    | node r r' =>
      have := r.leafCount_pos
      have := r'.leafCount_pos
      simp only [leafCount] at hcount
      omega
  | node l l' =>
    have := l.leafCount_pos
    have := l'.leafCount_pos
    simp only [leafCount] at hcount
    omega

end PairTree

end Michelson
