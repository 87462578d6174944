import Michelson.Proofs.Fitting.Names
import Michelson.Proofs.NameLanguage
import Michelson.Proofs.PairTrees

/-!
# The letters of pairs

The letters of a pair say where they end: the reader of pair trees looks one letter ahead
and is told no length, and yet it passes the letters of one tree and stops behind them,
whatever the text goes on with.

* `Grammar.pairTree_of_limit` compares a run under a limit on nesting with the run without
  one, and `Grammar.pairTree_stops` says where a limit that is too low stops the reader.
* `pair_names_are_a_code` says that the letters and the trees correspond one to one.
-/

namespace Michelson

open Rule Grammar

namespace PairTree

/-- The letters of a tree have one `P` for each pair. -/
theorem count_name (t : PairTree) :
    t.leftName.count 'P' + 1 = t.leafCount ∧ t.rightName.count 'P' + 1 = t.leafCount := by
  induction t with
  | leaf v f => exact ⟨rfl, rfl⟩
  | node l r ihl ihr =>
    have hcount : ('P' :: (l.leftName ++ r.rightName)).count 'P' + 1 =
        l.leafCount + r.leafCount := by
      rw [List.count_cons_self, List.count_append]
      omega
    exact ⟨hcount, hcount⟩

theorem height_stripped (t : PairTree) : t.stripped.height = t.height := by
  induction t with
  | leaf v f => rfl
  | node l r ihl ihr => rw [stripped, height, height, ihl, ihr]

end PairTree

namespace Grammar

variable {limit : Option Nat} {s u : State} {t : PairTree} {l : Nat} {w tail : List Char}

/-! ## Without a limit on nesting -/

/-- A text that is given enough calls is read by the reader of pair trees of the full
grammar. -/
theorem pairTree_tied (limit : Option Nat) (s : State) {calls : Nat}
    (h : 2 * (s.cursor.rest.length + 1) ≤ calls) :
    (Knot.tied calls).pairTree limit s = Knot.full.pairTree limit s := by
  have hagree := Knot.agree_tied_full limit (n := s.cursor.rest.length + 1) h
  exact (hagree.pairTree _ le_rfl s s ⟨rfl, trivial, Nat.lt_succ_self _⟩ rfl).eq

/-- What the reader has read are the letters of the tree. -/
theorem pairTree_passed (h : Knot.full.pairTree none s = ⟨.ok t, u⟩) :
    t.IsShape ∧ ∃ tail, s.cursor.rest = t.rightName ++ tail ∧ u = s.past t.rightName := by
  rcases pairTree_cases _ s (Nat.lt_succ_self _) with
    ⟨c, hmiss⟩ | ⟨_, t', tail, hrest, ⟨ht, rfl⟩, hrun⟩
  · rw [hmiss] at h
    cases h
  · rw [hrun] at h
    cases h
    exact ⟨ht, tail, hrest, rfl⟩

/-- **The letters of pairs part by themselves.** A text has the letters of one pair in front. -/
theorem rightName_unique {t' : PairTree} {tail' : List Char} (ht : t.IsShape) (ht' : t'.IsShape)
    (h : t.rightName ++ tail = t'.rightName ++ tail') : t = t' ∧ tail = tail' := by
  -- the reader makes one tree of the text
  have hread := pairTree_reads ht (s := State.initial (t.rightName ++ tail)) rfl
  have hread' := pairTree_reads ht' (s := State.initial (t.rightName ++ tail)) h
  obtain rfl : t = t' := Verdict.ok.inj (congrArg Reply.verdict (hread.symm.trans hread'))
  exact ⟨rfl, List.append_cancel_left h⟩

/-! ## With a limit -/

/-- A limit on nesting makes no difference to the reader, unless it stops it. -/
theorem pairTree_of_limit (limit : Option Nat) (s : State) :
    Knot.full.pairTree limit s = Knot.full.pairTree none s ∨
      ∃ p l, limit = some l ∧
        (Knot.full.pairTree limit s).verdict = .halt (.error (.depth p l)) := by
  have T := SameText.agreeing (looser_none limit)
  have hrelated := related_full T.congruence (T.related_zero _ _) (s.cursor.rest.length + 1)
  have hrun := hrelated.pairTree _ le_rfl s s ⟨rfl, trivial, Nat.lt_succ_self _⟩ rfl
  exact hrun.eq_or.imp_right And.right

section Stops

variable {α β : Type} {r : Rule α} {k : α → Rule β} {v : List Char}

/-- Within some letters the rule meets a pair that is nested too deep, and halts there. -/
def StopsWithin (r : Rule α) (l : Nat) (s : State) (w : List Char) : Prop :=
  ∃ u v, w = u ++ 'P' :: v ∧
    r (some l) s = raise (.depth (s.past u).cursor.position l) (some l) (s.past u)

namespace StopsWithin

theorem bind (h : StopsWithin r l s w) (v : List Char) : StopsWithin (r >>= k) l s (w ++ v) := by
  obtain ⟨u, u', rfl, hrun⟩ := h
  refine ⟨u, u' ++ v, by rw [List.append_assoc, List.cons_append], ?_⟩
  rw [bind_halt hrun]
  rfl

theorem bind_ok {a : α} (hr : r (some l) s = ⟨.ok a, s.past v⟩)
    (h : StopsWithin (k a) l (s.past v) w) : StopsWithin (r >>= k) l s (v ++ w) := by
  obtain ⟨u, u', rfl, hrun⟩ := h
  refine ⟨v ++ u, u', (List.append_assoc v u _).symm, ?_⟩
  rw [Rule.bind_ok hr, hrun, State.past_append]

theorem nested (h : s.depth < l → StopsWithin r l { s with depth := s.depth + 1 } ('P' :: w)) :
    StopsWithin (Rule.nested r) l s ('P' :: w) := by
  rcases Nat.lt_or_ge s.depth l with hlevel | hlevel
  · obtain ⟨u, u', hsplit, hrun⟩ := h hlevel
    refine ⟨u, u', hsplit, ?_⟩
    rw [nested_some, if_neg (Nat.not_le.mpr hlevel), deeper, hrun]
    rfl
  · refine ⟨[], w, rfl, ?_⟩
    rw [nested_some, if_pos hlevel]
    rfl

theorem treeOr {leaf : Char} (hleaf : leaf ≠ 'P') (hw : TreeOr leaf w t)
    (hrest : s.cursor.rest = w ++ tail) (hroom : s.depth ≤ l) (hdeep : l < s.depth + t.height)
    (h : t.IsShape → w = t.rightName → StopsWithin Knot.full.pairTree l s w) :
    StopsWithin (treeOr Knot.full leaf) l s w := by
  rcases hw with ⟨rfl, rfl⟩ | ⟨ht, rfl⟩
  · -- a leaf takes no level
    exact absurd hdeep (Nat.not_lt.mpr hroom)
  · obtain ⟨u, v, hsplit, hrun⟩ := h ht rfl
    refine ⟨u, v, hsplit, ?_⟩
    obtain ⟨a, b, rfl, -⟩ := ht.exists_node
    rw [Grammar.treeOr, peek?_bind, hrest, PairTree.rightName, List.cons_append, List.head?_cons,
      if_neg fun hc => hleaf (Option.some.inj hc).symm]
    exact hrun

end StopsWithin

end Stops

/-- **Levels that are missing.** Where the limit leaves fewer levels than the tree is high,
the reader halts at the letter of a pair that is nested too deep. -/
theorem pairTree_stops (ht : t.IsShape) : ∀ {s : State} {tail : List Char},
    s.cursor.rest = t.rightName ++ tail → l < s.depth + t.height →
      StopsWithin Knot.full.pairTree l s t.rightName := by
  have H := handedFlat_flat
  induction t with
  | leaf =>
    intro _ _ _
    exact absurd ht.2 (by simp [PairTree.leafCount])
  | node a b iha ihb =>
    intro s tail hrest hdeep
    obtain ⟨_, _, heq, ha, hb⟩ := ht.exists_node
    obtain ⟨rfl, rfl⟩ := PairTree.node.inj heq
    rw [PairTree.height] at hdeep
    rw [← pairTreeRule_full, pairTreeRule, leftTree_eq, rightTree_eq]
    refine StopsWithin.nested fun hlevel => ?_
    have hP : ({ s with depth := s.depth + 1 } : State).cursor.rest =
        "P".toList ++ (a.leftName ++ (b.rightName ++ tail)) := by
      rw [hrest, PairTree.rightName, List.cons_append, List.append_assoc]
      rfl
    have hrestA := State.rest_past hP
    have hletters := (((H.letters "P").fits { s with depth := s.depth + 1 } 0).same l hlevel).trans
      (letters_reads "P" hP)
    refine StopsWithin.bind_ok hletters ?_
    rcases Nat.lt_or_ge l (s.depth + 1 + a.height) with hstop | hroom
    · -- the left part is too high already
      refine StopsWithin.bind (.treeOr (by decide) (treeOr_leftName ha) hrestA hlevel hstop ?_) _
      intro ht hname
      rw [hname]
      exact iha ht (hname ▸ hrestA) hstop
    · -- the left part is read, and the right one is too high
      have hleft := treeOr_reads (g := Knot.full) 'A' (by decide) (treeOr_leftName ha) hrestA
        fun s ht hs => pairTree_reads ht hs
      have hfits := fits_treeOr 'A' (by decide) (treeOr_leftName ha) hrestA
        fun ht s hs => fits_pairTree ht hs
      have hrestB := State.rest_past hrestA
      have hstop : l < s.depth + 1 + b.height := by omega
      refine StopsWithin.bind_ok ((hfits.same l hroom).trans hleft) ?_
      have hright := StopsWithin.treeOr (by decide) (treeOr_rightName hb) hrestB hlevel hstop
        fun ht _ => ihb ht hrestB hstop
      simpa only [List.append_nil] using hright.bind (k := fun r => pure (a.node r)) []

/-- The limits under which the letters of a tree are read are those that leave as many levels
as the tree is high. -/
theorem pairTree_within (ht : t.IsShape) (hrest : s.cursor.rest = t.rightName ++ tail) :
    (s.depth + t.height ≤ l → Knot.full.pairTree (some l) s = ⟨.ok t, s.past t.rightName⟩) ∧
    (l < s.depth + t.height → StopsWithin Knot.full.pairTree l s t.rightName) :=
  ⟨fun hroom => ((fits_pairTree ht hrest).same l hroom).trans (pairTree_reads ht hrest),
    pairTree_stops ht hrest⟩

end Grammar

/-- **The letters of pairs are a code.** Without a limit on nesting the reader of pair trees
passes the letters of every pair, whatever comes behind them, and yields the tree without
notes; under any limit, what it has passed when it yields a tree are the letters of this tree,
with one `P` less than there are leaves. So the letters of one pair begin those of another
only if the trees are the same. Under a limit the letters are read just if the limit leaves as
many levels as the tree is high; else the reader halts at the `P` of a pair that is nested too
deep, with the error about the limit. -/
theorem pair_names_are_a_code :
    (∀ (l r : PairTree) (rest : List Char) (s : State),
      s.cursor.rest = (l.node r).rightName ++ rest →
      Knot.full.pairTree none s = ⟨.ok (l.node r).stripped, s.past (l.node r).rightName⟩ ∧
      (s.past (l.node r).rightName).cursor.rest = rest) ∧
    (∀ (limit : Option Nat) (s u : State) (t : PairTree),
      Knot.full.pairTree limit s = ⟨.ok t, u⟩ →
      (∃ l r, t = .node l r) ∧ t.stripped = t ∧ u = s.past t.rightName ∧
      s.cursor.rest = t.rightName ++ u.cursor.rest ∧
      t.leafCount = t.rightName.count 'P' + 1) ∧
    (∀ l r l' r' : PairTree, (l.node r).rightName <+: (l'.node r').rightName →
      (l.node r).stripped = (l'.node r').stripped) ∧
    (∀ (l r : PairTree) (rest : List Char) (s : State) (limit : Nat),
      s.cursor.rest = (l.node r).rightName ++ rest →
      (s.depth + (l.node r).height ≤ limit → Knot.full.pairTree (some limit) s =
        ⟨.ok (l.node r).stripped, s.past (l.node r).rightName⟩) ∧
      (limit < s.depth + (l.node r).height → ∃ before behind,
        (l.node r).rightName = before ++ 'P' :: behind ∧
        Knot.full.pairTree (some limit) s =
          ⟨.halt (.error (.depth (s.past before).cursor.position limit)),
            (s.past before).log (.raised (.depth (s.past before).cursor.position limit))⟩)) ∧
    ∀ (limit : Option Nat) (s : State) (calls : Nat), 2 * (s.cursor.rest.length + 1) ≤ calls →
      (Knot.tied calls).pairTree limit s = Knot.full.pairTree limit s := by
  have hshape (l r : PairTree) : (l.node r).stripped.IsShape :=
    PairTree.isShape_node l.stripped_stripped r.stripped_stripped
  have hname (t : PairTree) : t.stripped.rightName = t.rightName := t.name_stripped.2
  refine ⟨fun l r rest s hrest => ?_, fun limit s u t hrun => ?_, fun l r l' r' hprefix => ?_,
    fun l r rest s limit hrest => ?_, fun limit s calls h => pairTree_tied limit s h⟩
  · rw [← hname] at hrest ⊢
    exact ⟨pairTree_reads (hshape l r) hrest, State.rest_past hrest⟩
  · -- a run that its limit does not stop goes as the one without
    have hnone : Knot.full.pairTree none s = ⟨.ok t, u⟩ := by
      rcases pairTree_of_limit limit s with heq | ⟨p, l, -, hstop⟩
      · rw [← heq, hrun]
      · rw [hrun] at hstop
        cases hstop
    obtain ⟨ht, tail, hrest, rfl⟩ := pairTree_passed hnone
    obtain ⟨l, r, hnode, -⟩ := ht.exists_node
    refine ⟨⟨l, r, hnode⟩, ht.1, rfl, ?_, t.count_name.2.symm⟩
    rw [State.rest_past hrest, hrest]
  · obtain ⟨tail, htail⟩ := hprefix
    have hsplit : (l.node r).stripped.rightName ++ tail =
        (l'.node r').stripped.rightName ++ [] := by
      rw [hname, hname, htail, List.append_nil]
    exact (rightName_unique (hshape l r) (hshape l' r') hsplit).1
  · rw [← hname] at hrest ⊢
    rw [← PairTree.height_stripped]
    exact pairTree_within (hshape l r) hrest

end Michelson
