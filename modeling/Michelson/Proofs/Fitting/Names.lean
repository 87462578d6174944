import Michelson.Proofs.Fitting

/-!
# Levels of macro names

The name of a macro is tried with one reading after another. Only the letters of pair trees
nest, and they take a level before they are looked at.

* `fits_pairTree` says that the letters of a tree need its height.
* `Track.fits_macroRule` says what the rule for macros needs at a place.
-/

namespace Michelson

open Rule Grammar

namespace Grammar

open PairTree

variable {s : State} {tail : List Char} {n : Nat}

/-- The letters of a tree get by with the height of the tree. -/
theorem fits_treeOr {t : PairTree} {w : List Char} (leaf : Char) (hleaf : leaf ≠ 'P')
    (hw : TreeOr leaf w t) (hrest : s.cursor.rest = w ++ tail)
    (h : t.IsShape → ∀ s : State, s.cursor.rest = t.rightName ++ tail →
      Knot.full.pairTree.Fits s n) : (treeOr Knot.full leaf).Fits s n := by
  have H := handedFlat_flat
  refine (H.peek?.fits s n).bind_ok (a := s.cursor.rest.head?) (t := s) rfl ?_
  rw [hrest]
  rcases hw with ⟨rfl, rfl⟩ | ⟨ht, rfl⟩
  · rw [List.singleton_append, List.head?_cons, if_pos rfl]
    exact (H.next (H.advance 1) fun _ => H.pure _).fits s n
  · obtain ⟨l, r, rfl, -⟩ := ht.exists_node
    rw [PairTree.rightName, List.cons_append, List.head?_cons,
      if_neg fun hc => hleaf (Option.some.inj hc).symm]
    exact h ht s hrest

/-- **Pair trees.** Their letters take as many levels as the tree is high. -/
theorem fits_pairTree {t : PairTree} (ht : t.IsShape) : ∀ {s : State} {tail : List Char},
    s.cursor.rest = t.rightName ++ tail → Knot.full.pairTree.Fits s t.height := by
  have H := handedFlat_flat
  induction t with
  | leaf =>
    intro _ _ _
    exact absurd ht.2 (by simp [PairTree.leafCount])
  | node l r ihl ihr =>
    intro s tail hrest
    obtain ⟨_, _, heq, hl, hr⟩ := ht.exists_node
    obtain ⟨rfl, rfl⟩ := PairTree.node.inj heq
    have hP : ({ s with depth := s.depth + 1 } : State).cursor.rest =
        "P".toList ++ (l.leftName ++ (r.rightName ++ tail)) := by
      rw [hrest, PairTree.rightName, List.cons_append, List.append_assoc]
      rfl
    have hl' := State.rest_past hP
    have hr' := State.rest_past hl'
    have hleft := treeOr_reads (g := Knot.full) 'A' (by decide) (treeOr_leftName hl) hl'
      fun s ht hs => pairTree_reads ht hs
    have hfitsLeft := fits_treeOr 'A' (by decide) (treeOr_leftName hl) hl'
      (n := max l.height r.height) fun ht s hs => (ihl ht hs).mono (le_max_left _ _)
    have hfitsRight := fits_treeOr 'I' (by decide) (treeOr_rightName hr) hr'
      (n := max l.height r.height) fun ht s hs => (ihr ht hs).mono (le_max_right _ _)
    rw [← pairTreeRule_full, pairTreeRule, leftTree_eq, rightTree_eq]
    refine Fits.nested (((H.letters "P").fits _ _).bind_ok (letters_reads _ hP) ?_)
    refine hfitsLeft.bind_ok hleft (hfitsRight.bind fun _ t _ => ?_)
    exact (H.pure _).fits t _

/-- Letters that are not there are missed. -/
theorem letters_misses {text : String} (h : ∀ tail, s.cursor.rest ≠ text.toList ++ tail) :
    letters text none s = ⟨.miss, s⟩ := by
  rw [letters, rest_bind, if_neg fun hstart => ?_]
  · rfl
  · obtain ⟨tail, htail⟩ := startsWith_iff.mp hstart
    exact h tail htail

/-- Where no tree begins, one level is enough to find out. -/
theorem fits_pairTree_one (h : s.cursor.rest.head? ≠ some 'P') : Knot.full.pairTree.Fits s 1 := by
  have hmiss : letters "P" none { s with depth := s.depth + 1 } =
      ⟨.miss, { s with depth := s.depth + 1 }⟩ := by
    refine letters_misses fun tail htail => h ?_
    have hrest : s.cursor.rest = "P".toList ++ tail := htail
    rw [hrest]
    rfl
  rw [← pairTreeRule_full, pairTreeRule]
  exact Fits.nested (((handedFlat_flat.letters "P").fits _ 0).bind_miss hmiss)

/-- The name of a macro on pairs needs what the tree behind its opening does. -/
theorem fits_treeName (opening : String) (name : PairTree → MacroName)
    (h : ∀ tail, s.cursor.rest = opening.toList ++ tail →
      Knot.full.pairTree.Fits (s.past opening.toList) n) :
    (treeName Knot.full opening name).Fits s n := by
  have H := handedFlat_flat
  have hletters := (H.letters opening).fits s n
  by_cases hstart : ∃ tail, s.cursor.rest = opening.toList ++ tail
  · obtain ⟨tail, htail⟩ := hstart
    refine hletters.bind_ok (letters_reads _ htail) ((h tail htail).bind fun t u _ => ?_)
    exact (H.plainName _ _).fits u n
  · exact hletters.bind_miss (letters_misses fun tail htail => hstart ⟨tail, htail⟩)

/-- The names that are tried before those of macros on pairs do not nest. -/
theorem flat_earlyNames (g : Knot) : ∀ r ∈ (macroNames g).take 11, Flat r := by
  have H := handedFlat_flat
  simp only [macroNames, List.take_succ_cons, List.take_zero, List.forall_mem_cons,
    List.not_mem_nil, false_implies, implies_true, and_true, H.comparisonName, H.plainName,
    H.assertedName, H.depthName]

/-- The names of paths do not nest. -/
theorem flat_pathNames (g : Knot) : ∀ r ∈ (macroNames g).drop 13, Flat r := by
  have H := handedFlat_flat
  simp only [macroNames, List.drop_succ_cons, List.drop_zero, List.forall_mem_cons,
    List.not_mem_nil, false_implies, implies_true, and_true, H.pathName]

theorem macroNames_split (g : Knot) : macroNames g = (macroNames g).take 11 ++
    [treeName g "UN" .unpair, treeName g "" .pairUp] ++ (macroNames g).drop 13 := rfl

/-- Where no macro on pairs begins, one level is enough for all names. -/
theorem fits_names_one (hU : s.cursor.rest.head? ≠ some 'U') (hP : s.cursor.rest.head? ≠ some 'P') :
    ∀ r ∈ macroNames Knot.full, r.Fits s 1 := by
  rw [macroNames_split, List.forall_mem_append, List.forall_mem_append]
  refine ⟨⟨fun r hr => (flat_earlyNames _ r hr).fits s 1, ?_⟩,
    fun r hr => (flat_pathNames _ r hr).fits s 1⟩
  simp only [List.forall_mem_cons, List.not_mem_nil, false_implies, implies_true, and_true]
  refine ⟨fits_treeName _ _ fun tail htail => absurd ?_ hU, fits_treeName _ _ fun _ _ => ?_⟩
  · rw [htail]
    rfl
  · exact fits_pairTree_one hP

end Grammar

namespace Track

variable {T : Track} {k j : Nat} {w : List Char} {n : MacroName}

/-- The text at a place begins with the token there. -/
theorem exists_rest_of_token? {t : Token} (ht : T.token? k = some t) :
    ∃ tail, (T.place k).rest = t.text ++ tail := by
  obtain ⟨l, hl, hrest, -, -⟩ := T.exists_lexeme (le_of_token? ht)
  obtain rfl := Option.some.inj (hl.symm.trans ht)
  rw [hrest, Lexeme.text, List.append_assoc]
  exact ⟨_, rfl⟩

/-- The readings up to the one that reads a name get by with the levels of the name. -/
theorem fits_readings {i : Nat} {P : List Char → MacroName → Prop} (hi : spellings[i]? = some P)
    (hP : P w n) (ht : T.token? k = some (.word w)) :
    ∀ r ∈ (macroNames Knot.full).take (i + 1), T.Fits r k (n.levels 1) := by
  obtain ⟨tail, hrest⟩ := exists_rest_of_token? ht
  rw [Token.text] at hrest
  -- the readings before those of trees do not nest
  have hearly : ∀ r ∈ (macroNames Knot.full).take 11, T.Fits r k (n.levels 1) :=
    fun r hr => fits_of_flat (flat_earlyNames _ r hr) _ _
  have htree (opening : String) (name : PairTree → MacroName) {t : PairTree} (ht : t.IsShape)
      (hw : w = opening.toList ++ (t.rightName ++ ['R'])) :
      T.Fits (treeName Knot.full opening name) k t.height := by
    intro s hs
    refine fits_treeName opening name fun tail' htail => ?_
    refine fits_pairTree ht (show _ = t.rightName ++ 'R' :: tail from ?_)
    rw [hs, hrest, hw, List.append_assoc, List.append_assoc] at htail
    rw [State.rest_past (w := opening.toList) (by rw [hs, hrest, hw, List.append_assoc])]
    rw [List.append_assoc]
    rfl
  have hpath {m : Nat} (hU : w.head? ≠ some 'U') (hP : w.head? ≠ some 'P') (hne : w ≠ []) :
      ∀ r ∈ (macroNames Knot.full).take m, T.Fits r k 1 := by
    intro r hr s hs
    have hhead : s.cursor.rest.head? = w.head? := by
      rw [hs, hrest, List.head?_append_of_ne_nil w hne]
    exact fits_names_one (hhead ▸ hU) (hhead ▸ hP) r (List.mem_of_mem_take hr)
  have hlt : i < 16 := (List.getElem?_eq_some_iff.mp hi).1
  rcases Nat.lt_or_ge i 11 with hlow | hhigh
  · exact fun r hr => hearly r (List.take_subset_take_left _ hlow hr)
  interval_cases i <;> obtain rfl := Option.some.inj hi
  case «11» =>
    obtain ⟨_, t, ⟨hshape, rfl⟩, hw, rfl⟩ := hP
    exact List.forall_mem_append.mpr
      ⟨hearly, List.forall_mem_singleton.mpr (htree "UN" .unpair hshape hw)⟩
  case «12» =>
    obtain ⟨_, t, ⟨hshape, rfl⟩, hw, rfl⟩ := hP
    refine List.forall_mem_append.mpr ⟨hearly, List.forall_mem_cons.mpr
      ⟨?_, List.forall_mem_singleton.mpr (htree "" .pairUp hshape hw)⟩⟩
    -- the word begins with another letter than the opening that is tried before
    intro s hs
    refine fits_treeName _ _ fun tail' htail => ?_
    obtain ⟨l, r, rfl, -⟩ := hshape.exists_node
    rw [hs, hrest, hw] at htail
    cases htail
  all_goals
    obtain ⟨_, path, ⟨hlen, rfl⟩, rfl, rfl⟩ := hP
    exact hpath (by rintro ⟨⟩) (by rintro ⟨⟩) (by rintro ⟨⟩)

theorem fits_alternatives {rs : List (Rule MacroName)} {Ps : List (List Char → MacroName → Prop)}
    {m : Macro} {levels : Nat} (h : List.Forall₂ Naming rs Ps) (hPs : ∀ P ∈ Ps, P ∈ spellings)
    (ht : T.token? k = some (.word w)) (hn : n.Spelled w)
    (hm : T.Yields (macroArguments Knot.full n) (k + 1) m j)
    (hfits : T.Fits (macroArguments Knot.full n) (k + 1) levels)
    (hreadings : ∀ (i : Nat) P, Ps[i]? = some P → P w n → ∀ r ∈ rs.take (i + 1), T.Fits r k levels)
    (hex : ∃ P ∈ Ps, P w n) :
    T.Fits (firstOf (fail .macroName) (rs.map (macroBy Knot.full))) k levels := by
  induction h with
  | nil =>
    obtain ⟨P, hP, -⟩ := hex
    exact absurd hP List.not_mem_nil
  | @cons r P rs Ps hr _ ih =>
    obtain ⟨hP, hPs⟩ := List.forall_mem_cons.mp hPs
    by_cases hw : ∃ n', P w n'
    · obtain ⟨n', hw⟩ := hw
      obtain rfl := hn.unique (MacroName.spelled_of_mem hP hw)
      have hread := yields_reading hr hP ht hw
      have hname := hreadings 0 P rfl hw r List.mem_cons_self
      exact Fits.firstOf (hname.bind hread hfits) (hread.bind hm) _ _
    · have hk : k ≤ T.length := (Nat.le_succ k).trans (le_of_token? ht)
      have hmiss : T.Misses r k := by
        refine misses_reading hr hP hk fun w' n' ht' hw' => ?_
        obtain rfl : w = w' := by simpa using ht.symm.trans ht'
        exact hw ⟨n', hw'⟩
      obtain ⟨Q, hQ, hwQ⟩ := hex
      have hQ := (List.mem_cons.mp hQ).resolve_left fun hQP => hw ⟨n, hQP ▸ hwQ⟩
      obtain ⟨i, hi⟩ := List.mem_iff_getElem?.mp hQ
      have hname := hreadings (i + 1) Q hi hwQ r List.mem_cons_self
      refine Fits.firstOf_misses (hname.bind_misses hmiss _) (hmiss.bind _) hk
        (ih hPs ?_ ⟨Q, hQ, hwQ⟩)
      exact fun i' P' hi' hP' q hq => hreadings (i' + 1) P' hi' hP' q (List.mem_cons_of_mem r hq)

/-- **Macros.** The rule needs what the name and the parts do. -/
theorem fits_macroRule {m : Macro} {levels : Nat} (ht : T.token? k = some (.word w))
    (hn : n.Spelled w) (hlevels : n.levels 1 ≤ levels)
    (hm : T.Yields (macroArguments Knot.full n) (k + 1) m j)
    (hfits : T.Fits (macroArguments Knot.full n) (k + 1) levels) :
    T.Fits (macroRule Knot.full) k levels := by
  rw [macroRule_eq]
  refine Fits.recording (fun _ _ => rfl) ?_
  refine fits_alternatives namings (fun _ h => h) ht hn hm hfits ?_ hn.exists_mem
  exact fun i P hi hP r hr => (fits_readings hi hP ht r hr).mono hlevels

/-- Where a mark stands, the rule for macros needs one level to find out. -/
theorem fits_macroRule_of_mark {c : Char} (ht : T.token? k = some (.mark c)) :
    T.Fits (macroRule Knot.full) k 1 := by
  have hk : k ≤ T.length := (Nat.le_succ k).trans (le_of_token? ht)
  have hmiss : ∀ r ∈ macroNames Knot.full, T.Misses r k := by
    intro r hr
    obtain ⟨i, hi, rfl⟩ := List.getElem_of_mem hr
    have hnaming := namings.get hi (namings.length_eq ▸ hi)
    refine misses_reading hnaming (List.get_mem _ _) hk fun w n hword _ => ?_
    cases ht.symm.trans hword
  have hfits : ∀ r ∈ macroNames Knot.full, T.Fits r k 1 := by
    obtain ⟨tail, hrest⟩ := exists_rest_of_token? ht
    have hmark : c ∈ Token.marks := by
      simpa [Token.isValid, Token.marks] using isValid_of_token? ht
    have hhead : (T.place k).rest.head? = some c := by
      rw [hrest]
      rfl
    have hletters : c ≠ 'U' ∧ c ≠ 'P' := by
      constructor <;> rintro rfl <;> exact absurd hmark (by decide)
    intro r hr s hs
    refine fits_names_one ?_ ?_ r hr <;> rw [hs, hhead]
    · exact fun h => hletters.1 (Option.some.inj h)
    · exact fun h => hletters.2 (Option.some.inj h)
  rw [macroRule_eq]
  refine Fits.recording (fun _ _ => rfl) (Fits.firstOf_of_misses hk ?_ ?_)
  · exact fits_of_flat (handedFlat_flat.fail rfl) _ _
  · exact List.forall_mem_map.mpr fun r hr =>
      ⟨(hfits r hr).bind_misses (hmiss r hr) _, (hmiss r hr).bind _⟩

end Track

end Michelson
