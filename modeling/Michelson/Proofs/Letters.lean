import Mathlib.Data.List.Forall2
import Michelson.Proofs.Calls

/-!
# Letters of macro names

A macro name is read letter by letter. Without a limit on nesting, what is read
depends on the letters only: a rule passes them, or it misses and leaves the rest
of the state as it was.

`Body` says what letters a rule reads. There is one statement for each thing that
a name may spell out: `body_comparison`, `body_depth`, `body_path` and
`body_tree`.
-/

namespace Michelson

open Rule

namespace State

/-- The state with the cursor after the next letters. -/
def past (s : State) (w : List Char) : State := { s with cursor := s.cursor.skip w.length }

@[simp]
theorem past_nil (s : State) : s.past [] = s := rfl

/-- Letters are passed one after another. -/
theorem past_append (s : State) (v w : List Char) : s.past (v ++ w) = (s.past v).past w := by
  rw [past, past, past, List.length_append, Cursor.skip_add]

/-- Behind the letters stands what stood behind them. -/
theorem rest_past {s : State} {w tail : List Char} (h : s.cursor.rest = w ++ tail) :
    (s.past w).cursor.rest = tail :=
  Cursor.rest_skip h

end State

/-- Layout that fills a gap is passed. -/
theorem Rule.layout_past {gap rest : List Char} (h : Layout.Fills gap rest) {s : State}
    (hs : s.cursor.rest = gap ++ rest) (limit : Option Nat) :
    layout limit s = ⟨.ok (), s.past gap⟩ := by
  rw [layout_run, hs, h, State.past, Cursor.skip_eq, hs, List.drop_left, List.take_left]

/-! ## Letters -/

variable {α β : Type}

/-- A run has missed, or it has read letters that are related to its value. -/
def Reply.Reads (x : Reply α) (s : State) (P : List Char → α → Prop) : Prop :=
  (∃ c, x = ⟨.miss, { s with cursor := c }⟩) ∨
    ∃ w a tail, s.cursor.rest = w ++ tail ∧ P w a ∧ x = ⟨.ok a, s.past w⟩

namespace Reply.Reads

/-- A rule that reads nothing reads no letters. -/
theorem pure {a : α} {s : State} {P : List Char → α → Prop} (h : P [] a) :
    ((Pure.pure a : Rule α) none s).Reads s P :=
  .inr ⟨[], a, s.cursor.rest, rfl, h, rfl⟩

/-- What is read behind some letters is read together with them. -/
theorem shift {x : Reply α} {s : State} {v tail : List Char} {P : List Char → α → Prop}
    (hv : s.cursor.rest = v ++ tail) (h : x.Reads (s.past v) fun w a => P (v ++ w) a) :
    x.Reads s P := by
  rcases h with ⟨c, h⟩ | ⟨w, a, tail', hrest, hw, h⟩
  · exact .inl ⟨c, h⟩
  · rw [State.rest_past hv] at hrest
    rw [← State.past_append] at h
    refine .inr ⟨v ++ w, a, tail', ?_, hw, h⟩
    rw [hv, hrest, List.append_assoc]

/-- The letters of a sequence are those of its rules, one after the other. -/
theorem bind {r : Rule α} {k : α → Rule β} {s : State} {P : List Char → α → Prop}
    {Q : List Char → β → Prop} (h : (r none s).Reads s P)
    (hk : ∀ w a tail, s.cursor.rest = w ++ tail → P w a →
      (k a none (s.past w)).Reads (s.past w) fun v b => Q (w ++ v) b) :
    ((r >>= k) none s).Reads s Q := by
  rcases h with ⟨c, h⟩ | ⟨w, a, tail, hrest, hw, h⟩
  · exact .inl ⟨c, bind_miss h⟩
  · rw [bind_ok h]
    exact shift hrest (hk w a tail hrest hw)

end Reply.Reads

/-- The letters that a rule reads without a limit on nesting. -/
structure Body (r : Rule α) (P : List Char → α → Prop) : Prop where
  cases (s : State) : (r none s).Reads s P
  reads {s : State} {w tail : List Char} {a : α} : P w a → s.cursor.rest = w ++ tail →
    endsWord tail = true → r none s = ⟨.ok a, s.past w⟩

namespace Grammar

/-- A text that starts with some letters is the letters and a tail. -/
theorem startsWith_iff {text : String} {cs : List Char} :
    startsWith text cs = true ↔ ∃ tail, cs = text.toList ++ tail := by
  rw [startsWith, List.isPrefixOf_iff_prefix]
  exact ⟨fun ⟨tail, h⟩ => ⟨tail, h.symm⟩, fun ⟨tail, h⟩ => ⟨tail, h.symm⟩⟩

/-- Fixed letters are passed where they stand. -/
theorem letters_reads (text : String) {s : State} {tail : List Char}
    (h : s.cursor.rest = text.toList ++ tail) :
    letters text none s = ⟨.ok (), s.past text.toList⟩ := by
  rw [letters, rest_bind, if_pos (startsWith_iff.mpr ⟨tail, h⟩), State.past, String.length_toList]
  rfl

/-- Fixed letters are passed, or the rule misses where it stands. -/
theorem letters_cases (text : String) (s : State) :
    (letters text none s).Reads s fun w _ => w = text.toList := by
  by_cases h : startsWith text s.cursor.rest = true
  · obtain ⟨tail, htail⟩ := startsWith_iff.mp h
    exact .inr ⟨text.toList, (), tail, htail, rfl, letters_reads text htail⟩
  · refine .inl ⟨s.cursor, ?_⟩
    rw [letters, rest_bind, if_neg h]
    rfl

/-- The letters of one of some choices. -/
def ChoiceLetters (name : α → String) (choices : List α) (w : List Char) (a : α) : Prop :=
  a ∈ choices ∧ w = (name a).toList

/-- The first choice is the only one if no name begins another. -/
theorem body_choice (name : α → String) (choices : List α)
    (hfree : ∀ a ∈ choices, ∀ b ∈ choices, (name a).toList <+: (name b).toList → a = b) :
    Body (choice name choices) (ChoiceLetters name choices) where
  cases s := by
    clear hfree
    induction choices with
    | nil => exact .inl ⟨s.cursor, rfl⟩
    | cons a as ih =>
      rw [choice, rest_bind]
      by_cases h : startsWith (name a) s.cursor.rest = true
      · obtain ⟨tail, htail⟩ := startsWith_iff.mp h
        rw [if_pos h]
        refine .inr ⟨(name a).toList, a, tail, htail, ⟨List.mem_cons_self, rfl⟩, ?_⟩
        rw [advance_bind, State.past, String.length_toList]
        rfl
      · rw [if_neg h]
        refine ih.imp_right ?_
        rintro ⟨w, b, tail, htail, ⟨hb, hw⟩, hrun⟩
        exact ⟨w, b, tail, htail, ⟨List.mem_cons_of_mem a hb, hw⟩, hrun⟩
  reads := by
    rintro s _ tail b ⟨hb, rfl⟩ hrest -
    induction choices with
    | nil => cases hb
    | cons a as ih =>
      rw [choice, rest_bind]
      by_cases h : startsWith (name a) s.cursor.rest = true
      · rw [if_pos h]
        obtain ⟨tail', htail'⟩ := startsWith_iff.mp h
        obtain rfl : a = b := by
          -- both names begin the text, so one of them begins the other
          rcases List.prefix_or_prefix_of_prefix ⟨tail', htail'.symm⟩ ⟨tail, hrest.symm⟩ with h | h
          · exact hfree a List.mem_cons_self b hb h
          · exact (hfree b hb a List.mem_cons_self h).symm
        rw [advance_bind, State.past, String.length_toList]
        rfl
      · rw [if_neg h]
        refine ih (fun a ha b hb => hfree a (List.mem_cons_of_mem _ ha) b
          (List.mem_cons_of_mem _ hb)) ?_
        refine (List.mem_cons.mp hb).resolve_left fun hba => h ?_
        exact startsWith_iff.mpr ⟨tail, hba ▸ hrest⟩

/-- No letters. -/
def NoLetters (w : List Char) (_ : Unit) : Prop := w = []

/-- No name of a comparison begins another. -/
theorem body_comparison :
    Body comparison (ChoiceLetters Comparison.mnemonic Comparison.all) :=
  body_choice _ _ (by decide)

theorem body_none : Body (pure ()) NoLetters where
  cases _ := .pure rfl
  reads := by
    rintro s _ tail b rfl - -
    rfl

/-! ### Depths -/

/-- A letter a number of times, and `P`. -/
def depthBody (letter : Char) : Rule UInt32 := do
  let cs ← rest
  let count := (cs.takeWhile (· == letter)).length
  advance count
  let depth := UInt32.ofNat count
  if depth < 2 then miss
  else do
    letters "P"
    pure depth

/-- What is counted is the one letter. -/
theorem takeWhile_beq (letter : Char) (cs : List Char) :
    cs.takeWhile (· == letter) = List.replicate (cs.takeWhile (· == letter)).length letter := by
  refine List.eq_replicate_iff.mpr ⟨rfl, fun c hc => ?_⟩
  simpa using List.mem_takeWhile_imp hc

/-- The letters of a depth, which is kept modulo `2 ^ 32`, after the first one. -/
def DepthLetters (letter : Char) (w : List Char) (d : UInt32) : Prop :=
  ∃ k, d = UInt32.ofNat k ∧ 2 ≤ d ∧ w = List.replicate k letter ++ ['P']

/-- The letters are counted greedily, which is safe since the last letter is another one. -/
theorem body_depth {letter : Char} (hletter : letter ≠ 'P') :
    Body (depthBody letter) (DepthLetters letter) where
  cases s := by
    have hsplit := (List.takeWhile_append_dropWhile (p := (· == letter)) (l := s.cursor.rest)).symm
    rw [depthBody, rest_bind, advance_bind]
    refine .shift hsplit ?_
    by_cases hd : UInt32.ofNat (s.cursor.rest.takeWhile (· == letter)).length < 2
    · rw [if_pos hd]
      exact .inl ⟨_, rfl⟩
    · rw [if_neg hd]
      refine (letters_cases "P" _).bind ?_
      rintro _ _ tail htail rfl
      refine .pure ⟨_, rfl, UInt32.not_lt.mp hd, ?_⟩
      rw [← takeWhile_beq]
      rfl
  reads := by
    rintro s _ tail _ ⟨k, rfl, hd, rfl⟩ hrest -
    rw [List.append_assoc] at hrest
    have hcount : s.cursor.rest.takeWhile (· == letter) = List.replicate k letter := by
      rw [hrest]
      refine takeWhile_append_eq ?_ ?_
      · rw [List.all_eq_true]
        exact fun c hc => beq_iff_eq.mpr (List.eq_of_mem_replicate hc)
      · rintro _ ⟨⟩
        simpa using Ne.symm hletter
    rw [depthBody, rest_bind, advance_bind, hcount, List.length_replicate,
      if_neg (UInt32.not_lt.mpr hd)]
    have hpast : s.past (List.replicate k letter) = { s with cursor := s.cursor.skip k } := by
      rw [State.past, List.length_replicate]
    rw [← hpast, bind_ok (letters_reads "P" (State.rest_past hrest)), State.past_append]
    rfl

/-! ### Paths -/

/-- A path of at least `least` steps, and `R`. -/
def pathBody (least : Nat) : Rule (List Side) := do
  let cs ← rest
  let path := scanPath cs
  advance path.length
  if path.length < least then miss
  else do
    letters "R"
    pure path

/-- What is scanned as a path stands in front of the text. -/
theorem exists_scanPath (cs : List Char) :
    ∃ tail, cs = (scanPath cs).map Side.letter ++ tail := by
  induction cs with
  | nil => exact ⟨[], rfl⟩
  | cons c cs ih =>
    rw [scanPath]
    split
    · rename_i side hside
      obtain ⟨tail, htail⟩ := ih
      obtain rfl : c = side.letter := by
        unfold Side.ofLetter? at hside
        split at hside <;> cases hside <;> rfl
      exact ⟨tail, congrArg (_ :: ·) htail⟩
    · exact ⟨c :: cs, rfl⟩

/-- The letter behind a path is none of a path, so nothing more is scanned. -/
theorem scanPath_append (path : List Side) (tail : List Char) :
    scanPath (path.map Side.letter ++ 'R' :: tail) = path := by
  induction path with
  | nil => rfl
  | cons side path ih =>
    rw [List.map_cons, List.cons_append, scanPath]
    cases side <;> exact congrArg (_ :: ·) ih

/-- The letters of a path, and `R`. -/
def PathLetters (least : Nat) (w : List Char) (path : List Side) : Prop :=
  least ≤ path.length ∧ w = MacroName.pathLetters path

/-- Paths are scanned greedily too, and end with a letter of their own. -/
theorem body_path (least : Nat) : Body (pathBody least) (PathLetters least) where
  cases s := by
    obtain ⟨tail, hsplit⟩ := exists_scanPath s.cursor.rest
    rw [pathBody, rest_bind, advance_bind]
    refine .shift hsplit ?_
    have hpast : { s with cursor := s.cursor.skip (scanPath s.cursor.rest).length } =
        s.past ((scanPath s.cursor.rest).map Side.letter) := by
      rw [State.past, List.length_map]
    rw [hpast]
    by_cases hl : (scanPath s.cursor.rest).length < least
    · rw [if_pos hl]
      exact .inl ⟨_, rfl⟩
    · rw [if_neg hl]
      refine (letters_cases "R" _).bind ?_
      rintro _ _ tail' htail' rfl
      exact .pure ⟨Nat.not_lt.mp hl, rfl⟩
  reads := by
    rintro s _ tail path ⟨hl, rfl⟩ hrest -
    rw [MacroName.pathLetters, List.append_assoc] at hrest
    have hscan : scanPath s.cursor.rest = path := by
      rw [hrest]
      exact scanPath_append path tail
    rw [pathBody, rest_bind, advance_bind, hscan, if_neg (Nat.not_lt.mpr hl)]
    have hpast : { s with cursor := s.cursor.skip path.length } =
        s.past (path.map Side.letter) := by
      rw [State.past, List.length_map]
    rw [hpast, bind_ok (letters_reads "R" (State.rest_past hrest)),
      MacroName.pathLetters, State.past_append]
    rfl

end Grammar

/-! ### Pair trees -/

namespace PairTree

/-- Whether a tree is a pair without notes. -/
def IsShape (t : PairTree) : Prop := t.stripped = t ∧ 2 ≤ t.leafCount

theorem leafCount_pos (t : PairTree) : 1 ≤ t.leafCount := by
  induction t with
  | leaf => exact le_rfl
  | node l r ihl _ => exact ihl.trans (Nat.le_add_right _ _)

/-- A pair of trees without notes is a shape, since it has two leaves at least. -/
theorem isShape_node {l r : PairTree} (hl : l.stripped = l) (hr : r.stripped = r) :
    (node l r).IsShape := by
  refine ⟨by rw [stripped, hl, hr], ?_⟩
  have := l.leafCount_pos
  have := r.leafCount_pos
  rw [leafCount]
  omega

/-- A shape is a pair of trees without notes. -/
theorem IsShape.exists_node {t : PairTree} (h : t.IsShape) :
    ∃ l r, t = node l r ∧ l.stripped = l ∧ r.stripped = r := by
  obtain ⟨hs, hc⟩ := h
  cases t with
  | leaf v f => exact absurd hc (by simp [leafCount])
  | node l r =>
    obtain ⟨hl, hr⟩ := PairTree.node.inj hs
    exact ⟨l, r, rfl, hl, hr⟩

/-- A tree without notes is a bare leaf or a pair. -/
theorem eq_bare_or_isShape {t : PairTree} (h : t.stripped = t) : t = bare ∨ t.IsShape := by
  cases t with
  | leaf v f => exact .inl h.symm
  | node l r =>
    obtain ⟨hl, hr⟩ := PairTree.node.inj h
    exact .inr (isShape_node hl hr)

end PairTree

namespace Grammar

/-- A leaf with its letter, or a pair. -/
def treeOr (g : Knot) (leaf : Char) : Rule PairTree := do
  let c? ← peek?
  if c? = some leaf then do
    advance 1
    pure .bare
  else g.pairTree

/-- The two sides differ in the letter of a leaf only. -/
theorem leftTree_eq (g : Knot) : leftTree g = treeOr g 'A' := by
  refine congrArg (peek? >>= ·) (funext fun c? => ?_)
  split
  · rfl
  · rename_i h
    exact (if_neg h).symm

theorem rightTree_eq (g : Knot) : rightTree g = treeOr g 'I' := by
  refine congrArg (peek? >>= ·) (funext fun c? => ?_)
  split
  · rfl
  · rename_i h
    exact (if_neg h).symm

/-- The letters of a tree next to which a leaf has the given letter. -/
def TreeOr (leaf : Char) (w : List Char) (t : PairTree) : Prop :=
  t = .bare ∧ w = [leaf] ∨ t.IsShape ∧ w = t.rightName

/-- No letters say what notes a tree has. -/
theorem TreeOr.stripped {leaf : Char} {w : List Char} {t : PairTree} (h : TreeOr leaf w t) :
    t.stripped = t := by
  rcases h with ⟨rfl, -⟩ | ⟨ht, -⟩
  · rfl
  · exact ht.1

/-- With the letter A for a leaf, these are the letters of a left tree. -/
theorem TreeOr.leftName {w : List Char} {t : PairTree} (h : TreeOr 'A' w t) : w = t.leftName := by
  rcases h with ⟨rfl, rfl⟩ | ⟨ht, rfl⟩
  · rfl
  · obtain ⟨l, r, rfl, -⟩ := ht.exists_node
    rfl

theorem TreeOr.rightName {w : List Char} {t : PairTree} (h : TreeOr 'I' w t) :
    w = t.rightName := by
  rcases h with ⟨rfl, rfl⟩ | ⟨-, rfl⟩
  · rfl
  · rfl

/-- The other way round, every tree without notes has letters for the left side. -/
theorem treeOr_leftName {t : PairTree} (h : t.stripped = t) : TreeOr 'A' t.leftName t := by
  rcases PairTree.eq_bare_or_isShape h with rfl | ht
  · exact .inl ⟨rfl, rfl⟩
  · obtain ⟨l, r, rfl, -⟩ := ht.exists_node
    exact .inr ⟨ht, rfl⟩

theorem treeOr_rightName {t : PairTree} (h : t.stripped = t) : TreeOr 'I' t.rightName t := by
  rcases PairTree.eq_bare_or_isShape h with rfl | ht
  · exact .inl ⟨rfl, rfl⟩
  · exact .inr ⟨ht, rfl⟩

/-- The letter of a leaf decides before anything else is tried. -/
theorem treeOr_cases {g : Knot} {s : State} (leaf : Char)
    (h : (g.pairTree none s).Reads s fun w t => t.IsShape ∧ w = t.rightName) :
    (treeOr g leaf none s).Reads s (TreeOr leaf) := by
  rw [treeOr, peek?_bind]
  by_cases hc : s.cursor.rest.head? = some leaf
  · rw [if_pos hc]
    obtain ⟨tail, htail⟩ := List.head?_eq_some_iff.mp hc
    exact .inr ⟨[leaf], .bare, tail, htail, .inl ⟨rfl, rfl⟩, rfl⟩
  · rw [if_neg hc]
    refine h.imp_right ?_
    rintro ⟨w, t, tail, hrest, ht, hrun⟩
    exact ⟨w, t, tail, hrest, .inr ht, hrun⟩

/-- A leaf has another letter than a pair, so the decision is right. -/
theorem treeOr_reads {g : Knot} (leaf : Char) (hleaf : leaf ≠ 'P') {s : State} {t : PairTree}
    {w tail : List Char} (hw : TreeOr leaf w t) (hrest : s.cursor.rest = w ++ tail)
    (h : ∀ s : State, t.IsShape → s.cursor.rest = t.rightName ++ tail →
      g.pairTree none s = ⟨.ok t, s.past t.rightName⟩) :
    treeOr g leaf none s = ⟨.ok t, s.past w⟩ := by
  rw [treeOr, peek?_bind, hrest]
  rcases hw with ⟨rfl, rfl⟩ | ⟨ht, rfl⟩
  · rw [List.singleton_append, List.head?_cons, if_pos rfl]
    rfl
  · obtain ⟨l, r, rfl, -⟩ := ht.exists_node
    rw [PairTree.rightName, List.cons_append, List.head?_cons,
      if_neg fun hc => hleaf (Option.some.inj hc).symm]
    exact h s ht hrest

/-- Nesting changes neither the letters nor the place. -/
theorem deeper_reads {α : Type} {r : Rule α} {s : State} {P : List Char → α → Prop}
    (h : (r none { s with depth := s.depth + 1 }).Reads { s with depth := s.depth + 1 } P) :
    (deeper r none s).Reads s P := by
  rcases h with ⟨c, h⟩ | ⟨w, a, tail, hrest, hw, h⟩
  · refine .inl ⟨c, ?_⟩
    rw [deeper, h]
    rfl
  · refine .inr ⟨w, a, tail, hrest, hw, ?_⟩
    rw [deeper, h]
    rfl

/-- What the full grammar reads as a pair tree are the letters of one. -/
theorem pairTree_cases (n : Nat) : ∀ s : State, s.cursor.rest.length < n →
    (Knot.full.pairTree none s).Reads s fun w t => t.IsShape ∧ w = t.rightName := by
  induction n with
  | zero => exact fun s hs => absurd hs (Nat.not_lt_zero _)
  | succ n ih =>
    intro s hs
    rw [← pairTreeRule_full, pairTreeRule, nested_none, leftTree_eq, rightTree_eq]
    refine deeper_reads ((letters_cases "P" _).bind ?_)
    rintro _ _ tail htail rfl
    have hlen : s.cursor.rest.length = 1 + tail.length := by
      rw [show s.cursor.rest = _ from htail, List.length_append]
      rfl
    have htail' := State.rest_past htail
    refine (treeOr_cases 'A' (ih _ (by rw [htail']; omega))).bind ?_
    intro u l tail₁ htail₁ hl
    rw [htail'] at htail₁
    have hlen₁ := congrArg List.length htail₁
    rw [List.length_append] at hlen₁
    have htail₁' := State.rest_past (htail'.trans htail₁)
    refine (treeOr_cases 'I' (ih _ (by rw [htail₁']; omega))).bind ?_
    intro v r tail₂ _ hr
    refine .pure ⟨PairTree.isShape_node hl.stripped hr.stripped, ?_⟩
    rw [hl.leftName, hr.rightName, List.append_nil]
    rfl

/-- The letters of a pair tree are read as the tree. -/
theorem pairTree_reads {t : PairTree} (ht : t.IsShape) : ∀ {s : State} {tail : List Char},
    s.cursor.rest = t.rightName ++ tail →
      Knot.full.pairTree none s = ⟨.ok t, s.past t.rightName⟩ := by
  induction t with
  | leaf => exact absurd ht.2 (by simp [PairTree.leafCount])
  | node l r ihl ihr =>
    intro s tail hrest
    obtain ⟨_, _, heq, hl, hr⟩ := ht.exists_node
    obtain ⟨rfl, rfl⟩ := PairTree.node.inj heq
    have hP : ({ s with depth := s.depth + 1 } : State).cursor.rest =
        "P".toList ++ (l.leftName ++ (r.rightName ++ tail)) := by
      rw [hrest, PairTree.rightName, List.cons_append, List.append_assoc]
      rfl
    have hleft := treeOr_reads (g := Knot.full) 'A' (by decide) (treeOr_leftName hl)
      (State.rest_past hP) fun s ht hs => ihl ht hs
    have hright := treeOr_reads (g := Knot.full) 'I' (by decide) (treeOr_rightName hr)
      (State.rest_past (State.rest_past hP)) fun s ht hs => ihr ht hs
    rw [← pairTreeRule_full, pairTreeRule, nested_none, leftTree_eq, rightTree_eq, deeper,
      bind_ok (letters_reads _ hP), bind_ok hleft, bind_ok hright, ← State.past_append,
      ← State.past_append]
    rfl

/-- A pair tree, and `R`. -/
def treeBody (g : Knot) : Rule PairTree := do
  let tree ← g.pairTree
  letters "R"
  pure tree

/-- The letters of a pair tree, and `R`. -/
def TreeLetters (w : List Char) (t : PairTree) : Prop := t.IsShape ∧ w = t.rightName ++ ['R']

/-- The name of a macro on pairs is a tree and a last letter. -/
theorem body_tree : Body (treeBody Knot.full) TreeLetters where
  cases s := by
    refine (pairTree_cases _ s (Nat.lt_succ_self _)).bind ?_
    rintro _ t tail htail ⟨ht, rfl⟩
    refine (letters_cases "R" _).bind ?_
    rintro _ _ _ _ rfl
    exact .pure ⟨ht, rfl⟩
  reads := by
    rintro s _ tail t ⟨ht, rfl⟩ hrest -
    rw [List.append_assoc] at hrest
    rw [treeBody, bind_ok (pairTree_reads ht hrest),
      bind_ok (letters_reads "R" (State.rest_past hrest)), State.past_append]
    rfl

end Grammar

end Michelson
