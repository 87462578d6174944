import Michelson.Proofs.WellFormed
import Michelson.Proofs.Written.Names

/-!
# The language of macro names

A grammar of the words that are names of macros. It is stated apart from the rules that
read names letter by letter, with openings that extend each other and counts that go on
for ever.

* `PairWord` and `MacroWord` are the grammar. `macroWord_iff` says that it is made of the
  words that spell names.
* `ReadsWord` and `RefusesWord` say what a rule for names does in front of a word.
  `Naming.readsWord_iff` and `Naming.refusesWord` tell which of the two it does.
* `step_pair` says that the one name that belongs to an instruction as well is never read
  as a macro.
* `macro_names_unambiguous` is the statement about names.
-/

namespace Michelson

open Rule Grammar

/-! ## The grammar -/

/-- The letters of a pair, and the tree that they spell: `P`, on the left `A` or another
pair, and on the right `I` or another pair. -/
inductive PairWord : List Char → PairTree → Prop
  | leaves : PairWord ['P', 'A', 'I'] (.node .bare .bare)
  | left {w : List Char} {t : PairTree} (h : PairWord w t) :
      PairWord ('P' :: (w ++ ['I'])) (.node t .bare)
  | right {w : List Char} {t : PairTree} (h : PairWord w t) :
      PairWord ('P' :: 'A' :: w) (.node .bare t)
  | both {v w : List Char} {l r : PairTree} (hl : PairWord v l) (hr : PairWord w r) :
      PairWord ('P' :: (v ++ w)) (.node l r)

/-- The words that are names of macros, and what they say. The letters of a depth are counted
in 32 bits. -/
inductive MacroWord : List Char → MacroName → Prop
  | compare (c : Comparison) : MacroWord ("CMP".toList ++ c.mnemonic.toList) (.compare c)
  | ifCompared (c : Comparison) : MacroWord ("IF".toList ++ c.mnemonic.toList) (.ifCompared c)
  | ifCompare (c : Comparison) : MacroWord ("IFCMP".toList ++ c.mnemonic.toList) (.ifCompare c)
  | assertCompared (c : Comparison) :
      MacroWord ("ASSERT_".toList ++ c.mnemonic.toList) (.assertCompared c)
  | assertCompare (c : Comparison) :
      MacroWord ("ASSERT_CMP".toList ++ c.mnemonic.toList) (.assertCompare c)
  | ifSome : MacroWord "IF_SOME".toList .ifSome
  | fail : MacroWord "FAIL".toList (.fixed .fail)
  | assert : MacroWord "ASSERT".toList (.fixed .assert)
  | assertNone : MacroWord "ASSERT_NONE".toList (.fixed .assertNone)
  | assertSome : MacroWord "ASSERT_SOME".toList (.fixed .assertSome)
  | assertLeft : MacroWord "ASSERT_LEFT".toList (.fixed .assertLeft)
  | assertRight : MacroWord "ASSERT_RIGHT".toList (.fixed .assertRight)
  | dipDeep {n : Nat} (h : 2 ≤ n % 2 ^ 32) :
      MacroWord ('D' :: (List.replicate n 'I' ++ ['P'])) (.dipDeep (UInt32.ofNat n))
  | dupDeep {n : Nat} (h : 2 ≤ n % 2 ^ 32) :
      MacroWord ('D' :: (List.replicate n 'U' ++ ['P'])) (.dupDeep (UInt32.ofNat n))
  | pairUp {w : List Char} {t : PairTree} (h : PairWord w t) : MacroWord (w ++ ['R']) (.pairUp t)
  | unpair {w : List Char} {t : PairTree} (h : PairWord w t) :
      MacroWord ('U' :: 'N' :: (w ++ ['R'])) (.unpair t)
  | getPath {path : List Side} (h : 2 ≤ path.length) :
      MacroWord ('C' :: (path.map Side.letter ++ ['R'])) (.getPath path)
  | setPath {path : List Side} (h : 1 ≤ path.length) :
      MacroWord ("SET_C".toList ++ (path.map Side.letter ++ ['R'])) (.setPath path)
  | mapPath {path : List Side} (h : 1 ≤ path.length) :
      MacroWord ("MAP_C".toList ++ (path.map Side.letter ++ ['R'])) (.mapPath path)

example : MacroWord "UNPAPAIR".toList (.unpair (.node .bare (.node .bare .bare))) :=
  .unpair (.right .leaves)

/-- A pair has the same letters on the left as on the right. -/
theorem PairTree.IsShape.leftName_eq {t : PairTree} (h : t.IsShape) : t.leftName = t.rightName := by
  obtain ⟨l, r, rfl, -⟩ := h.exists_node
  rfl

theorem pairWord_iff {w : List Char} {t : PairTree} :
    PairWord w t ↔ t.IsShape ∧ w = t.rightName := by
  constructor
  · intro h
    induction h with
    | leaves => exact ⟨PairTree.isShape_node rfl rfl, rfl⟩
    | left _ ih =>
      obtain ⟨ht, rfl⟩ := ih
      exact ⟨PairTree.isShape_node ht.1 rfl, by rw [← ht.leftName_eq]; rfl⟩
    | right _ ih =>
      obtain ⟨ht, rfl⟩ := ih
      exact ⟨PairTree.isShape_node rfl ht.1, rfl⟩
    | both _ _ ihl ihr =>
      obtain ⟨⟨hl, rfl⟩, ⟨hr, rfl⟩⟩ := And.intro ihl ihr
      exact ⟨PairTree.isShape_node hl.1 hr.1, by rw [← hl.leftName_eq]; rfl⟩
  · rintro ⟨ht, rfl⟩
    induction t with
    | leaf => exact absurd ht.2 (by simp [PairTree.leafCount])
    | node l r ihl ihr =>
      obtain ⟨_, _, heq, hl, hr⟩ := ht.exists_node
      obtain ⟨rfl, rfl⟩ := PairTree.node.inj heq
      rw [PairTree.rightName]
      -- a part of a pair is a leaf or a pair again
      rcases PairTree.eq_bare_or_isShape hl with rfl | hl' <;>
        rcases PairTree.eq_bare_or_isShape hr with rfl | hr'
      · exact .leaves
      · exact .right (ihr hr')
      · rw [hl'.leftName_eq]
        exact .left (ihl hl')
      · rw [hl'.leftName_eq]
        exact .both (ihl hl') (ihr hr')

/-- What the count of some letters leaves in 32 bits. -/
theorem two_le_ofNat_iff {n : Nat} : 2 ≤ UInt32.ofNat n ↔ 2 ≤ n % 2 ^ 32 := by
  rw [UInt32.le_iff_toNat_le, UInt32.toNat_ofNat']
  rfl

/-- The depth is what is left of the count in 32 bits, and that is what has to be two at least. -/
theorem depthLetters_iff {letter : Char} {w : List Char} {d : UInt32} :
    DepthLetters letter w d ↔
      ∃ n, 2 ≤ n % 2 ^ 32 ∧ d = UInt32.ofNat n ∧ w = List.replicate n letter ++ ['P'] := by
  refine exists_congr fun n => ⟨?_, ?_⟩
  · rintro ⟨rfl, hd, rfl⟩
    exact ⟨two_le_ofNat_iff.mp hd, rfl, rfl⟩
  · rintro ⟨hn, rfl, rfl⟩
    exact ⟨rfl, two_le_ofNat_iff.mpr hn, rfl⟩

/-- **The grammar** is made of the words that spell names. -/
theorem macroWord_iff {w : List Char} {n : MacroName} : MacroWord w n ↔ n.Spelled w := by
  constructor
  · -- both have the same fixed names, and put depths and pairs in other words
    intro h
    cases h with
    | dipDeep h | dupDeep h => exact ⟨_, depthLetters_iff.mpr ⟨_, h, rfl, rfl⟩, rfl⟩
    | pairUp h | unpair h =>
      obtain ⟨ht, rfl⟩ := pairWord_iff.mp h
      exact ⟨ht, rfl⟩
    | getPath h | setPath h | mapPath h => exact ⟨h, rfl⟩
    | _ => rfl
  · intro h
    cases n with
    | fixed f =>
      obtain rfl : w = _ := h
      cases f with
      | fail => exact .fail
      | assert => exact .assert
      | assertNone => exact .assertNone
      | assertSome => exact .assertSome
      | assertLeft => exact .assertLeft
      | assertRight => exact .assertRight
    | compare c =>
      obtain rfl : w = _ := h
      exact .compare c
    | ifCompared c =>
      obtain rfl : w = _ := h
      exact .ifCompared c
    | ifCompare c =>
      obtain rfl : w = _ := h
      exact .ifCompare c
    | ifSome =>
      obtain rfl : w = _ := h
      exact .ifSome
    | assertCompared c =>
      obtain rfl : w = _ := h
      exact .assertCompared c
    | assertCompare c =>
      obtain rfl : w = _ := h
      exact .assertCompare c
    | dipDeep d =>
      obtain ⟨_, hd, rfl⟩ := h
      obtain ⟨k, hk, rfl, rfl⟩ := depthLetters_iff.mp hd
      exact .dipDeep hk
    | dupDeep d =>
      obtain ⟨_, hd, rfl⟩ := h
      obtain ⟨k, hk, rfl, rfl⟩ := depthLetters_iff.mp hd
      exact .dupDeep hk
    | pairUp t =>
      obtain ⟨ht, rfl⟩ := h
      exact .pairUp (pairWord_iff.mpr ⟨ht, rfl⟩)
    | unpair t =>
      obtain ⟨ht, rfl⟩ := h
      exact .unpair (pairWord_iff.mpr ⟨ht, rfl⟩)
    | getPath path =>
      obtain ⟨hp, rfl⟩ := h
      exact .getPath hp
    | setPath path =>
      obtain ⟨hp, rfl⟩ := h
      exact .setPath hp
    | mapPath path =>
      obtain ⟨hp, rfl⟩ := h
      exact .mapPath hp

/-! ## Words in front of rules -/

/-- A run of word characters that is not empty. -/
def IsWord (w : List Char) : Prop := w ≠ [] ∧ ∀ c ∈ w, isWordChar c = true

/-- Wherever the word stands, the rule reads the whole of it as the name, and goes on with the
layout behind it. -/
def ReadsWord (r : Rule MacroName) (w : List Char) (n : MacroName) : Prop :=
  ∀ (s : State) (tail : List Char), s.cursor.rest = w ++ tail → endsWord tail = true →
    r none s = (token w.length >>= fun _ => pure n) none s

/-- Wherever the word stands, the rule misses. -/
def RefusesWord (r : Rule MacroName) (w : List Char) : Prop :=
  ∀ (s : State) (tail : List Char), s.cursor.rest = w ++ tail → endsWord tail = true →
    ∃ c, r none s = ⟨.miss, { s with cursor := c }⟩

section Words

variable {r : Rule MacroName} {P : List Char → MacroName → Prop} {w w' tail tail' : List Char}
  {n : MacroName}

/-- The names of macros are words. -/
theorem MacroWord.isWord (h : MacroWord w n) : IsWord w := by
  obtain ⟨c, cs, rfl, hc, hcs⟩ := Token.isValid_word.mp (macroWord_iff.mp h).isValid
  exact ⟨List.cons_ne_nil c cs,
    List.forall_mem_cons.mpr ⟨Token.isWordChar_of_isAlpha hc, List.all_eq_true.mp hcs⟩⟩

/-- A text has one word in front. -/
theorem IsWord.unique (hw : IsWord w) (hw' : IsWord w') (he : endsWord tail = true)
    (he' : endsWord tail' = true) (h : w ++ tail = w' ++ tail') : w = w' := by
  have hfront {w tail : List Char} (hw : IsWord w) (he : endsWord tail = true) :
      (w ++ tail).takeWhile isWordChar = w := by
    refine takeWhile_append_eq (List.all_eq_true.mpr hw.2) fun c hc => ?_
    rw [endsWord_eq, hc] at he
    simpa using he
  rw [← hfront hw he, h, hfront hw' he']

/-- In front of a word a reading of names misses or reads this word. -/
theorem Naming.cases_word (h : Naming r P) (hP : P ∈ spellings) (hw : IsWord w) {s : State}
    (hrest : s.cursor.rest = w ++ tail) (he : endsWord tail = true) :
    (∃ c, r none s = ⟨.miss, { s with cursor := c }⟩) ∨
      ∃ n, P w n ∧ r none s = (token w.length >>= fun _ => pure n) none s := by
  refine (h.cases s).imp_right ?_
  rintro ⟨w', n, tail', hrest', hn, he', hrun⟩
  have hw' : IsWord w' := (macroWord_iff.mpr (MacroName.spelled_of_mem hP hn)).isWord
  obtain rfl := hw.unique hw' he he' (hrest.symm.trans hrest')
  exact ⟨n, hn, hrun⟩

theorem Naming.refusesWord (h : Naming r P) (hP : P ∈ spellings) (hw : IsWord w)
    (hno : ∀ n, ¬P w n) : RefusesWord r w := fun _ _ hrest he =>
  (h.cases_word hP hw hrest he).resolve_right fun ⟨n, hn, _⟩ => hno n hn

/-- Of a whole word a reading reads the name that the word spells, and no other. -/
theorem Naming.readsWord_iff (h : Naming r P) (hP : P ∈ spellings) (hw : IsWord w) :
    ReadsWord r w n ↔ P w n := by
  refine ⟨fun hreads => ?_, fun hn s tail hrest he => h.reads hn hrest he⟩
  have hrest : (State.initial w).cursor.rest = w ++ [] := (List.append_nil w).symm
  have hrun := hreads (State.initial w) [] hrest rfl
  rw [bind_ok (token_initial w)] at hrun
  rcases h.cases_word hP hw hrest rfl with ⟨c, hmiss⟩ | ⟨n', hn', hrun'⟩
  · rw [hmiss] at hrun
    cases hrun
  · rw [hrun', bind_ok (token_initial w)] at hrun
    obtain rfl : n' = n := Verdict.ok.inj (congrArg Reply.verdict hrun)
    exact hn'

/-- The readings of the grammar and the words that they read. -/
theorem exists_spelling {i : Nat} (hi : (macroNames Knot.full)[i]? = some r) :
    ∃ P, spellings[i]? = some P ∧ P ∈ spellings ∧ Naming r P := by
  obtain ⟨hlt, rfl⟩ := List.getElem?_eq_some_iff.mp hi
  have hlt' : i < spellings.length := namings.length_eq ▸ hlt
  exact ⟨_, List.getElem?_eq_getElem hlt', List.getElem_mem hlt', namings.get hlt hlt'⟩

/-- A limit on nesting makes no difference to a reading that it does not stop. -/
theorem name_of_limit (hr : r ∈ macroNames Knot.full) (limit : Option Nat) (s : State) :
    r limit s = r none s ∨
      ∃ p l, limit = some l ∧ (r limit s).verdict = .halt (.error (.depth p l)) := by
  have T := SameText.agreeing (looser_none limit)
  have hrelated := related_full T.congruence (T.related_zero _ _) (s.cursor.rest.length + 1)
  have hname := List.forall₂_same.mp (T.congruence.macroNames hrelated.pairTree) r hr
  have hrun := hname 1 _ le_rfl le_rfl s s ⟨rfl, trivial, Nat.lt_succ_self _⟩ rfl
  exact hrun.eq_or.imp_right And.right

end Words

/-! ## The name of an instruction -/

/-- A run has read something of a kind, or it has halted. -/
def Reply.Settles {α : Type} (x : Reply α) (Q : α → Prop) : Prop :=
  (∃ a t, x = ⟨.ok a, t⟩ ∧ Q a) ∨ ∃ stop t, x = ⟨.halt stop, t⟩

namespace Reply.Settles

variable {α β : Type} {r : Rule α} {limit : Option Nat} {s : State} {P : α → Prop} {Q : β → Prop}

theorem of_neverMisses (h : r.NeverMisses) (limit : Option Nat) (s : State) :
    (r limit s).Settles fun _ => True := by
  rcases hrun : r limit s with ⟨a | _ | stop, t⟩
  · exact .inl ⟨a, t, rfl, trivial⟩
  · exact absurd (congrArg Reply.verdict hrun) (h limit s)
  · exact .inr ⟨stop, t, rfl⟩

/-- A sequence settles what its second rule does, behind what the first one settles. -/
theorem bind (h : (r limit s).Settles P) {q : α → Rule β}
    (hq : ∀ a t, P a → (q a limit t).Settles Q) : ((r >>= q) limit s).Settles Q := by
  rcases h with ⟨a, t, hrun, ha⟩ | ⟨stop, t, hrun⟩
  · rw [bind_ok hrun]
    exact hq a t ha
  · exact .inr ⟨stop, t, bind_halt hrun⟩

theorem attempt (h : (r limit s).Settles P) : (attempt r limit s).Settles P := by
  rw [Rule.attempt]
  rcases h with ⟨a, t, hrun, ha⟩ | ⟨stop, t, hrun⟩
  · exact .inl ⟨a, t, by rw [hrun], ha⟩
  · exact .inr ⟨stop, t, by rw [hrun]⟩

/-- Behind an alternative that settles no other is tried. -/
theorem firstOf (h : (r limit s).Settles P) (last : Rule α) (rs : List (Rule α)) :
    (firstOf last (r :: rs) limit s).Settles P := by
  rw [Rule.firstOf, optional_bind]
  rcases h with ⟨a, t, hrun, ha⟩ | ⟨stop, t, hrun⟩
  · exact .inl ⟨a, t, by rw [hrun]; rfl, ha⟩
  · exact .inr ⟨stop, t, by rw [hrun]⟩

theorem nested (h : ∀ s', s'.cursor = s.cursor → (r limit s').Settles P) :
    (nested r limit s).Settles P := by
  have hdeeper : (deeper r limit s).Settles P := by
    rcases h { s with depth := s.depth + 1 } rfl with ⟨a, t, hrun, ha⟩ | ⟨stop, t, hrun⟩
    · exact .inl ⟨a, _, by rw [deeper, hrun], ha⟩
    · exact .inr ⟨stop, _, by rw [deeper, hrun]⟩
  cases limit with
  | none => exact hdeeper
  | some l =>
    rw [nested_some]
    split
    · exact .inr ⟨_, _, rfl⟩
    · exact hdeeper

end Reply.Settles

theorem Rule.NeverMisses.token (n : Nat) : (token n).NeverMisses := by
  refine .bind (fun _ _ h => nomatch h) fun _ => .bind (fun _ _ h => nomatch h) fun c => ?_
  split
  · exact fun _ _ h => nomatch h
  · exact fun _ _ h => nomatch h

/-- The word of the instruction for pairs is read as the instruction. -/
theorem step_pair (g : Knot) (limit : Option Nat) {s : State} {tail : List Char}
    (hrest : s.cursor.rest = "PAIR".toList ++ tail) (he : endsWord tail = true) :
    (step g limit s).Settles fun o => ∃ t v f f', o = .prim (.pair t v f f') := by
  have hword (s' : State) (hs : s'.cursor = s.cursor) :
      word? s'.cursor.rest = some "PAIR".toList := by
    rw [endsWord_eq] at he
    rw [hs, hrest]
    exact Token.word?_text (t := .word "PAIR".toList) (by decide) he
  have harguments (t : State) :
      (arguments g .pair limit t).Settles fun i => ∃ t v f f', i = .pair t v f f' :=
    (Reply.Settles.of_neverMisses (NeverMisses.groupWithin _ _ _) limit t).bind fun n u _ =>
      .inl ⟨_, u, rfl, _, _, _, _, rfl⟩
  refine .nested fun s' hs =>
    .firstOf (.bind (P := fun i => ∃ t v f f', i = .pair t v f f') ?_ ?_) _ _
  · rw [instruction_eq, mnemonicWord_bind]
    refine .attempt ?_
    rw [peekWord?_bind, hword s' hs]
    have hmnemonic : Instr.Head.ofMnemonic? (String.ofList "PAIR".toList) = some .pair := by decide
    dsimp only
    rw [cursor_bind, hmnemonic]
    exact (Reply.Settles.of_neverMisses (.token _) limit s').bind fun _ t _ => harguments t
  · rintro _ u ⟨t, v, f, f', rfl⟩
    exact .inl ⟨_, u, rfl, t, v, f, f', rfl⟩

theorem MacroWord.pair : MacroWord "PAIR".toList (.pairUp (.node .bare .bare)) := .pairUp .leaves

/-- A name that is a mnemonic as well is that of a pair of two leaves. -/
theorem MacroWord.eq_pair {w : List Char} {n : MacroName} (h : MacroWord w n) {head : Instr.Head}
    (hw : head.mnemonic.toList = w) : w = "PAIR".toList := by
  by_contra hne
  have hnone := (macroWord_iff.mp h).ofMnemonic?_eq_none fun t ht =>
    (ht ▸ macroWord_iff.mp h : (MacroName.pairUp t).Spelled w).three_le_leafCount hne
  rw [← hw, String.ofList_toList, Instr.Head.ofMnemonic?_mnemonic] at hnone
  cases hnone

/-- The names that begin with the letter of depths are those of depths. -/
theorem MacroWord.depth {v : List Char} {m : MacroName} (h : MacroWord ('D' :: v) m) :
    ∃ n, 2 ≤ n % 2 ^ 32 ∧ (v = List.replicate n 'I' ++ ['P'] ∧ m = .dipDeep (UInt32.ofNat n) ∨
      v = List.replicate n 'U' ++ ['P'] ∧ m = .dupDeep (UInt32.ofNat n)) := by
  have h := macroWord_iff.mp h
  cases m with
  | dipDeep d =>
    obtain ⟨_, hd, heq⟩ := h
    obtain rfl := (List.cons.inj heq).2
    obtain ⟨n, hn, rfl, rfl⟩ := depthLetters_iff.mp hd
    exact ⟨n, hn, .inl ⟨rfl, rfl⟩⟩
  | dupDeep d =>
    obtain ⟨_, hd, heq⟩ := h
    obtain rfl := (List.cons.inj heq).2
    obtain ⟨n, hn, rfl, rfl⟩ := depthLetters_iff.mp hd
    exact ⟨n, hn, .inr ⟨rfl, rfl⟩⟩
  | fixed f => cases f <;> exact absurd (List.cons.inj h).1 (by decide)
  | pairUp t =>
    obtain ⟨l, r, rfl, -⟩ := h.1.exists_node
    exact absurd (List.cons.inj h.2).1 (by decide)
  | unpair | getPath | setPath | mapPath => exact absurd (List.cons.inj h.2).1 (by decide)
  | _ => exact absurd (List.cons.inj h).1 (by decide)

/-- A count that fits in 32 bits is the depth itself. -/
theorem macroWord_depth {n : Nat} (hn : n < 2 ^ 32) (m : MacroName) :
    (MacroWord ('D' :: (List.replicate n 'I' ++ ['P'])) m ↔
      2 ≤ n ∧ ∃ d, m = .dipDeep d ∧ d.toNat = n) ∧
    (MacroWord ('D' :: (List.replicate n 'U' ++ ['P'])) m ↔
      2 ≤ n ∧ ∃ d, m = .dupDeep d ∧ d.toNat = n) := by
  have hmod : n % 2 ^ 32 = n := Nat.mod_eq_of_lt hn
  have hcount : (UInt32.ofNat n).toNat = n := UInt32.toNat_ofNat_of_lt' hn
  have hlength {k : Nat} {c d : Char}
      (h : List.replicate n c ++ ['P'] = List.replicate k d ++ ['P']) : k = n := by
    simpa using congrArg List.length h.symm
  have hletter {c d : Char} (h : List.replicate n c ++ ['P'] = List.replicate n d ++ ['P'])
      (hn : 2 ≤ n % 2 ^ 32) : c = d :=
    (List.replicate_right_inj (by omega)).mp (List.append_cancel_right h)
  refine ⟨⟨fun h => ?_, ?_⟩, fun h => ?_, ?_⟩
  · obtain ⟨k, hk, ⟨hv, rfl⟩ | ⟨hv, rfl⟩⟩ := h.depth <;> obtain rfl := hlength hv
    · exact ⟨hmod ▸ hk, _, rfl, hcount⟩
    · exact absurd (hletter hv hk) (by decide)
  · rintro ⟨h, d, rfl, rfl⟩
    have hword := MacroWord.dipDeep (hmod.symm ▸ h)
    rwa [UInt32.ofNat_toNat] at hword
  · obtain ⟨k, hk, ⟨hv, rfl⟩ | ⟨hv, rfl⟩⟩ := h.depth <;> obtain rfl := hlength hv
    · exact absurd (hletter hv hk) (by decide)
    · exact ⟨hmod ▸ hk, _, rfl, hcount⟩
  · rintro ⟨h, d, rfl, rfl⟩
    have hword := MacroWord.dupDeep (hmod.symm ▸ h)
    rwa [UInt32.ofNat_toNat] at hword

/-- **Names are unambiguous.** In front of a word, each of the readings of macro names either
reads the whole of it or misses, and at most one of them reads it; a limit on nesting can only
stop them. Some reading reads the word just if it is in the grammar, and then it reads what
the grammar says; with up to 32 bits the depth in a name is the count of its letters. Of
these words one is the mnemonic of an instruction as well, `PAIR`, and a step that begins
with it is read as the instruction. -/
theorem macro_names_unambiguous :
    (∀ w, IsWord w → ∀ r ∈ macroNames Knot.full, (∃ n, ReadsWord r w n) ∨ RefusesWord r w) ∧
    (∀ w, IsWord w → ∀ (i j : Nat) r r' n n', (macroNames Knot.full)[i]? = some r →
      (macroNames Knot.full)[j]? = some r' → ReadsWord r w n → ReadsWord r' w n' → i = j ∧ n = n') ∧
    (∀ r ∈ macroNames Knot.full, ∀ limit s, r limit s = r none s ∨
      ∃ p l, limit = some l ∧ (r limit s).verdict = .halt (.error (.depth p l))) ∧
    (∀ w, IsWord w → ∀ n, (∃ r ∈ macroNames Knot.full, ReadsWord r w n) ↔ MacroWord w n) ∧
    (∀ n, n < 2 ^ 32 → ∀ m,
      (MacroWord ('D' :: (List.replicate n 'I' ++ ['P'])) m ↔
        2 ≤ n ∧ ∃ d, m = .dipDeep d ∧ d.toNat = n) ∧
      (MacroWord ('D' :: (List.replicate n 'U' ++ ['P'])) m ↔
        2 ≤ n ∧ ∃ d, m = .dupDeep d ∧ d.toNat = n)) ∧
    (∀ w, (∃ n, MacroWord w n) ∧ (∃ head : Instr.Head, head.mnemonic.toList = w) ↔
      w = "PAIR".toList) ∧
    ∀ (g : Knot) (limit : Option Nat) (s : State) (tail : List Char),
      s.cursor.rest = "PAIR".toList ++ tail → endsWord tail = true →
      (step g limit s).Settles fun o => ∃ t v f f', o = .prim (.pair t v f f') := by
  refine ⟨fun w hw r hr => ?_, fun w hw i j r r' n n' hi hj hn hn' => ?_,
    fun r hr limit s => name_of_limit hr limit s,
    fun w hw n => ⟨fun ⟨r, hr, hn⟩ => ?_, fun hn => ?_⟩, fun n hn m => macroWord_depth hn m,
    fun w => ⟨fun ⟨⟨n, hn⟩, head, hw⟩ => ?_, ?_⟩,
    fun g limit s tail hrest he => step_pair g limit hrest he⟩
  · obtain ⟨i, hi⟩ := List.mem_iff_getElem?.mp hr
    obtain ⟨P, -, hP, hr⟩ := exists_spelling hi
    by_cases hread : ∃ n, P w n
    · exact .inl (hread.imp fun n => (hr.readsWord_iff hP hw).mpr)
    · exact .inr (hr.refusesWord hP hw (not_exists.mp hread))
  · obtain ⟨P, hPi, hP, hr⟩ := exists_spelling hi
    obtain ⟨P', hPj, hP', hr'⟩ := exists_spelling hj
    have hn := (hr.readsWord_iff hP hw).mp hn
    have hn' := (hr'.readsWord_iff hP' hw).mp hn'
    -- the first letters tell which reading it is
    exact ⟨(MacroName.readingOf_eq hPi hn).symm.trans (MacroName.readingOf_eq hPj hn'),
      (MacroName.spelled_of_mem hP hn).unique (MacroName.spelled_of_mem hP' hn')⟩
  · obtain ⟨i, hi⟩ := List.mem_iff_getElem?.mp hr
    obtain ⟨P, -, hP, hr⟩ := exists_spelling hi
    exact macroWord_iff.mpr (MacroName.spelled_of_mem hP ((hr.readsWord_iff hP hw).mp hn))
  · obtain ⟨P, hP, hn⟩ := (macroWord_iff.mp hn).exists_mem
    obtain ⟨r, hr, hnaming⟩ := MacroName.exists_naming hP
    exact ⟨r, hr, (hnaming.readsWord_iff hP hw).mpr hn⟩
  · exact hn.eq_pair hw
  · rintro rfl
    exact ⟨⟨_, .pair⟩, .pair, rfl⟩

end Michelson
