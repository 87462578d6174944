import Mathlib.Tactic.IntervalCases
import Michelson.Proofs.Letters

/-!
# Names of macros

Without a limit on nesting, the reading of a macro name depends on the next word
only, and it passes the whole word or misses.

* `Naming` says what words a rule reads as names. `namings` says it of the
  readings of the grammar.
* `MacroName.Spelled` says what words spell a name. A word spells one name at
  most: `MacroName.Spelled.unique`.
* `lexical_name` makes lexical rules of the readings.
-/

namespace Michelson

open Rule

/-! ## Words that are read as names -/

/-- The words that a rule reads as names without a limit on nesting. -/
structure Naming (r : Rule MacroName) (P : List Char → MacroName → Prop) : Prop where
  cases (s : State) : (∃ c, r none s = ⟨.miss, { s with cursor := c }⟩) ∨
    ∃ w n tail, s.cursor.rest = w ++ tail ∧ P w n ∧ endsWord tail = true ∧
      r none s = (token w.length >>= fun _ => pure n) none s
  reads {s : State} {w tail : List Char} {n : MacroName} : P w n → s.cursor.rest = w ++ tail →
    endsWord tail = true → r none s = (token w.length >>= fun _ => pure n) none s

/-- A text that is a word has no layout behind the word. -/
theorem token_initial (w : List Char) :
    token w.length none (State.initial w) = ⟨.ok (), (State.initial w).past w⟩ :=
  layout_past Layout.fills_nil_nil (s := (State.initial w).past w)
    (State.rest_past (List.append_nil w).symm) none

/-- A word is read as one name only. -/
theorem Naming.unique {r : Rule MacroName} {P : List Char → MacroName → Prop} (h : Naming r P)
    {w : List Char} {n n' : MacroName} (hn : P w n) (hn' : P w n') : n = n' := by
  have hrest : (State.initial w).cursor.rest = w ++ [] := (List.append_nil w).symm
  have hrun := (h.reads hn hrest rfl).symm.trans (h.reads hn' hrest rfl)
  rw [bind_ok (token_initial w), bind_ok (token_initial w)] at hrun
  exact Verdict.ok.inj (congrArg Reply.verdict hrun)

/-- The words that begin with an opening and go on with letters for what the name
says. -/
def Spelling {α : Type} (opening : String) (P : List Char → α → Prop) (name : α → MacroName)
    (w : List Char) (n : MacroName) : Prop :=
  ∃ v a, P v a ∧ w = opening.toList ++ v ∧ n = name a

namespace Grammar

variable {α : Type}

/-- An opening, what the name says, and the end of the name. -/
def nameOf (opening : String) (body : Rule α) (name : α → MacroName) : Rule MacroName := do
  letters opening
  let a ← body
  nameEnd
  pure (name a)

/-- At the end of a word, only the layout behind it is left to be passed. -/
theorem nameEnd_eq {s : State} {tail : List Char} (w : List Char) (n : MacroName)
    (hrest : s.cursor.rest = w ++ tail) (he : endsWord tail = true) :
    (nameEnd >>= fun _ => pure n) none (s.past w) = (token w.length >>= fun _ => pure n) none s := by
  have hend : nameEnd none (s.past w) = layout none (s.past w) := by
    rw [nameEnd, rest_bind, State.rest_past hrest, if_pos he]
  have htoken : token w.length none s = layout none (s.past w) := rfl
  rcases hl : layout none (s.past w) with ⟨_ | _ | stop, t⟩
  · rw [bind_ok (hend.trans hl), bind_ok (htoken.trans hl)]
  · rw [bind_miss (hend.trans hl), bind_miss (htoken.trans hl)]
  · rw [bind_halt (hend.trans hl), bind_halt (htoken.trans hl)]

/-- A name is its opening and what its body reads, if the word ends there. -/
theorem naming_nameOf (opening : String) {body : Rule α} {P : List Char → α → Prop}
    (hbody : Body body P) (name : α → MacroName) :
    Naming (nameOf opening body name) (Spelling opening P name) where
  cases s := by
    rcases letters_cases opening s with ⟨c, h⟩ | ⟨_, _, tail, htail, rfl, h⟩
    · exact .inl ⟨c, bind_miss h⟩
    · rw [nameOf, bind_ok h]
      rcases hbody.cases (s.past opening.toList) with ⟨c, h⟩ | ⟨v, a, tail', htail', hv, h⟩
      · exact .inl ⟨c, bind_miss h⟩
      · rw [bind_ok h, ← State.past_append]
        rw [State.rest_past htail] at htail'
        have hrest : s.cursor.rest = (opening.toList ++ v) ++ tail' := by
          rw [htail, htail', List.append_assoc]
        by_cases he : endsWord tail' = true
        · exact .inr ⟨_, name a, tail', hrest, ⟨v, a, hv, rfl, rfl⟩, he, nameEnd_eq _ _ hrest he⟩
        · have hend : nameEnd none (s.past (opening.toList ++ v)) =
              ⟨.miss, s.past (opening.toList ++ v)⟩ := by
            rw [nameEnd, rest_bind, State.rest_past hrest, if_neg he]
            rfl
          exact .inl ⟨_, bind_miss hend⟩
  reads := by
    rintro s _ tail _ ⟨v, a, hv, rfl, rfl⟩ hrest he
    have hrest' := hrest
    rw [List.append_assoc] at hrest'
    rw [nameOf, bind_ok (letters_reads _ hrest'), bind_ok (hbody.reads hv (State.rest_past hrest') he),
      ← State.past_append, nameEnd_eq _ _ hrest he]

/-! ### The readings of the grammar -/

/-- Depths have an opening of one letter, and a body that counts another one. -/
theorem depthName_eq (letter : Char) (name : UInt32 → MacroName) :
    depthName letter name = nameOf "D" (depthBody letter) name := by
  rw [depthName, nameOf, depthBody]
  simp only [bind_assoc]
  refine congrArg (letters "D" >>= ·) (funext fun _ => congrArg (rest >>= ·) (funext fun cs => ?_))
  refine congrArg (advance _ >>= ·) (funext fun _ => ?_)
  split
  · rfl
  · simp only [bind_assoc, pure_bind]

/-- Paths have a body that ends with a letter of its own. -/
theorem pathName_eq (opening : String) (least : Nat) (name : List Side → MacroName) :
    pathName opening least name = nameOf opening (pathBody least) name := by
  rw [pathName, nameOf, pathBody]
  simp only [bind_assoc]
  refine congrArg (letters opening >>= ·)
    (funext fun _ => congrArg (rest >>= ·) (funext fun cs => ?_))
  refine congrArg (advance _ >>= ·) (funext fun _ => ?_)
  split
  · rfl
  · simp only [bind_assoc, pure_bind]

theorem treeName_eq (g : Knot) (opening : String) (name : PairTree → MacroName) :
    treeName g opening name = nameOf opening (treeBody g) name := by
  rw [treeName, nameOf, treeBody]
  simp only [bind_assoc, pure_bind]

/-- The words that each of the readings reads as a name. -/
def spellings : List (List Char → MacroName → Prop) :=
  have comparison := ChoiceLetters Comparison.mnemonic Comparison.all
  have asserted := ChoiceLetters assertedSuffix
    [.assertNone, .assertSome, .assertLeft, .assertRight]
  [Spelling "CMP" comparison .compare,
    Spelling "IF_SOME" NoLetters fun _ => .ifSome,
    Spelling "IFCMP" comparison .ifCompare,
    Spelling "IF" comparison .ifCompared,
    Spelling "FAIL" NoLetters fun _ => .fixed .fail,
    Spelling "ASSERT_CMP" comparison .assertCompare,
    Spelling "ASSERT_" asserted .fixed,
    Spelling "ASSERT_" comparison .assertCompared,
    Spelling "ASSERT" NoLetters fun _ => .fixed .assert,
    Spelling "D" (DepthLetters 'I') .dipDeep,
    Spelling "D" (DepthLetters 'U') .dupDeep,
    Spelling "UN" TreeLetters .unpair,
    Spelling "" TreeLetters .pairUp,
    Spelling "C" (PathLetters 2) .getPath,
    Spelling "SET_C" (PathLetters 1) .setPath,
    Spelling "MAP_C" (PathLetters 1) .mapPath]

/-- **The readings of the grammar** read these words. -/
theorem namings : List.Forall₂ Naming (macroNames Knot.full) spellings := by
  have hdepth {letter : Char} (hletter : letter ≠ 'P') (name : UInt32 → MacroName) :
      Naming (depthName letter name) (Spelling "D" (DepthLetters letter) name) := by
    rw [depthName_eq]
    exact naming_nameOf _ (body_depth hletter) name
  have htree (opening : String) (name : PairTree → MacroName) :
      Naming (treeName Knot.full opening name) (Spelling opening TreeLetters name) := by
    rw [treeName_eq]
    exact naming_nameOf _ body_tree name
  have hpath (opening : String) (least : Nat) (name : List Side → MacroName) :
      Naming (pathName opening least name) (Spelling opening (PathLetters least) name) := by
    rw [pathName_eq]
    exact naming_nameOf _ (body_path least) name
  have hasserted := naming_nameOf "ASSERT_"
    (body_choice assertedSuffix [.assertNone, .assertSome, .assertLeft, .assertRight] (by decide))
    .fixed
  refine .cons (naming_nameOf _ body_comparison .compare) ?_
  refine .cons (naming_nameOf _ body_none fun _ => .ifSome) ?_
  refine .cons (naming_nameOf _ body_comparison .ifCompare) ?_
  refine .cons (naming_nameOf _ body_comparison .ifCompared) ?_
  refine .cons (naming_nameOf _ body_none fun _ => .fixed .fail) ?_
  refine .cons (naming_nameOf _ body_comparison .assertCompare) ?_
  refine .cons hasserted ?_
  refine .cons (naming_nameOf _ body_comparison .assertCompared) ?_
  refine .cons (naming_nameOf _ body_none fun _ => .fixed .assert) ?_
  refine .cons (hdepth (by decide) _) (.cons (hdepth (by decide) _) ?_)
  refine .cons (htree _ _) (.cons (htree _ _) ?_)
  exact .cons (hpath _ _ _) (.cons (hpath _ _ _) (.cons (hpath _ _ _) .nil))

end Grammar

/-! ## Words that spell a name -/

namespace MacroName

open Grammar

/-- The words that spell a name. A depth is spelled by every count of letters that
it is the remainder of. -/
def Spelled : MacroName → List Char → Prop
  | dipDeep d, w => ∃ v, DepthLetters 'I' v d ∧ w = 'D' :: v
  | dupDeep d, w => ∃ v, DepthLetters 'U' v d ∧ w = 'D' :: v
  | pairUp t, w => t.IsShape ∧ w = (pairUp t).letters
  | unpair t, w => t.IsShape ∧ w = (unpair t).letters
  | getPath p, w => 2 ≤ p.length ∧ w = (getPath p).letters
  | setPath p, w => 1 ≤ p.length ∧ w = (setPath p).letters
  | mapPath p, w => 1 ≤ p.length ∧ w = (mapPath p).letters
  | n, w => w = n.letters

/-- Of a name that one of some choices completes, each choice has to be spelled. -/
theorem spelled_of_choice {α : Type} {opening : String} {letters : α → String} {choices : List α}
    {name : α → MacroName} {w : List Char} {n : MacroName}
    (h : Spelling opening (ChoiceLetters letters choices) name w n)
    (hname : ∀ a ∈ choices, (name a).Spelled (opening.toList ++ (letters a).toList)) :
    n.Spelled w := by
  obtain ⟨_, a, ⟨ha, rfl⟩, rfl, rfl⟩ := h
  exact hname a ha

/-- What is read as a name spells it. -/
theorem spelled_of_mem {P : List Char → MacroName → Prop} (hP : P ∈ spellings)
    {w : List Char} {n : MacroName} (h : P w n) : n.Spelled w := by
  simp only [spellings, List.mem_cons, List.not_mem_nil, or_false] at hP
  rcases hP with rfl | rfl | rfl | rfl | rfl | rfl | rfl | rfl | rfl | rfl | rfl | rfl | rfl | rfl |
    rfl | rfl
  · exact spelled_of_choice h fun _ _ => rfl
  · obtain ⟨_, _, rfl, rfl, rfl⟩ := h
    rfl
  · exact spelled_of_choice h fun _ _ => rfl
  · exact spelled_of_choice h fun _ _ => rfl
  · obtain ⟨_, _, rfl, rfl, rfl⟩ := h
    rfl
  · exact spelled_of_choice h fun _ _ => rfl
  · have hletters : ∀ f ∈ [Fixed.assertNone, .assertSome, .assertLeft, .assertRight],
        "ASSERT_".toList ++ (assertedSuffix f).toList = (fixed f).letters := by decide
    exact spelled_of_choice h hletters
  · exact spelled_of_choice h fun _ _ => rfl
  · obtain ⟨_, _, rfl, rfl, rfl⟩ := h
    rfl
  · obtain ⟨v, d, hd, rfl, rfl⟩ := h
    exact ⟨v, hd, rfl⟩
  · obtain ⟨v, d, hd, rfl, rfl⟩ := h
    exact ⟨v, hd, rfl⟩
  all_goals
    obtain ⟨_, _, ⟨ha, rfl⟩, rfl, rfl⟩ := h
    exact ⟨ha, rfl⟩

/-- What spells a name is read as it. -/
theorem Spelled.exists_mem {n : MacroName} {w : List Char} (h : n.Spelled w) :
    ∃ P ∈ spellings, P w n := by
  have hmem : ∀ c : Comparison, c ∈ Comparison.all := by
    intro c
    cases c <;> decide
  have hmem' (i : Nat) {P : List Char → MacroName → Prop} (hi : spellings[i]? = some P)
      (hP : P w n) : ∃ P ∈ spellings, P w n := ⟨P, List.mem_of_getElem? hi, hP⟩
  cases n with
  | fixed f =>
    obtain rfl : w = (fixed f).letters := h
    cases f with
    | fail => exact hmem' 4 rfl ⟨[], (), rfl, rfl, rfl⟩
    | assert => exact hmem' 8 rfl ⟨[], (), rfl, rfl, rfl⟩
    | _ => exact hmem' 6 rfl ⟨_, _, ⟨by decide, rfl⟩, rfl, rfl⟩
  | compare c => exact hmem' 0 rfl ⟨_, c, ⟨hmem c, rfl⟩, h, rfl⟩
  | ifCompared c => exact hmem' 3 rfl ⟨_, c, ⟨hmem c, rfl⟩, h, rfl⟩
  | ifCompare c => exact hmem' 2 rfl ⟨_, c, ⟨hmem c, rfl⟩, h, rfl⟩
  | ifSome => exact hmem' 1 rfl ⟨[], (), rfl, h, rfl⟩
  | assertCompared c => exact hmem' 7 rfl ⟨_, c, ⟨hmem c, rfl⟩, h, rfl⟩
  | assertCompare c => exact hmem' 5 rfl ⟨_, c, ⟨hmem c, rfl⟩, h, rfl⟩
  | dipDeep d =>
    obtain ⟨v, hd, rfl⟩ := h
    exact hmem' 9 rfl ⟨v, d, hd, rfl, rfl⟩
  | dupDeep d =>
    obtain ⟨v, hd, rfl⟩ := h
    exact hmem' 10 rfl ⟨v, d, hd, rfl, rfl⟩
  | pairUp t => exact hmem' 12 rfl ⟨_, t, ⟨h.1, rfl⟩, h.2, rfl⟩
  | unpair t => exact hmem' 11 rfl ⟨_, t, ⟨h.1, rfl⟩, h.2, rfl⟩
  | getPath p => exact hmem' 13 rfl ⟨_, p, ⟨h.1, rfl⟩, h.2, rfl⟩
  | setPath p => exact hmem' 14 rfl ⟨_, p, ⟨h.1, rfl⟩, h.2, rfl⟩
  | mapPath p => exact hmem' 15 rfl ⟨_, p, ⟨h.1, rfl⟩, h.2, rfl⟩

/-- The reading that a word is one of, told by its first letters. -/
def readingOf : List Char → Nat
  | 'C' :: 'M' :: _ => 0
  | 'I' :: 'F' :: '_' :: _ => 1
  | 'I' :: 'F' :: 'C' :: _ => 2
  | 'I' :: _ => 3
  | 'F' :: _ => 4
  | 'A' :: 'S' :: 'S' :: 'E' :: 'R' :: 'T' :: suffix =>
    match suffix with
    | [] => 8
    | '_' :: 'C' :: _ => 5
    | '_' :: 'N' :: 'O' :: _ => 6
    | '_' :: 'S' :: _ => 6
    | '_' :: 'L' :: 'E' :: 'F' :: _ => 6
    | '_' :: 'R' :: _ => 6
    | _ => 7
  | 'D' :: 'I' :: _ => 9
  | 'D' :: _ => 10
  | 'U' :: _ => 11
  | 'P' :: _ => 12
  | 'C' :: _ => 13
  | 'S' :: _ => 14
  | _ => 15

/-- A depth is two at least, so its letter stands there twice. -/
theorem DepthLetters.exists_cons {letter : Char} {w : List Char} {d : UInt32}
    (h : DepthLetters letter w d) : ∃ v, w = letter :: letter :: v := by
  obtain ⟨k, rfl, hd, rfl⟩ := h
  obtain ⟨k, rfl⟩ : ∃ j, k = j + 2 := by
    refine ⟨k - 2, (Nat.sub_add_cancel (Nat.not_lt.mp fun hk => ?_)).symm⟩
    have hsmall : ∀ k < 2, ¬2 ≤ UInt32.ofNat k := by decide
    exact hsmall k hk hd
  exact ⟨_, rfl⟩

/-- The reading that is in charge may be found choice by choice. -/
theorem readingOf_choice {α : Type} {opening : String} {letters : α → String} {choices : List α}
    {name : α → MacroName} {w : List Char} {n : MacroName} {i : Nat}
    (h : Spelling opening (ChoiceLetters letters choices) name w n)
    (hi : ∀ a ∈ choices, readingOf (opening.toList ++ (letters a).toList) = i) :
    readingOf w = i := by
  obtain ⟨_, a, ⟨ha, rfl⟩, rfl, rfl⟩ := h
  exact hi a ha

/-- The letters in front tell the readings apart, so a word is read by one of them only. -/
theorem readingOf_eq {i : Nat} {P : List Char → MacroName → Prop} (hi : spellings[i]? = some P)
    {w : List Char} {n : MacroName} (h : P w n) : readingOf w = i := by
  have hlt : i < 16 := (List.getElem?_eq_some_iff.mp hi).1
  interval_cases i <;> obtain rfl := Option.some.inj hi
  case «1» | «4» | «8» =>
    obtain ⟨_, _, rfl, rfl, rfl⟩ := h
    rfl
  case «9» | «10» =>
    obtain ⟨_, _, hd, rfl, rfl⟩ := h
    obtain ⟨v, rfl⟩ := DepthLetters.exists_cons hd
    rfl
  case «11» =>
    obtain ⟨_, _, _, rfl, rfl⟩ := h
    rfl
  case «12» =>
    obtain ⟨_, _, ⟨ht, rfl⟩, rfl, rfl⟩ := h
    obtain ⟨l, r, rfl, -⟩ := ht.exists_node
    rfl
  case «13» =>
    obtain ⟨_, path, ⟨hlen, rfl⟩, rfl, rfl⟩ := h
    obtain ⟨side, path, rfl⟩ := List.exists_cons_of_length_pos (hlen.trans' (by decide))
    cases side <;> rfl
  case «14» | «15» =>
    obtain ⟨_, _, _, rfl, rfl⟩ := h
    rfl
  all_goals exact readingOf_choice h (by decide)

/-- Every kind of spelling has a reading in the grammar. -/
theorem exists_naming {P : List Char → MacroName → Prop} (hP : P ∈ spellings) :
    ∃ r ∈ macroNames Knot.full, Naming r P := by
  obtain ⟨i, hi, rfl⟩ := List.getElem_of_mem hP
  have hi' : i < (macroNames Knot.full).length := namings.length_eq.symm ▸ hi
  exact ⟨_, List.getElem_mem hi', namings.get hi' hi⟩

/-- **One name for a word.** -/
theorem Spelled.unique {n n' : MacroName} {w : List Char} (h : n.Spelled w) (h' : n'.Spelled w) :
    n = n' := by
  obtain ⟨P, hP, hn⟩ := h.exists_mem
  obtain ⟨P', hP', hn'⟩ := h'.exists_mem
  obtain ⟨i, hi⟩ := List.mem_iff_getElem?.mp hP
  obtain ⟨j, hj⟩ := List.mem_iff_getElem?.mp hP'
  -- the first letters tell which reading it is
  obtain rfl : i = j := (readingOf_eq hi hn).symm.trans (readingOf_eq hj hn')
  obtain rfl : P = P' := Option.some.inj (hi.symm.trans hj)
  obtain ⟨r, -, hr⟩ := exists_naming hP
  exact hr.unique hn hn'

/-- Whether `c` may stand in the name of a macro. -/
def isNameChar (c : Char) : Bool := c.isUpper || c == '_'

theorem isWordChar_of_isNameChar {c : Char} (h : isNameChar c = true) : isWordChar c = true := by
  rw [isNameChar, Bool.or_eq_true] at h
  rw [isWordChar, Bool.or_eq_true, Char.isAlphanum, Bool.or_eq_true]
  exact h.imp_left fun h => .inl (Bool.or_eq_true_iff.mpr (.inl h))

theorem isNameChar_of_mem_name (t : PairTree) :
    (∀ c ∈ t.leftName, isNameChar c = true) ∧ ∀ c ∈ t.rightName, isNameChar c = true := by
  -- the letters of a side contain those of the other sides further in
  induction t with
  | leaf v f => exact ⟨List.forall_mem_singleton.mpr (by decide),
      List.forall_mem_singleton.mpr (by decide)⟩
  | node l r ihl ihr =>
    have hnode : ∀ c ∈ 'P' :: (l.leftName ++ r.rightName), isNameChar c = true :=
      List.forall_mem_cons.mpr ⟨by decide, List.forall_mem_append.mpr ⟨ihl.1, ihr.2⟩⟩
    exact ⟨hnode, hnode⟩

theorem isNameChar_of_mem_path (path : List Side) : ∀ c ∈ pathLetters path, isNameChar c = true := by
  refine List.forall_mem_append.mpr ⟨?_, List.forall_mem_singleton.mpr (by decide)⟩
  refine List.forall_mem_map.mpr fun side _ => ?_
  cases side <;> decide

/-- A depth has two letters in it, the one that is counted and the last. -/
theorem isNameChar_of_depthLetters {letter : Char} (hletter : isNameChar letter = true)
    {w : List Char} {d : UInt32} (h : DepthLetters letter w d) : ∀ c ∈ w, isNameChar c = true := by
  obtain ⟨k, -, -, rfl⟩ := h
  refine List.forall_mem_append.mpr ⟨fun c hc => ?_, List.forall_mem_singleton.mpr (by decide)⟩
  rw [List.eq_of_mem_replicate hc]
  exact hletter

/-- What spells a name is made of capital letters and underscores. -/
theorem Spelled.exists_cons {n : MacroName} {w : List Char} (h : n.Spelled w) :
    ∃ c cs, w = c :: cs ∧ c.isAlpha = true ∧ ∀ d ∈ cs, isNameChar d = true := by
  have hletter (t : PairTree) : ∀ c ∈ t.rightName ++ ['R'], isNameChar c = true :=
    List.forall_mem_append.mpr
      ⟨(isNameChar_of_mem_name t).2, List.forall_mem_singleton.mpr (by decide)⟩
  have hcomparison (c : Comparison) : ∀ d ∈ c.mnemonic.toList, isNameChar d = true :=
    List.all_eq_true.mp (by cases c <;> decide)
  cases n with
  | fixed f =>
    obtain rfl : w = (fixed f).letters := h
    cases f <;> exact ⟨_, _, rfl, by decide, List.all_eq_true.mp (by decide)⟩
  | compare c | ifCompared c | ifCompare c | assertCompared c | assertCompare c =>
    rw [show w = _ from h]
    exact ⟨_, _, rfl, by decide,
      List.forall_mem_append.mpr ⟨List.all_eq_true.mp (by decide), hcomparison c⟩⟩
  | ifSome =>
    obtain rfl : w = ifSome.letters := h
    exact ⟨_, _, rfl, by decide, List.all_eq_true.mp (by decide)⟩
  | dipDeep d | dupDeep d =>
    obtain ⟨v, hv, rfl⟩ := h
    exact ⟨_, _, rfl, by decide, isNameChar_of_depthLetters (by decide) hv⟩
  | pairUp t =>
    obtain ⟨ht, rfl⟩ := h
    have hall := hletter t
    obtain ⟨l, r, rfl, -⟩ := ht.exists_node
    exact ⟨_, _, rfl, by decide, fun c hc => hall c (List.mem_cons_of_mem _ hc)⟩
  | unpair t =>
    obtain ⟨-, rfl⟩ := h
    exact ⟨_, _, rfl, by decide, List.forall_mem_cons.mpr ⟨by decide, hletter t⟩⟩
  | getPath p =>
    obtain ⟨-, rfl⟩ := h
    exact ⟨_, _, rfl, by decide, isNameChar_of_mem_path p⟩
  | setPath p | mapPath p =>
    obtain ⟨-, rfl⟩ := h
    exact ⟨_, _, rfl, by decide,
      List.forall_mem_append.mpr ⟨List.all_eq_true.mp (by decide), isNameChar_of_mem_path p⟩⟩

/-- What spells a name is a word. -/
theorem Spelled.isValid {n : MacroName} {w : List Char} (h : n.Spelled w) :
    (Token.word w).isValid = true := by
  obtain ⟨c, cs, rfl, hc, hcs⟩ := h.exists_cons
  exact Token.isValid_word.mpr
    ⟨c, cs, rfl, hc, List.all_eq_true.mpr fun d hd => isWordChar_of_isNameChar (hcs d hd)⟩

end MacroName

/-! ## Names as lexical rules -/

namespace Rule

open Classical in
/-- The name that a word spells. -/
noncomputable def spelledName (P : List Char → MacroName → Prop) (w : List Char) :
    Option MacroName :=
  if h : ∃ n, P w n then some h.choose else none

/-- A word that spells a name is looked up as it, for no other name is spelled by it. -/
theorem spelledName_eq {r : Rule MacroName} {P : List Char → MacroName → Prop} (h : Naming r P)
    {w : List Char} {n : MacroName} (hw : P w n) : spelledName P w = some n := by
  have hex : ∃ n, P w n := ⟨n, hw⟩
  rw [spelledName, dif_pos hex]
  exact congrArg some (h.unique hex.choose_spec hw)

/-- What is looked up is spelled by the word. -/
theorem of_spelledName {P : List Char → MacroName → Prop} {w : List Char} {n : MacroName}
    (h : spelledName P w = some n) : P w n := by
  rw [spelledName] at h
  split at h
  · rename_i hex
    exact Option.some.inj h ▸ hex.choose_spec
  · cases h

/-- What the reading of a name makes of a text. -/
noncomputable def lookName (P : List Char → MacroName → Prop) (cs : List Char) :
    Answer MacroName :=
  match word? cs with
  | none => .missed
  | some w =>
    match spelledName P w with
    | some n => .taken w.length n
    | none => .missed

/-- What the reading of a name makes of a token. -/
noncomputable def readName (P : List Char → MacroName → Prop) (t? : Option Token) :
    Reading MacroName :=
  match t?.bind Token.letters? with
  | none => .missed
  | some w =>
    match spelledName P w with
    | some n => .taken n
    | none => .missed

/-- A reading looks at the next word, and takes it as a whole or leaves it. -/
theorem lexical_name (P : List Char → MacroName → Prop) : Lexical (lookName P) (readName P) where
  shows := by
    intro t tail hv he
    rw [lookName, readName, Token.word?_text hv he, Option.bind_some]
    cases t with
    | word w =>
      rw [Token.letters?]
      dsimp only
      cases spelledName P w with
      | some n => exact ⟨rfl, rfl⟩
      | none => trivial
    | _ => trivial
  atEnd := trivial
  sound := by
    intro cs n a h
    rw [lookName] at h
    split at h
    · cases h
    · rename_i w hw
      split at h
      · cases h
        obtain ⟨hv, tail, rfl, he⟩ := Token.exists_of_word? hw
        exact ⟨.word w, tail, rfl, rfl, hv, he⟩
      · cases h

/-- **A reading of names is lexical** where there is no limit on nesting. -/
theorem attempt_name {r : Rule MacroName} {P : List Char → MacroName → Prop} (h : Naming r P)
    (hword : ∀ w n, P w n → (Token.word w).isValid = true) (s : State) :
    attempt r none s = lexical (lookName P) none s := by
  have hcases : (∃ w n, word? s.cursor.rest = some w ∧ spelledName P w = some n) ∨
      attempt r none s = ⟨.miss, s⟩ := by
    rcases h.cases s with ⟨c, hr⟩ | ⟨w, n, tail, hrest, hw, he, -⟩
    · right
      rw [attempt, hr]
    · left
      rw [endsWord_eq] at he
      have hword? := Token.word?_text (hword w n hw) he
      rw [hrest]
      exact ⟨w, n, hword?, spelledName_eq h hw⟩
  rw [lexical_run, lookName]
  rcases hw : word? s.cursor.rest with _ | w
  · refine hcases.resolve_left ?_
    rintro ⟨w, n, hw', -⟩
    rw [hw] at hw'
    cases hw'
  · dsimp only
    rcases hn : spelledName P w with _ | n
    · refine hcases.resolve_left ?_
      rintro ⟨w', n, hw', hn'⟩
      obtain rfl := Option.some.inj (hw.symm.trans hw')
      rw [hn] at hn'
      cases hn'
    · obtain ⟨-, tail, hrest, he⟩ := Token.exists_of_word? hw
      rw [Token.endsBefore, ← endsWord_eq] at he
      exact attempt_layout n none s (s.past w) r (h.reads (of_spelledName hn) hrest he)

end Rule

end Michelson
