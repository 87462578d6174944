import Michelson.Proofs.Placement

/-!
# Runs on one text

Two runs that begin at one place of one text read the same characters, so they
stay at one place. What may differ is what the rules know besides: the calls that
are left, the limit on nesting, the memory of earlier misses. A setting in which
all of this makes no difference to tokens is one of `SameText`.

* `SameText.placement` turns such a setting into a placement. The places may be
  restricted to those that lexemes lead to.
* `SameText.congruence` says that the whole grammar keeps step in it.
-/

namespace Michelson

open Rule

/-! ## Steps from lexeme to lexeme -/

/-- One lexeme leads from a cursor to another. -/
def Cursor.Steps (c c' : Cursor) : Prop :=
  ∃ l : Lexeme, c.Passes l.text c' ∧ l.Fits c'.rest

/-- Every lexeme has a character at least. -/
theorem Cursor.Steps.length_lt {c c' : Cursor} (h : c.Steps c') :
    c'.rest.length < c.rest.length := by
  obtain ⟨l, hpass, hfit⟩ := h
  rw [hpass.1, List.length_append]
  have := List.length_pos_iff.mpr (Lexeme.text_ne_nil hfit.isValid)
  omega

/-- Passing a token and the layout behind it is a step. -/
theorem Token.steps {t : Token} {tail : List Char} {c c' : Cursor} (hc : c.rest = t.text ++ tail)
    (hv : t.isValid = true) (he : t.endsBefore tail.head? = true)
    (hs : Layout.scan .plain (c.skip t.text.length).rest (c.skip t.text.length).position = .ok c') :
    c.Steps c' := by
  have hpass := Cursor.passes_skip hc
  obtain ⟨gap, hgap, hpos, hfill⟩ := Layout.fills_of_scan hs
  rw [Cursor.rest_skip hc] at hgap
  refine ⟨⟨t, gap⟩, hpass.trans ⟨?_, hpos⟩, hv, ?_, hfill⟩
  · rw [Cursor.rest_skip hc, hgap]
  · rwa [← hgap]

/-! ## Settings of one text -/

/-- A setting in which runs that begin at one place do the same with tokens. -/
structure SameText (S : Setting) : Prop where
  placed (c : Cursor) : S.placed c c
  expect {s s' : State} (what : Expectation) : s.cursor = s'.cursor → S.memory s s' →
    S.memory (s.expect what) (s'.expect what)
  log {s s' : State} (e : Event) : S.memory s s' → S.memory (s.log e) (s'.log e)
  raised {s s' : State} (e : Error) : s.cursor = s'.cursor → S.memory s s' →
    S.halts (.error e) (s.log (.raised e)) (.error e) (s'.log (.raised e))
  nested {α β : Type} {V : α → β → Prop} {pre : Cursor → Cursor → Prop} {r : Rule α}
    {r' : Rule β} : (∀ c c', pre c c' → c = c') → Sim S pre pre V r r' →
      Sim S pre pre V (nested r) (nested r')

/-- The places of one text, where less than `n` characters are left. -/
def SamePlace (J : Cursor → Prop) (n : Nat) (c c' : Cursor) : Prop :=
  c = c' ∧ J c ∧ c.rest.length < n

namespace SamePlace

variable {J : Cursor → Prop} {n m : Nat} {c c' : Cursor}

/-- A larger bound says less. -/
theorem weaken (h : SamePlace J n c c') (hnm : n ≤ m) : SamePlace J m c c' :=
  ⟨h.1, h.2.1, h.2.2.trans_le hnm⟩

/-- A lexeme leaves less text, so the bound may be lowered. -/
theorem step (hJ : ∀ c c', J c → c.Steps c' → J c') (h : SamePlace J n c c) (hs : c.Steps c') :
    SamePlace J (n - 1) c' c' := by
  refine ⟨rfl, hJ _ _ h.2.1 hs, ?_⟩
  have := hs.length_lt
  have := h.2.2
  omega

end SamePlace

namespace SameText

/-- Both runs stand at the cursor. -/
def Both (c : Cursor) (c₁ c₂ : Cursor) : Prop := c₁ = c ∧ c₂ = c

variable {S : Setting} (T : SameText S) {J : Cursor → Prop} {n : Nat}

include T

/-- Both runs pass the same layout, or find the same comment that is not closed. -/
theorem layout (c : Cursor) :
    Sim S (Both c) (fun c₁ c₂ => c₁ = c₂ ∧ Layout.scan .plain c.rest c.position = .ok c₁) Eq
      layout layout := by
  rintro s s' ⟨hs, hs'⟩ hmem
  rw [layout_run, layout_run, hs, hs']
  cases hc : Layout.scan .plain c.rest c.position with
  | ok c₁ => exact ⟨rfl, ⟨rfl, rfl⟩, S.moved (T.placed c₁) hmem⟩
  | error start => exact .inr (.inr (T.raised _ (hs.trans hs'.symm) hmem))

/-- Both runs pass the same characters and the same layout. -/
theorem token (c : Cursor) (length : Nat) :
    Sim S (Both c) (fun c₁ c₂ => c₁ = c₂ ∧
        Layout.scan .plain (c.skip length).rest (c.skip length).position = .ok c₁) Eq
      (token length) (token length) := by
  have hadvance : Sim S (Both c) (Both (c.skip length)) Eq (advance length) (advance length) := by
    refine Sim.advance ?_
    rintro _ _ ⟨rfl, rfl⟩
    exact ⟨⟨rfl, rfl⟩, T.placed _⟩
  exact hadvance.bind fun _ _ _ => T.layout _

/-- What acts on an answer that takes no token keeps step. -/
theorem act {α : Type} {answer : Answer α} (h : ∀ length a, answer ≠ .taken length a)
    (post : Cursor → Cursor → Prop) (c : Cursor) :
    Sim S (Both c) post Eq answer.act answer.act := by
  have hfail (c : Cursor) (what : Expectation) :
      Sim S (Both c) post Eq (fail (α := α) what) (fail what) :=
    fun _ _ hpre hmem => T.expect what (hpre.1.trans hpre.2.symm) hmem
  cases answer with
  | taken length a => exact absurd rfl (h length a)
  | missed => exact .miss
  | refused skip what =>
    rw [Answer.act]
    refine Sim.attempt ?_ ?_
    · rintro _ _ ⟨rfl, rfl⟩
      exact T.placed _
    · have hadvance : Sim S (Both c) (Both (c.skip skip)) Eq (advance skip) (advance skip) := by
        refine Sim.advance ?_
        rintro _ _ ⟨rfl, rfl⟩
        exact ⟨⟨rfl, rfl⟩, T.placed _⟩
      exact hadvance.bind fun _ _ _ => hfail _ what
  | returned length what =>
    rw [Answer.act]
    refine Sim.cursor.bind ?_
    rintro c₁ c₂ ⟨hc₁, hc₂⟩
    rw [hc₁, hc₂]
    refine (T.token _ length).bind fun _ _ _ => ?_
    -- the token is given back, and both runs are where they began
    have hback (pre : Cursor → Cursor → Prop) : Sim S pre (Both c) Eq (moveTo c) (moveTo c) :=
      .moveTo ⟨rfl, rfl⟩ (T.placed c)
    exact (hback _).bind fun _ _ _ => hfail _ what
  | stopped e =>
    intro s s' hpre hmem
    have hcursor := hpre.1.trans hpre.2.symm
    change S.Alike post Eq (raise (e s.cursor.position) S.limit s)
      (raise (e s'.cursor.position) S.limit' s')
    rw [hcursor]
    exact .inr (.inr (T.raised _ hcursor hmem))

/-- Lexical rules keep step on one text. -/
theorem lexical {α : Type} {look : List Char → Answer α} {table : Option Token → Reading α}
    (hJ : ∀ c c', J c → c.Steps c' → J c') (h : Lexical look table) :
    Sim S (SamePlace J n) (SamePlace J (n - 1)) Eq (lexical look) (lexical look) := by
  intro s s' hpre hmem
  obtain ⟨hcursor, hJs, hlen⟩ := hpre
  have hboth : Both s.cursor s.cursor s'.cursor := ⟨rfl, hcursor.symm⟩
  rw [lexical_run, lexical_run, ← hcursor]
  by_cases htaken : ∃ length a, look s.cursor.rest = .taken length a
  · obtain ⟨length, a, hl⟩ := htaken
    obtain ⟨t, tail, hrest, rfl, hv, he⟩ := h.sound hl
    rw [hl]
    refine ((T.token s.cursor _).weaken (fun _ _ h => h) ?_ fun _ _ h => h).bind
      (fun _ _ _ => .pure rfl) s s' hboth hmem
    rintro c _ ⟨rfl, hscan⟩
    exact SamePlace.step hJ ⟨rfl, hJs, hlen⟩ (Token.steps hrest hv he hscan)
  · exact T.act (fun length a hl => htaken ⟨length, a, hl⟩) _ _ s s' hboth hmem

/-- The places of one text that lexemes lead to. -/
theorem placement (hJ : ∀ c c', J c → c.Steps c' → J c') :
    Placement S fun _ n => SamePlace J n where
  placed := by
    rintro _ _ c _ ⟨rfl, -⟩
    exact T.placed c
  positive h := (Nat.zero_le _).trans_lt h.2.2
  weaken h hnm := h.weaken hnm
  opens := by
    rintro _ _ _ _ ⟨rfl, -⟩
    exact Iff.rfl
  offsets := by
    rintro _ _ _ _ _ _ _ ⟨rfl, -⟩ ⟨rfl, -⟩
    exact Iff.rfl
  nested := T.nested fun _ _ h => h.1
  lexical h _ := T.lexical hJ h
  bounded := by
    rintro _ n c _ ⟨rfl, hc, hlen⟩
    exact ⟨c.rest.length + 1, hlen, le_rfl, le_rfl, rfl, hc, Nat.lt_succ_self _⟩
  expect what h hmem := T.expect what h.1 hmem
  log := by
    rintro _ _ _ _ _ _ e ⟨rfl, -⟩ hmem
    exact T.log _ hmem
  plain h _ := T.lexical hJ h
  bytes := T.lexical hJ lexical_bytes
  opening := by
    rw [symbol_eq]
    exact T.lexical hJ (lexical_symbol (by decide))
  closing _ := by
    rw [symbol_eq]
    exact T.lexical hJ (lexical_symbol (by decide))

/-! ## Names of macros -/

/-- The places inside a word. -/
abbrev Within : Nat → Cursor → Cursor → Prop := SamePlace fun _ => True

omit T in
/-- Skipping leaves no more text than there was. -/
theorem within_skip {c c' : Cursor} (h : Within n c c') (k : Nat) :
    Within n (c.skip k) (c'.skip k) := by
  obtain ⟨rfl, -, hlen⟩ := h
  refine ⟨rfl, trivial, ?_⟩
  rw [Cursor.skip_eq, List.length_drop]
  omega

/-- Both runs skip the same characters. -/
theorem advance (k : Nat) : Sim S (Within n) (Within n) Eq (advance k) (advance k) := by
  refine Sim.advance fun c c' h => ⟨within_skip h k, ?_⟩
  obtain ⟨rfl, -⟩ := h
  exact T.placed _

omit T in
/-- Both runs see the same rest of the text. -/
theorem rest_bind {α β : Type} {V : α → β → Prop} {post : Cursor → Cursor → Prop}
    {k : List Char → Rule α} {k' : List Char → Rule β}
    (h : ∀ cs, Sim S (Within n) post V (k cs) (k' cs)) :
    Sim S (Within n) post V (rest >>= k) (rest >>= k') := by
  intro s s' hpre hmem
  have hrun := h s.cursor.rest s s' hpre hmem
  rw [Rule.rest_bind, Rule.rest_bind, ← hpre.1]
  exact hrun

omit T in
theorem peek?_bind {α β : Type} {V : α → β → Prop} {post : Cursor → Cursor → Prop}
    {k : Option Char → Rule α} {k' : Option Char → Rule β}
    (h : ∀ c?, Sim S (Within n) post V (k c?) (k' c?)) :
    Sim S (Within n) post V (peek? >>= k) (peek? >>= k') := by
  intro s s' hpre hmem
  have hrun := h s.cursor.rest.head? s s' hpre hmem
  rw [Rule.peek?_bind, Rule.peek?_bind, ← hpre.1]
  exact hrun

/-- Both runs pass the letters or neither does. -/
theorem letters (text : String) :
    Sim S (Within n) (Within n) Eq (Grammar.letters text) (Grammar.letters text) := by
  refine rest_bind fun cs => ?_
  split
  · exact T.advance _
  · exact .miss

/-- The letter of a pair leaves less text. -/
theorem letterP :
    Sim S (Within n) (Within (n - 1)) Eq (Grammar.letters "P") (Grammar.letters "P") := by
  intro s s' hpre hmem
  obtain ⟨hcursor, -, hlen⟩ := hpre
  rw [Grammar.letters, Rule.rest_bind, Rule.rest_bind, ← hcursor]
  by_cases hp : Grammar.startsWith "P" s.cursor.rest = true
  · rw [if_pos hp]
    obtain ⟨tail, htail⟩ := List.isPrefixOf_iff_prefix.mp hp
    have hskip : (s.cursor.skip 1).rest = tail := Cursor.rest_skip (w := ['P']) htail.symm
    refine ⟨rfl, ⟨congrArg (Cursor.skip 1) hcursor, trivial, ?_⟩, S.moved ?_ hmem⟩
    · change (s.cursor.skip 1).rest.length < n - 1
      rw [← htail] at hlen
      rw [hskip]
      simp only [List.length_append] at hlen
      change 1 + _ < n at hlen
      omega
    · rw [← hcursor]
      exact T.placed _
  · rw [if_neg hp]
    exact hmem

/-- Layout leaves no more text than there was. -/
theorem layoutWithin : Sim S (Within n) (Within n) Eq Rule.layout Rule.layout := by
  intro s s' hpre hmem
  refine (T.layout s.cursor).weaken (fun _ _ h => h) ?_ (fun _ _ h => h) s s'
    ⟨rfl, hpre.1.symm⟩ hmem
  rintro c _ ⟨rfl, hscan⟩
  obtain ⟨gap, hgap, -⟩ := Layout.fills_of_scan hscan
  have hlen := hpre.2.2
  rw [hgap, List.length_append] at hlen
  exact ⟨rfl, trivial, by omega⟩

/-- Both runs are at the end of the word or neither is. -/
theorem nameEnd : Sim S (Within n) (Within n) Eq Grammar.nameEnd Grammar.nameEnd := by
  refine rest_bind fun cs => ?_
  split
  · exact T.layoutWithin
  · exact .miss

theorem choice {α : Type} (name : α → String) (as : List α) :
    Sim S (Within n) (Within n) Eq (Grammar.choice name as) (Grammar.choice name as) := by
  induction as with
  | nil => exact .miss
  | cons a as ih =>
    refine rest_bind fun cs => ?_
    split
    · exact (T.advance _).bind fun _ _ _ => .pure rfl
    · exact ih

theorem comparisonName (text : String) (name : Comparison → MacroName) :
    Sim S (Within n) (Within n) Eq (Grammar.comparisonName text name)
      (Grammar.comparisonName text name) := by
  refine (T.letters text).bind fun _ _ _ => (T.choice _ _).bind fun c c' hc => ?_
  subst hc
  exact T.nameEnd.bind fun _ _ _ => .pure rfl

theorem plainName (text : String) (name : MacroName) :
    Sim S (Within n) (Within n) Eq (Grammar.plainName text name) (Grammar.plainName text name) :=
  (T.letters text).bind fun _ _ _ => T.nameEnd.bind fun _ _ _ => .pure rfl

theorem assertedName :
    Sim S (Within n) (Within n) Eq Grammar.assertedName Grammar.assertedName := by
  refine (T.letters _).bind fun _ _ _ => (T.choice _ _).bind fun c c' hc => ?_
  subst hc
  exact T.nameEnd.bind fun _ _ _ => .pure rfl

theorem depthName (letter : Char) (name : UInt32 → MacroName) :
    Sim S (Within n) (Within n) Eq (Grammar.depthName letter name)
      (Grammar.depthName letter name) := by
  refine (T.letters _).bind fun _ _ _ => rest_bind fun cs => (T.advance _).bind fun _ _ _ => ?_
  dsimp only
  split
  · exact .miss
  · exact (T.letters _).bind fun _ _ _ => T.nameEnd.bind fun _ _ _ => .pure rfl

theorem pathName (text : String) (least : Nat) (name : List Side → MacroName) :
    Sim S (Within n) (Within n) Eq (Grammar.pathName text least name)
      (Grammar.pathName text least name) := by
  refine (T.letters _).bind fun _ _ _ => rest_bind fun cs => (T.advance _).bind fun _ _ _ => ?_
  split
  · exact .miss
  · exact (T.letters _).bind fun _ _ _ => T.nameEnd.bind fun _ _ _ => .pure rfl

/-- Rules for pair trees that keep step inside of words. -/
def KeepsTrees (S : Setting) (n : Nat) (r r' : Rule PairTree) : Prop :=
  ∀ m ≤ n, Sim S (Within m) (Within m) Eq r r'

variable {g g' : Grammar.Knot}

/-- Names with trees keep step if the rules for pair trees do. -/
theorem treeName (h : Sim S (Within n) (Within n) Eq g.pairTree g'.pairTree) (text : String)
    (name : PairTree → MacroName) :
    Sim S (Within n) (Within n) Eq (Grammar.treeName g text name)
      (Grammar.treeName g' text name) := by
  refine (T.letters text).bind fun _ _ _ => h.bind fun t t' ht => ?_
  subst ht
  exact (T.letters _).bind fun _ _ _ => T.nameEnd.bind fun _ _ _ => .pure rfl

/-- All readings of names keep step, one by one. -/
theorem macroNames (h : KeepsTrees S n g.pairTree g'.pairTree) :
    List.Forall₂ (TypePlacement.Keeps S (fun _ n => Within n) n Eq) (Grammar.macroNames g)
      (Grammar.macroNames g') := by
  have hcomparison (text : String) (name : Comparison → MacroName) :
      TypePlacement.Keeps S (fun _ n => Within n) n Eq (Grammar.comparisonName text name)
        (Grammar.comparisonName text name) := fun _ _ _ _ => T.comparisonName text name
  have hplain (text : String) (name : MacroName) :
      TypePlacement.Keeps S (fun _ n => Within n) n Eq (Grammar.plainName text name)
        (Grammar.plainName text name) := fun _ _ _ _ => T.plainName text name
  have hdepth (letter : Char) (name : UInt32 → MacroName) :
      TypePlacement.Keeps S (fun _ n => Within n) n Eq (Grammar.depthName letter name)
        (Grammar.depthName letter name) := fun _ _ _ _ => T.depthName letter name
  have htree (text : String) (name : PairTree → MacroName) :
      TypePlacement.Keeps S (fun _ n => Within n) n Eq (Grammar.treeName g text name)
        (Grammar.treeName g' text name) := fun _ m _ hm => T.treeName (h m hm) text name
  have hpath (text : String) (least : Nat) (name : List Side → MacroName) :
      TypePlacement.Keeps S (fun _ n => Within n) n Eq (Grammar.pathName text least name)
        (Grammar.pathName text least name) := fun _ _ _ _ => T.pathName text least name
  exact .cons (hcomparison _ _) <| .cons (hplain _ _) <| .cons (hcomparison _ _) <|
    .cons (hcomparison _ _) <| .cons (hplain _ _) <| .cons (hcomparison _ _) <|
    .cons (fun _ _ _ _ => T.assertedName) <| .cons (hcomparison _ _) <| .cons (hplain _ _) <|
    .cons (hdepth _ _) <| .cons (hdepth _ _) <| .cons (htree _ _) <| .cons (htree _ _) <|
    .cons (hpath _ _ _) <| .cons (hpath _ _ _) <| .cons (hpath _ _ _) .nil

/-- The letter of a pair stands in front of both sides, so these may be a degree lower. -/
theorem pairTreeRule (h : KeepsTrees S (n - 1) g.pairTree g'.pairTree) :
    KeepsTrees S n (Grammar.pairTreeRule g) (Grammar.pairTreeRule g') := by
  intro m hm
  have htree := h (m - 1) (Nat.sub_le_sub_right hm 1)
  have hleft : Sim S (Within (m - 1)) (Within (m - 1)) Eq (Grammar.leftTree g)
      (Grammar.leftTree g') := by
    refine peek?_bind fun c? => ?_
    split
    · exact (T.advance 1).bind fun _ _ _ => .pure rfl
    · exact htree
  have hright : Sim S (Within (m - 1)) (Within (m - 1)) Eq (Grammar.rightTree g)
      (Grammar.rightTree g') := by
    refine peek?_bind fun c? => ?_
    split
    · exact (T.advance 1).bind fun _ _ _ => .pure rfl
    · exact htree
  refine T.nested (fun _ _ h => h.1) ?_
  refine T.letterP.bind fun _ _ _ => hleft.bind fun l l' hl => ?_
  subst hl
  have hright' := hright.weaken (fun _ _ h => h)
    (fun _ _ h => SamePlace.weaken h (Nat.sub_le m 1)) fun _ _ h => h
  refine hright'.bind fun r r' hr => ?_
  subst hr
  exact .pure rfl

/-- **The grammar keeps step on one text.** -/
theorem congruence : Grammar.Congruence (TypePlacement.Keeps S fun _ n => Within n)
    (TypePlacement.Passes S fun _ n => Within n) (KeepsTrees S) :=
  (T.placement fun _ _ _ _ => trivial).congruence
    T.macroNames
    T.pairTreeRule

/-- All knots are related in the least degree. -/
theorem related_zero (g g' : Grammar.Knot) :
    Grammar.Knot.Related (TypePlacement.Keeps S fun _ n => Within n) (KeepsTrees S) 0 g g' :=
  have A := (T.placement fun _ _ _ _ => trivial).toTypePlacement
  { type _ := A.keeps_zero
    comparable := A.keeps_zero
    value := A.keeps_zero
    block := A.keeps_zero
    pairTree m hm := A.keeps_zero 1 m le_rfl hm }

/-- A whole text is read in step by rules that keep step. -/
theorem whole {α : Type} {r r' : Rule α}
    (h : TypePlacement.Keeps S (fun _ n => Within n) n Eq r r') :
    Sim S (Within n) (Within n) Eq (Grammar.whole r) (Grammar.whole r') := by
  refine T.layoutWithin.bind fun _ _ _ => (h 1 n le_rfl le_rfl).bind fun a b hab => ?_
  have hend : Sim S (Within n) (Within n) Eq endOfInput endOfInput := by
    refine peek?_bind fun c? => ?_
    cases c? with
    | none => exact .pure rfl
    | some c => exact fun _ _ hpre hmem => T.expect _ hpre.1 hmem
  exact hend.bind fun _ _ _ => .pure hab

end SameText

end Michelson
