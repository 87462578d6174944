import Michelson.Nesting
import Michelson.Proofs.Frames
import Michelson.Proofs.WellFormed

/-!
# A limit on nesting bounds what is read

Under a limit a rule has some room: the levels that are left between its own and the
limit. Each rule that nests uses up one level and leaves it again, however it ends. So
what is read with some room nests no deeper than there is room, rule by rule; the rules
that do not nest read what takes no room.

One thing takes room without being seen in the tree. The name of a projection is tried
as the name of a pair tree first, and without room the attempt is not made but halts the
run. So these names need a level of their own.

* `Rule.Reads` is the judgement about a rule and its room.
* `Knot.Bounded` is what the rules of a knot read, and `Knot.bounded_tied` says that it
  holds whatever number of calls is left.
* `parseWithin_bounded` is the statement about contracts, for all ways to count.
* `nesting_le_limit` is the one about the nesting.
-/

namespace Michelson

open Rule

namespace Rule

variable {α β σ : Type}

/-! ## What is read with some room -/

/-- With that much room under the limit the rule reads only what satisfies `post`, and it
ends on the level on which it began. -/
def Reads (room : Nat) (post : α → Prop) (r : Rule α) : Prop :=
  ∀ l s, s.depth + room = l → (r (some l) s).state.depth = s.depth ∧
    ∀ a, (r (some l) s).verdict = .ok a → post a

/-- What a rule returns at all, it reads with any room. -/
theorem reads_of_level {r : Rule α} (h : KeepsLevel r) (room : Nat) : Reads room r.Returns r := by
  intro l s _
  refine ⟨h (some l) s, fun a ha => ⟨some l, s, (r (some l) s).state, ?_⟩⟩
  rw [← ha]

namespace Reads

variable {room : Nat} {P : α → Prop} {Q : β → Prop} {r : Rule α}

theorem mono (h : Reads room P r) {P' : α → Prop} (hp : ∀ a, P a → P' a) : Reads room P' r :=
  fun l s hs => ⟨(h l s hs).1, fun a ha => hp a ((h l s hs).2 a ha)⟩

theorem pure {a : α} (h : P a) : Reads room P (pure a) := by
  refine fun l s _ => ⟨rfl, fun b hb => ?_⟩
  cases hb
  exact h

/-- The next rule has the same room. -/
theorem bind {k : α → Rule β} (h : Reads room P r) (hk : ∀ a, P a → Reads room Q (k a)) :
    Reads room Q (r >>= k) := by
  intro l s hs
  obtain ⟨hlevel, hread⟩ := h l s hs
  rcases hrun : r (some l) s with ⟨a | _ | stop, t⟩ <;> rw [hrun] at hlevel hread
  · have ht : t.depth = s.depth := hlevel
    obtain ⟨hlevel', hread'⟩ := hk a (hread a rfl) l t (by omega)
    rw [bind_ok hrun]
    exact ⟨hlevel'.trans ht, hread'⟩
  · rw [bind_miss hrun]
    exact ⟨hlevel, fun _ h => nomatch h⟩
  · rw [bind_halt hrun]
    exact ⟨hlevel, fun _ h => nomatch h⟩

/-- A rule of which only the level matters. -/
theorem next {k : α → Rule β} (h : KeepsLevel r) (hk : ∀ a, Reads room Q (k a)) :
    Reads room Q (r >>= k) :=
  (reads_of_level h room).bind fun a _ => hk a

/-- A rule that reads nothing is not held to anything. -/
theorem of_never (h : KeepsLevel r) (hnever : ∀ a, ¬r.Returns a) : Reads room P r :=
  (reads_of_level h room).mono fun a ha => absurd ha (hnever a)

theorem fail (what : Expectation) : Reads room P (fail what) :=
  of_never (keepsLevel_fail what) fun _ ⟨_, _, _, h⟩ => nomatch h

theorem miss : Reads room P Rule.miss :=
  of_never handedDown_keepsLevel.miss fun _ ⟨_, _, _, h⟩ => nomatch h

/-- What is optional is held to what its rule is, if it is there. -/
theorem optional (h : Reads room P r) : Reads room (fun a? => ∀ a ∈ a?, P a) (optional r) := by
  intro l s hs
  obtain ⟨hlevel, hread⟩ := h l s hs
  rw [Rule.optional]
  rcases hrun : r (some l) s with ⟨a | _ | stop, t⟩ <;> rw [hrun] at hlevel hread
  · refine ⟨hlevel, fun a? ha => ?_⟩
    cases ha
    exact fun b hb => hread b (congrArg Verdict.ok (Option.mem_some.mp hb))
  · refine ⟨hlevel, fun a? ha => ?_⟩
    cases ha
    rintro _ ⟨⟩
  · exact ⟨hlevel, by rintro _ ⟨⟩⟩

/-- An attempt gives back the cursor, and no levels. -/
theorem attempt (h : Reads room P r) : Reads room P (attempt r) := by
  intro l s hs
  obtain ⟨hlevel, hread⟩ := h l s hs
  rw [Rule.attempt]
  rcases hrun : r (some l) s with ⟨a | _ | stop, t⟩ <;> rw [hrun] at hlevel hread
  · exact ⟨hlevel, hread⟩
  · exact ⟨hlevel, by rintro _ ⟨⟩⟩
  · exact ⟨hlevel, hread⟩

/-- **One level.** A rule that nests has room for its parts that is less by one, and
without room it reads nothing. -/
theorem nested (h : ∀ m, room = m + 1 → Reads m P r) : Reads room P (nested r) := by
  rintro _ s rfl
  rw [nested_some]
  cases room with
  | zero =>
    rw [if_pos (by omega : s.depth ≥ s.depth + 0)]
    exact ⟨rfl, fun _ h => nomatch h⟩
  | succ m =>
    obtain ⟨hlevel, hread⟩ := h m rfl (s.depth + (m + 1)) { s with depth := s.depth + 1 }
      (Nat.add_right_comm s.depth 1 m)
    rw [if_neg (by omega)]
    exact ⟨congrArg (· - 1) hlevel, hread⟩

/-- Each alternative has the room that all of them have. -/
theorem firstOf {last : Rule α} (hlast : Reads room P last) {rs : List (Rule α)}
    (h : ∀ r ∈ rs, Reads room P r) : Reads room P (firstOf last rs) := by
  induction rs with
  | nil => exact hlast
  | cons r rs ih =>
    refine (h r List.mem_cons_self).optional.bind fun a? ha => ?_
    cases a? with
    | some a => exact pure (ha a rfl)
    | none => exact ih fun q hq => h q (List.mem_cons_of_mem r hq)

/-- Where the rule cannot miss for the limit, something is read or the run stops. -/
theorem optional_of_noMiss (h : Reads room P r)
    (hmiss : ∀ l s, s.depth + room = l → (r (some l) s).verdict ≠ .miss) :
    Reads room (fun a? => ∃ a, a? = some a ∧ P a) (Rule.optional r) := by
  intro l s hs
  obtain ⟨hlevel, hread⟩ := h l s hs
  have hne := hmiss l s hs
  rw [Rule.optional]
  rcases hrun : r (some l) s with ⟨a | _ | stop, t⟩ <;> rw [hrun] at hlevel hread hne
  · refine ⟨hlevel, fun a? ha => ?_⟩
    cases ha
    exact ⟨a, rfl, hread a rfl⟩
  · exact absurd rfl hne
  · exact ⟨hlevel, by rintro _ ⟨⟩⟩

/-- Alternatives behind one that does not miss with this room are not tried. -/
theorem firstOf_of_noMiss {last : Rule α} {as bs : List (Rule α)} (has : ∀ q ∈ as, Reads room P q)
    (h : Reads room P r) (hmiss : ∀ l s, s.depth + room = l → (r (some l) s).verdict ≠ .miss) :
    Reads room P (Rule.firstOf last (as ++ r :: bs)) := by
  induction as with
  | nil =>
    refine (h.optional_of_noMiss hmiss).bind fun a? ha => ?_
    obtain ⟨a, rfl, ha⟩ := ha
    exact pure ha
  | cons q as ih =>
    obtain ⟨hq, has⟩ := List.forall_mem_cons.mp has
    refine hq.optional.bind fun a? ha => ?_
    cases a? with
    | some a => exact pure (ha a rfl)
    | none => exact ih has

/-! ### Shapes of rules -/

theorem recording {e : Position → α → Event} (he : ∀ p a, (e p a).isMark) (h : Reads room P r) :
    Reads room P (recording e r) :=
  next handedDown_keepsLevel.position fun p => h.bind fun a ha =>
    next (handedDown_keepsLevel.mark (he p a)) fun _ => pure ha

theorem unlessOpen {q : Rule α} (h : Reads room P r) (hq : Reads room P q) :
    Reads room P (unlessOpen r q) := by
  refine next handedDown_keepsLevel.peek? fun c? => ?_
  split
  · exact h
  · exact hq

/-- Parentheses take no room themselves. -/
theorem parenthesized (h : Reads room P r) : Reads room P (parenthesized r) :=
  next (handedDown_keepsLevel.symbol rfl) fun _ => h.bind fun _ ha =>
    next (handedDown_keepsLevel.symbol rfl) fun _ => pure ha

theorem enclosed (h : Reads room P r) : Reads room P (enclosed r) :=
  next (handedDown_keepsLevel.symbol rfl) fun _ => h.bind fun _ ha =>
    next (handedDown_keepsLevel.symbol rfl) fun _ => pure ha

theorem bracedItems (h : Reads room P r) (bound : Nat) :
    Reads room (fun as => ∀ a ∈ as, P a) (bracedItems r bound) := by
  have H := handedDown_keepsLevel
  -- all items have the same room
  induction bound with
  | zero => exact of_never H.exhausted fun _ ⟨_, _, _, h⟩ => nomatch h
  | succ bound ih =>
    refine h.bind fun a ha => next (H.optional (H.symbol rfl)) fun semicolon? => ?_
    have hone : ∀ b ∈ [a], P b := by simpa using ha
    cases semicolon? with
    | none => exact next (H.symbol rfl) fun _ => pure hone
    | some _ =>
      refine next (H.optional (H.symbol rfl)) fun brace? => ?_
      cases brace? with
      | some _ => exact pure hone
      | none => exact ih.bind fun more hmore => pure (List.forall_mem_cons.mpr ⟨ha, hmore⟩)

theorem braced (h : Reads room P r) : Reads room (fun as => ∀ a ∈ as, P a) (braced r) := by
  have H := handedDown_keepsLevel
  refine attempt (next (H.symbol rfl) fun _ => next (H.optional (H.symbol rfl)) fun brace? => ?_)
  cases brace? with
  | some _ => exact pure fun _ ha => nomatch ha
  | none => exact next H.rest fun _ => h.bracedItems _

/-! ### Groups -/

/-- What a member puts in is held to what its rule is. -/
theorem slot (h : Reads room P r) (put : α → σ → σ) :
    Reads room (fun u => ∃ a, P a ∧ u = put a) (slot r put) :=
  h.bind fun a ha => pure ⟨a, ha, rfl⟩

theorem advancing (h : Reads room P r) : Reads room (fun a? => ∀ a ∈ a?, P a) (advancing r) := by
  have H := handedDown_keepsLevel
  have hnone : ∀ a ∈ (none : Option α), P a := fun _ ha => nomatch ha
  refine next H.cursor fun before => h.optional.bind fun a? ha => ?_
  cases a? with
  | none => exact pure hnone
  | some a =>
    refine next H.cursor fun after => ?_
    split
    · exact pure ha
    · exact next (keepsLevel_moveTo before) fun _ => pure hnone

/-- The members that are left can be read with the same room. -/
theorem firstAdvancing {rs : List (Rule α)} (h : ∀ r ∈ rs, Reads room P r) :
    Reads room (fun found? => ∀ found ∈ found?, P found.1 ∧ ∀ r ∈ found.2, Reads room P r)
      (firstAdvancing rs) := by
  induction rs with
  | nil => exact pure fun _ hfound => nomatch hfound
  | cons r rs ih =>
    obtain ⟨hr, hrs⟩ := List.forall_mem_cons.mp h
    refine hr.advancing.bind fun a? ha => ?_
    cases a? with
    | some a =>
      refine pure fun found hfound => ?_
      cases hfound
      exact ⟨ha a rfl, hrs⟩
    | none =>
      refine (ih hrs).bind fun found? hfound => ?_
      cases found? with
      | none => exact pure fun _ hnone => nomatch hnone
      | some found =>
        obtain ⟨hread, hleft⟩ := hfound found rfl
        refine pure fun found' hfound' => ?_
        cases hfound'
        exact ⟨hread, List.forall_mem_cons.mpr ⟨hr, hleft⟩⟩

/-- What all members keep, the group keeps. -/
theorem group {I : σ → Prop} {rs : List (Rule (σ → σ))}
    (h : ∀ r ∈ rs, Reads room (fun u => ∀ x, I x → I (u x)) r) {absent : σ} (ha : I absent) :
    Reads room I (group rs absent) := by
  have hwithin (rounds : Nat) {rs : List (Rule (σ → σ))}
      (h : ∀ r ∈ rs, Reads room (fun u => ∀ x, I x → I (u x)) r) (x : σ) (hx : I x) :
      Reads room I (groupWithin rounds rs x) := by
    induction rounds generalizing rs x with
    | zero => exact pure hx
    | succ rounds ih =>
      refine (firstAdvancing h).bind fun found? hfound => ?_
      cases found? with
      | none => exact pure hx
      | some found =>
        obtain ⟨hupdate, hleft⟩ := hfound found rfl
        exact ih hleft _ (hupdate x hx)
  exact hwithin _ h absent ha

end Reads

end Rule

/-! ## Lists of parts -/

section Levels

variable {path room : Nat}

/-- The levels of items are the largest of their levels. -/
theorem itemLevels_le {ds : List Data} :
    itemLevels path ds ≤ room ↔ ∀ d ∈ ds, d.levels path ≤ room := by
  induction ds with
  | nil => simp [itemLevels]
  | cons d ds ih => simp [itemLevels, ih]

theorem entryLevels_le {es : List Entry} :
    entryLevels path es ≤ room ↔ ∀ e ∈ es, e.levels path ≤ room := by
  induction es with
  | nil => simp [entryLevels]
  | cons e es ih => simp [entryLevels, ih]

theorem stepLevels_le {os : List Op} :
    stepLevels path os ≤ room ↔ ∀ o ∈ os, o.levels path ≤ room := by
  induction os with
  | nil => simp [stepLevels]
  | cons o os ih => simp [stepLevels, ih]

end Levels

/-- Notes that are handed out to the leaves leave the tree as high as it is. -/
theorem PairTree.height_assign (t : PairTree) (notes : List (Note .var × Note .field)) :
    (t.assign notes).1.height = t.height := by
  fun_induction assign t notes with
  | case1 | case2 => rfl
  | case3 l r notes l' rest hl r' rest' hr ihl ihr =>
    rw [hl] at ihl
    rw [hr] at ihr
    simp only [height]
    rw [ihl, ihr]

/-- Notes on the leaves leave a tree its height. -/
@[simp]
theorem PairTree.height_withLeafNotes (t : PairTree) (notes : List (Note .var × Note .field)) :
    (t.withLeafNotes notes).height = t.height := t.height_assign notes

/-- The levels of the name of a macro: the height of its pair tree, or what a path takes. -/
def MacroName.levels (path : Nat) : MacroName → Nat
  | pairUp shape => shape.height
  | unpair shape => shape.height
  | getPath _ => path
  | setPath _ => path
  | mapPath _ => path
  | _ => 0

/-! ## The grammar -/

namespace Grammar

/-- What the rules of the knot read with some room. The rule for the letters of a pair tree
does not even miss without room. -/
structure Knot.Within (path room : Nat) (g : Knot) : Prop where
  type (withField : Bool) : Reads room (fun t => t.2.nesting ≤ room) (g.type withField)
  comparable : Reads room (fun _ => 1 ≤ room) g.comparable
  value : Reads room (fun d => d.levels path ≤ room) g.value
  block : Reads room (fun b => Block.levels path b ≤ room) g.block
  pairTree : Reads room (fun t => t.height ≤ room ∧ 1 ≤ room) g.pairTree
  noMiss : room = 0 → ∀ l s, s.depth = l → (g.pairTree (some l) s).verdict ≠ .miss

/-- What the rules of the knot read nests no deeper than there is room. -/
def Knot.Bounded (path : Nat) (g : Knot) : Prop := ∀ room, g.Within path room

namespace Knot.Within

variable {path room : Nat} {g : Knot} (h : g.Within path room)

include h

theorem plainType : Reads room (fun t => t.nesting ≤ room) g.plainType :=
  (h.type false).bind fun _ ht => .pure ht

/-- The components nest in the type, which takes one level itself. -/
theorem components (note : Note .type) (head : Ty.Head) :
    Reads room (fun t => t.nesting ≤ room + 1) (components g note head) := by
  cases head with
  | atom a => exact .pure (by simp only [Ty.nesting]; omega)
  | option => exact (h.type true).bind fun t ht => .pure (by simpa only [Ty.nesting] using by omega)
  | wrapped w => exact h.plainType.bind fun t ht => .pure (by simp only [Ty.nesting]; omega)
  | set => exact h.comparable.bind fun c hc => .pure (by simp only [Ty.nesting]; omega)
  | joint j =>
    exact (h.type true).bind fun l hl => (h.type true).bind fun r hr =>
      .pure (by simp only [Ty.nesting]; omega)
  | lambda =>
    exact h.plainType.bind fun d hd => h.plainType.bind fun c hc =>
      .pure (by simp only [Ty.nesting]; omega)
  | table t =>
    exact h.comparable.bind fun k hk => h.plainType.bind fun v hv =>
      .pure (by simp only [Ty.nesting]; omega)

/-- A word takes a level, and its parts have the room below it. -/
theorem dataParts (head : Data.Head) :
    Reads room (fun d => d.levels path ≤ room + 1) (dataParts g head) := by
  cases head with
  | constant c => exact .pure (by simp only [Data.levels]; omega)
  | wrapped w => exact h.value.bind fun d hd => .pure (by simp only [Data.levels]; omega)
  | pair =>
    exact h.value.bind fun l hl => h.value.bind fun r hr =>
      .pure (by simp only [Data.levels]; omega)

theorem entry : Reads room (fun e => e.levels path ≤ room) (entry g) :=
  .next (handedDown_keepsLevel.keyword rfl) fun _ => h.value.bind fun k hk =>
    h.value.bind fun v hv => .pure (by simp only [Entry.levels]; omega)

omit h in
/-- A literal takes the one level of its value. -/
theorem integerLiteral : Reads room (fun d => d.levels path = 1) integerLiteral := by
  have H := handedDown_keepsLevel
  have hread (z : Int) (n : Nat) (refused : Bool) : Reads room (fun d => d.levels path = 1)
      (if refused then fail .integer else do
        token n
        Pure.pure (Data.int z)) := by
    split
    · exact .fail _
    · exact .next (H.token _) fun _ => .pure rfl
  exact .next H.rest fun cs => hread _ _ _

omit h in
theorem stringLiteral : Reads room (fun d => d.levels path = 1) stringLiteral := by
  have H := handedDown_keepsLevel
  rw [stringLiteral_eq_scanning]
  refine .next H.peek? fun c? => ?_
  split
  · exact .next (keepsLevel_scanning _) fun _ => .next H.layout fun _ => .pure rfl
  · exact .fail _

omit h in
theorem bytesLiteral : Reads room (fun d => d.levels path = 1) bytesLiteral := by
  have H := handedDown_keepsLevel
  rw [bytesLiteral_eq_scanning]
  refine .next H.rest fun cs => ?_
  split
  · dsimp only
    split
    · split
      · exact .next (H.token _) fun _ => .pure rfl
      · exact .of_never (keepsLevel_scanning _) fun _ ⟨_, _, _, hread⟩ => nomatch hread
    · exact .fail _
  · exact .fail _

/-- The parts nest in the value, which takes one level itself. -/
theorem plainValue : Reads room (fun d => d.levels path ≤ room + 1) (plainValue g) := by
  have H := handedDown_keepsLevel
  have hliteral (d : Data) (hd : d.levels path = 1) : d.levels path ≤ room + 1 := by omega
  have hword : Reads room (fun d => d.levels path ≤ room + 1) (dataWord g) := by
    rw [dataWord_eq]
    exact .next (H.headWord _ rfl) h.dataParts
  have hmap : Reads room (fun d => d.levels path ≤ room + 1) (mapLiteral g) := by
    refine h.entry.braced.bind fun entries hentries => ?_
    cases entries with
    | nil => exact .miss
    | cons e es => exact .pure (Nat.succ_le_succ (entryLevels_le.mpr hentries))
  have hsequence : Reads room (fun d => d.levels path ≤ room + 1) (sequenceLiteral g) :=
    h.value.braced.bind fun items hitems => .pure (Nat.succ_le_succ (itemLevels_le.mpr hitems))
  have hcode : Reads room (fun d => d.levels path ≤ room + 1) (codeLiteral g) :=
    h.block.bind fun b hb => .pure (Nat.succ_le_succ hb)
  refine hcode.firstOf ?_
  simp only [List.forall_mem_cons, List.not_mem_nil, false_implies, implies_true, and_true]
  exact ⟨integerLiteral.mono hliteral, stringLiteral.mono hliteral, bytesLiteral.mono hliteral,
    hword, hmap, hsequence⟩

/-! ### Contracts -/

/-- A section takes no level of its own. -/
theorem typeSection (part : Part) :
    Reads room (fun t => t.nesting ≤ room) (typeSection g part) := by
  have H := handedDown_keepsLevel
  rw [typeSection_eq]
  refine .next (H.keyword (isOfGrammar_keyword part)) fun _ => ?_
  refine .next (H.marking fun _ => rfl) fun _ => h.plainType.bind fun t ht => ?_
  exact .next (H.symbol rfl) fun _ => .pure ht

theorem codeSection : Reads room (fun b => Block.levels path b ≤ room) (codeSection g) := by
  have H := handedDown_keepsLevel
  rw [codeSection_eq]
  refine .next (H.keyword (isOfGrammar_keyword .code)) fun _ => ?_
  refine .next (H.marking fun _ => rfl) fun _ => h.block.bind fun b hb => ?_
  exact .next (H.optional (H.symbol rfl)) fun _ => .pure hb

/-- A contract takes no level itself, so its sections have all of the room. -/
theorem contractRule : Reads room (fun c => c.levels path ≤ room) (contractRule g) := by
  let I (x : Sections) : Prop := (∀ t ∈ x.parameter?, t.nesting ≤ room) ∧
    (∀ t ∈ x.storage?, t.nesting ≤ room) ∧ ∀ b ∈ x.code?, Block.levels path b ≤ room
  have hrequire {α : Type} {P : α → Prop} (part : Part) {a? : Option α} (ha : ∀ a ∈ a?, P a) :
      Reads room P (require part a?) := by
    cases a? with
    | some a => exact .pure (ha a rfl)
    | none => exact .fail _
  have hsections : Reads room I (group
      [slot (Grammar.typeSection g .parameter) fun t (x : Sections) =>
          { x with parameter? := some t },
        slot (Grammar.typeSection g .storage) fun t x => { x with storage? := some t },
        slot (Grammar.codeSection g) fun b x => { x with code? := some b }] {}) := by
    refine Reads.group ?_ ⟨fun _ hnone => (nomatch hnone), fun _ hnone => (nomatch hnone),
      fun _ hnone => (nomatch hnone)⟩
    simp only [List.forall_mem_cons, List.not_mem_nil, false_implies, implies_true, and_true]
    refine ⟨?_, ?_, ?_⟩
    · refine ((h.typeSection .parameter).slot _).mono ?_
      rintro _ ⟨t, ht, rfl⟩ x ⟨-, hstorage, hcode⟩
      exact ⟨fun _ ha => Option.mem_some.mp ha ▸ ht, hstorage, hcode⟩
    · refine ((h.typeSection .storage).slot _).mono ?_
      rintro _ ⟨t, ht, rfl⟩ x ⟨hparameter, -, hcode⟩
      exact ⟨hparameter, fun _ ha => Option.mem_some.mp ha ▸ ht, hcode⟩
    · refine (h.codeSection.slot _).mono ?_
      rintro _ ⟨b, hb, rfl⟩ x ⟨hparameter, hstorage, -⟩
      exact ⟨hparameter, hstorage, fun _ ha => Option.mem_some.mp ha ▸ hb⟩
  refine hsections.bind fun sections ⟨hparameter, hstorage, hcode⟩ => ?_
  refine (hrequire _ hparameter).bind fun parameter hp => ?_
  refine (hrequire _ hstorage).bind fun storage hs => ?_
  refine (hrequire _ hcode).bind fun code hc => .pure ?_
  exact max_le (max_le hp hs) hc

/-! ### Instructions and macros -/

/-- A block has a level of its own. -/
theorem body : Reads room (fun b => stepLevels path b + 1 ≤ room) g.block := h.block

/-- Both blocks have the same room. -/
theorem twoBlocks :
    Reads room (fun b => max (stepLevels path b.1 + 1) (stepLevels path b.2 + 1) ≤ room)
      (twoBlocks g) :=
  h.body.bind fun _ hyes => h.body.bind fun _ hno => .pure (max_le hyes hno)

theorem bracedContract :
    Reads room (fun c? => ∀ c ∈ c?, c.levels path ≤ room) (bracedContract g) := by
  rw [bracedContract_eq]
  exact h.contractRule.enclosed.optional

/-- What an instruction nests fits into the room of the step. -/
theorem arguments (head : Instr.Head) : Reads room (fun i => i.levels path ≤ room)
    (arguments g head) := by
  have H := handedDown_keepsLevel
  have ht := h.plainType
  cases head with
  | plain => exact .pure (Nat.zero_le _)
  | noted => exact .next (H.noteSlot _) fun _ => .pure (Nat.zero_le _)
  | typed => exact .next (H.noteSlot _) fun _ => ht.bind fun _ ht => .pure ht
  | branch => exact h.twoBlocks.bind fun _ hb => .pure hb
  | enclosing => exact h.body.bind fun _ hb => .pure hb
  | traversal => exact .next (H.noteSlot _) fun _ => h.body.bind fun _ hb => .pure hb
  | project => exact .next H.varFieldNotes fun _ => .pure (Nat.zero_le _)
  | inject => exact .next H.typeVarFieldsNotes fun _ => ht.bind fun _ ht => .pure ht
  | push =>
    exact .next (H.noteSlot _) fun _ => ht.bind fun _ ht => h.value.bind fun _ hd =>
      .pure (max_le ht hd)
  | some => exact .next H.typeVarFieldNotes fun _ => .pure (Nat.zero_le _)
  | none => exact .next H.typeVarFieldNotes fun _ => ht.bind fun _ ht => .pure ht
  | unit => exact .next H.typeVarNotes fun _ => .pure (Nat.zero_le _)
  | pair => exact .next H.typeVarFieldsNotes fun _ => .pure (Nat.zero_le _)
  | nil => exact .next H.typeVarNotes fun _ => ht.bind fun _ ht => .pure ht
  | emptySet => exact .next H.typeVarNotes fun _ => h.comparable.bind fun _ hc => .pure hc
  | emptyMap =>
    exact .next H.typeVarNotes fun _ => h.comparable.bind fun _ hc => ht.bind fun _ ht =>
      .pure (max_le hc ht)
  | lambda =>
    exact .next (H.noteSlot _) fun _ => ht.bind fun _ hd => ht.bind fun _ hc =>
      h.body.bind fun _ hb => .pure (max_le (max_le hd hc) hb)
  | createAccount =>
    exact .next (H.noteSlot _) fun _ => .next (H.noteSlot _) fun _ => .pure (Nat.zero_le _)
  | createContract =>
    refine .next (H.noteSlot _) fun _ => .next (H.noteSlot _) fun _ => ?_
    refine h.bracedContract.bind fun c? hc => ?_
    cases c? with
    | some c => exact .pure (hc c rfl)
    | none => exact .pure (Nat.zero_le _)

/-- The parts of a macro nest in it, and its name takes what the letters say. -/
theorem macroArguments {name : MacroName} (hname : name.levels path ≤ room) :
    Reads room (fun m => m.levels path ≤ room) (macroArguments g name) := by
  have H := handedDown_keepsLevel
  cases name with
  | fixed => exact .pure (Nat.zero_le _)
  | compare => exact .next (H.noteSlot _) fun _ => .pure (Nat.zero_le _)
  | ifCompared => exact h.twoBlocks.bind fun _ hb => .pure hb
  | ifCompare => exact .next (H.noteSlot _) fun _ => h.twoBlocks.bind fun _ hb => .pure hb
  | ifSome => exact h.twoBlocks.bind fun _ hb => .pure hb
  | assertCompared => exact .pure (Nat.zero_le _)
  | assertCompare => exact .pure (Nat.zero_le _)
  | dipDeep => exact h.body.bind fun _ hb => .pure hb
  | dupDeep => exact .next (H.noteSlot _) fun _ => .pure (Nat.zero_le _)
  | pairUp shape =>
    refine .next H.pairNotes fun n => .pure ?_
    rw [Macro.levels, PairTree.height_withLeafNotes]
    exact hname
  | unpair shape =>
    refine .next H.leafNotes fun n => .pure ?_
    rw [Macro.levels, PairTree.height_withLeafNotes]
    exact hname
  | getPath => exact .next H.varFieldNotes fun _ => .pure hname
  | setPath => exact .next H.varFieldNotes fun _ => .pure hname
  | mapPath =>
    exact .next H.varFieldNotes fun _ => h.body.bind fun _ hb => .pure (max_le hname hb)

/-! ### Names of macros -/

omit h in
/-- The levels of a name are those of the macro that it begins. -/
theorem plainName (text : String) {name : MacroName} (hname : name.levels path ≤ room) :
    Reads room (fun n => n.levels path ≤ room) (plainName text name) :=
  .next (handedDown_keepsLevel.letters _) fun _ =>
    .next handedDown_keepsLevel.nameEnd fun _ => .pure hname

omit h in
theorem comparisonName (text : String) {name : Comparison → MacroName}
    (hname : ∀ c, (name c).levels path ≤ room) :
    Reads room (fun n => n.levels path ≤ room) (comparisonName text name) :=
  .next (handedDown_keepsLevel.letters _) fun _ =>
    .next (handedDown_keepsLevel.choice _ _) fun c =>
      .next handedDown_keepsLevel.nameEnd fun _ => .pure (hname c)

omit h in
theorem assertedName : Reads room (fun n => n.levels path ≤ room) assertedName :=
  .next (handedDown_keepsLevel.letters _) fun _ =>
    .next (handedDown_keepsLevel.choice _ _) fun _ =>
      .next handedDown_keepsLevel.nameEnd fun _ => .pure (Nat.zero_le _)

omit h in
/-- The end of a name behind letters that are counted. -/
theorem lettersEnd (text : String) {name : MacroName} (hname : name.levels path ≤ room)
    (short : Prop) [Decidable short] : Reads room (fun n => n.levels path ≤ room)
      (if short then Rule.miss else do
        letters text
        nameEnd
        Pure.pure name) := by
  split
  · exact .miss
  · exact plainName text hname

omit h in
theorem depthName (letter : Char) {name : UInt32 → MacroName}
    (hname : ∀ d, (name d).levels path ≤ room) :
    Reads room (fun n => n.levels path ≤ room) (depthName letter name) :=
  .next (handedDown_keepsLevel.letters _) fun _ => .next handedDown_keepsLevel.rest fun _ =>
    .next (handedDown_keepsLevel.advance _) fun _ => lettersEnd _ (hname _) _

omit h in
theorem pathName (text : String) (least : Nat) {name : List Side → MacroName}
    (hname : ∀ sides, (name sides).levels path ≤ room) :
    Reads room (fun n => n.levels path ≤ room) (pathName text least name) :=
  .next (handedDown_keepsLevel.letters _) fun _ => .next handedDown_keepsLevel.rest fun _ =>
    .next (handedDown_keepsLevel.advance _) fun _ => lettersEnd _ (hname _) _

/-- The levels of a name with a tree are the height of the tree, for which the rule for pair trees
has found room. -/
theorem treeName (text : String) {name : PairTree → MacroName}
    (hname : ∀ t, (name t).levels path = t.height) :
    Reads room (fun n => n.levels path ≤ room) (treeName g text name) :=
  .next (handedDown_keepsLevel.letters _) fun _ => h.pairTree.bind fun t ht =>
    plainName _ ((hname t).trans_le ht.1)

/-- Without room every name that is left when pair trees are tried halts the run. -/
theorem noMiss_treeName (hroom : room = 0) (name : PairTree → MacroName) (l : Nat) (s : State)
    (hs : s.depth + room = l) :
    (macroBy g (Grammar.treeName g "" name) (some l) s).verdict ≠ .miss := by
  have hletters : letters "" (some l) s = ⟨.ok (), s⟩ := rfl
  have hne := h.noMiss hroom l s (by omega)
  have hread := (h.pairTree l s hs).2
  rw [macroBy, Grammar.treeName, bind_assoc, bind_ok hletters, bind_assoc]
  rcases hrun : g.pairTree (some l) s with ⟨t | _ | stop, u⟩ <;> rw [hrun] at hne hread
  · have hpos := (hread t rfl).2
    omega
  · exact absurd rfl hne
  · rw [bind_halt hrun]
    rintro ⟨⟩

/-- Behind the name the parts of a macro have the room of the step. -/
theorem macroBy {name : Rule MacroName} (hname : Reads room (fun n => n.levels path ≤ room) name) :
    Reads room (fun m => m.levels path ≤ room) (macroBy g name) :=
  hname.bind fun _ hn => h.macroArguments hn

/-- The names that are tried before those of paths, which take no level but for trees. -/
theorem earlyNames : ∀ name ∈ (macroNames g).take 13,
    Reads room (fun n => n.levels path ≤ room) name := by
  have hzero {n : MacroName} (hn : n.levels path = 0) : n.levels path ≤ room :=
    hn.trans_le (Nat.zero_le _)
  simp only [macroNames, List.take_succ_cons, List.take_zero, List.forall_mem_cons,
    List.not_mem_nil, false_implies, implies_true, and_true]
  exact ⟨comparisonName _ fun _ => hzero rfl, plainName _ (hzero rfl),
    comparisonName _ fun _ => hzero rfl, comparisonName _ fun _ => hzero rfl,
    plainName _ (hzero rfl), comparisonName _ fun _ => hzero rfl, assertedName,
    comparisonName _ fun _ => hzero rfl, plainName _ (hzero rfl), depthName _ fun _ => hzero rfl,
    depthName _ fun _ => hzero rfl, h.treeName _ fun _ => rfl, h.treeName _ fun _ => rfl⟩

omit h in
/-- The names of paths take a level. -/
theorem pathNames (hroom : path ≤ room) : ∀ name ∈ (macroNames g).drop 13,
    Reads room (fun n => n.levels path ≤ room) name := by
  simp only [macroNames, List.drop_succ_cons, List.drop_zero, List.forall_mem_cons,
    List.not_mem_nil, false_implies, implies_true, and_true]
  exact ⟨pathName _ _ fun _ => hroom, pathName _ _ fun _ => hroom, pathName _ _ fun _ => hroom⟩

/-- Names of paths are tried behind names with trees. Without room these do not miss, as the depth
stops them; with room a path has its level. -/
theorem macroRule (hpath : path ≤ 1) :
    Reads room (fun m => m.levels path ≤ room) (macroRule g) := by
  rw [macroRule_eq]
  refine .recording (fun _ _ => rfl) ?_
  rcases Nat.eq_zero_or_pos room with hroom | hroom
  · have hsplit : (macroNames g).map (Grammar.macroBy g) =
        ((macroNames g).take 12).map (Grammar.macroBy g) ++
          Grammar.macroBy g (Grammar.treeName g "" .pairUp) ::
            ((macroNames g).drop 13).map (Grammar.macroBy g) := rfl
    rw [hsplit]
    refine .firstOf_of_noMiss ?_ (h.macroBy (h.treeName _ fun _ => rfl)) (h.noMiss_treeName hroom _)
    refine List.forall_mem_map.mpr fun name hname => h.macroBy (h.earlyNames name ?_)
    exact List.take_subset_take_left _ (by decide) hname
  · refine Reads.firstOf (.fail _) (List.forall_mem_map.mpr fun name hname => h.macroBy ?_)
    rw [← List.take_append_drop 13 (macroNames g)] at hname
    rcases List.mem_append.mp hname with hname | hname
    · exact h.earlyNames name hname
    · exact pathNames (hpath.trans hroom) name hname

/-! ### Steps and pair trees -/

/-- What a step is made of has one level less than the step. -/
theorem stepParts (hpath : path ≤ 1) : Reads room (fun o => o.levels path ≤ room + 1)
    (firstOf (nestedBlock g) [instructionStep g, macroStep g]) := by
  have hinstruction : Reads room (fun i => i.levels path ≤ room) (instruction g) := by
    rw [instruction_eq]
    exact .attempt (.next handedDown_keepsLevel.mnemonicWord h.arguments)
  have hblock : Reads room (fun o => o.levels path ≤ room + 1) (nestedBlock g) :=
    h.body.bind fun _ hb => .pure (Nat.succ_le_succ hb)
  refine hblock.firstOf ?_
  simp only [List.forall_mem_cons, List.not_mem_nil, false_implies, implies_true, and_true]
  exact ⟨hinstruction.bind fun _ hi => .pure (Nat.succ_le_succ hi),
    (h.macroRule hpath).bind fun _ hm => .pure (Nat.succ_le_succ hm)⟩

/-- Both sides have one level less than the pair. -/
theorem pairLetters : Reads room (fun t => t.height ≤ room + 1 ∧ 1 ≤ room + 1) (do
    letters "P"
    let l ← leftTree g
    let r ← rightTree g
    Pure.pure (PairTree.node l r)) := by
  have H := handedDown_keepsLevel
  have htree : Reads room (fun t => t.height ≤ room) g.pairTree := h.pairTree.mono fun _ ht => ht.1
  have hleft : Reads room (fun t => t.height ≤ room) (leftTree g) := by
    refine .next H.peek? fun c? => ?_
    split
    · exact .next (H.advance 1) fun _ => .pure (Nat.zero_le _)
    · exact htree
  have hright : Reads room (fun t => t.height ≤ room) (rightTree g) := by
    refine .next H.peek? fun c? => ?_
    split
    · exact .next (H.advance 1) fun _ => .pure (Nat.zero_le _)
    · exact htree
  exact .next (H.letters _) fun _ => hleft.bind fun l hl => hright.bind fun r hr =>
    .pure ⟨Nat.succ_le_succ (max_le hl hr), Nat.succ_pos room⟩

end Knot.Within

namespace Knot.Bounded

variable {path : Nat} {g : Knot} (h : g.Bounded path)

include h

/-- A type takes a level, in parentheses or not. -/
theorem typeRule (room : Nat) (withField : Bool) :
    Reads room (fun t => t.2.nesting ≤ room) (typeRule g withField) := by
  have H := handedDown_keepsLevel
  rw [typeRule_eq]
  refine .nested ?_
  rintro m rfl
  have hm := h m
  refine .attempt (.unlessOpen ?_ ?_)
  · exact ((hm.type withField).mono fun _ ht => Nat.le_succ_of_le ht).parenthesized
  · refine .next (H.headWord _ rfl) fun head => .next (H.nodeNotes _) fun notes => ?_
    exact (hm.components _ head).bind fun t ht => .pure ht

theorem comparableRule (room : Nat) : Reads room (fun _ => 1 ≤ room) (comparableRule g) := by
  have H := handedDown_keepsLevel
  rw [comparableRule_eq]
  refine .nested ?_
  rintro m rfl
  refine .attempt (.unlessOpen ?_ ?_)
  · exact ((h m).comparable.mono fun _ hc => Nat.le_succ_of_le hc).parenthesized
  · exact .next (H.headWord _ rfl) fun _ => .next (H.noteSlot _) fun _ => .pure (Nat.succ_pos m)

theorem valueRule (room : Nat) : Reads room (fun d => d.levels path ≤ room) (valueRule g) := by
  rw [valueRule_eq]
  refine .nested ?_
  rintro m rfl
  refine .attempt (.unlessOpen ?_ (h m).plainValue)
  exact ((h m).value.mono fun _ hd => Nat.le_succ_of_le hd).parenthesized

/-- A step takes a level for itself. -/
theorem step (hpath : path ≤ 1) (room : Nat) :
    Reads room (fun o => o.levels path ≤ room) (step g) := by
  refine .nested ?_
  rintro m rfl
  exact (h m).stepParts hpath

/-- A block takes a level, and its steps have the room below it. -/
theorem blockRule (hpath : path ≤ 1) (room : Nat) :
    Reads room (fun b => Block.levels path b ≤ room) (blockRule g) := by
  have H := handedDown_keepsLevel
  rw [blockRule_eq]
  refine .nested ?_
  rintro m rfl
  refine .next (H.marking fun _ => rfl) fun _ => (h.step hpath m).braced.mono fun b hb => ?_
  exact Nat.succ_le_succ (stepLevels_le.mpr hb)

theorem pairTreeRule (room : Nat) :
    Reads room (fun t => t.height ≤ room ∧ 1 ≤ room) (pairTreeRule g) := by
  refine .nested ?_
  rintro m rfl
  exact (h m).pairLetters

/-- **One call more.** The rules that are tied once more read within their room too. -/
theorem next (hpath : path ≤ 1) : g.next.Bounded path := fun room =>
  { type := h.typeRule room
    comparable := h.comparableRule room
    value := h.valueRule room
    block := h.blockRule hpath room
    pairTree := h.pairTreeRule room
    noMiss := by
      rintro hroom l s rfl
      change (Rule.nested _ (some s.depth) s).verdict ≠ .miss
      rw [nested_some, if_pos le_rfl]
      exact fun hmiss => nomatch hmiss }

end Knot.Bounded

/-- However many calls are left, what is read fits into its room. -/
theorem Knot.bounded_tied {path : Nat} (hpath : path ≤ 1) (calls : Nat) :
    (Knot.tied calls).Bounded path := by
  induction calls with
  | zero =>
    have hnone {α : Type} {room : Nat} {P : α → Prop} : Reads room P (Rule.exhausted (α := α)) :=
      .of_never handedDown_keepsLevel.exhausted fun _ ⟨_, _, _, h⟩ => nomatch h
    exact fun room => ⟨fun _ => hnone, hnone, hnone, hnone, hnone,
      fun _ _ _ _ hmiss => nomatch hmiss⟩
  | succ calls ih => exact ih.next hpath

end Grammar

/-! ## Contracts -/

/-- The levels of a contract that is read under a limit are within the limit, also if the
names of projections are given a level. -/
theorem parseWithin_bounded {path : Nat} (hpath : path ≤ 1) {l : Nat} {text : String} {c : Contract}
    (h : Contract.parseWithin (some l) text = .ok c) : c.levels path ≤ l := by
  have H := handedDown_keepsLevel
  have hreads : Reads l (fun c => c.levels path ≤ l)
      (Grammar.whole (Grammar.contractRule (Grammar.Knot.tied (Grammar.callsFor text.toList)))) :=
    .next H.layout fun _ => ((Grammar.Knot.bounded_tied hpath _) l).contractRule.bind fun _ hc =>
      .next H.endOfInput fun _ => .pure hc
  obtain ⟨-, hread⟩ := hreads l (State.initial text.toList) (Nat.zero_add l)
  exact hread c (result_eq_ok.mp h)

/-- **A limit on nesting bounds the result.** In a contract that is read under a limit the
parameter, the storage and the code nest no deeper than the limit, with all their parts,
the code in values and the contracts in instructions included. -/
theorem nesting_le_limit {l : Nat} {text : String} {c : Contract}
    (h : Contract.parseWithin (some l) text = .ok c) :
    c.parameter.nesting ≤ l ∧ c.storage.nesting ≤ l ∧ Block.nesting c.code ≤ l := by
  have hlevels : c.levels 0 ≤ l := parseWithin_bounded (Nat.zero_le 1) h
  obtain ⟨htypes, hcode⟩ := max_le_iff.mp hlevels
  obtain ⟨hparameter, hstorage⟩ := max_le_iff.mp htypes
  exact ⟨hparameter, hstorage, hcode⟩

/-- A contract with a macro, a type and a value that nest, under the limit that they need. -/
theorem nesting_le_limit_four :
    ∃ c, Contract.parseWithin (some 4)
        "parameter unit;storage unit;code \x7bUNPAPAIR;PUSH list int \x7b1\x7d\x7d" = .ok c ∧
      c.parameter.nesting ≤ 4 ∧ c.storage.nesting ≤ 4 ∧ Block.nesting c.code ≤ 4 := by
  obtain ⟨c, hc⟩ : ∃ c, Contract.parseWithin (some 4)
      "parameter unit;storage unit;code \x7bUNPAPAIR;PUSH list int \x7b1\x7d\x7d" = .ok c :=
    exists_of_isOk (by decide +kernel)
  exact ⟨c, hc, nesting_le_limit hc⟩

end Michelson
