import Michelson.Proofs.Calls

/-!
# The parser finishes

Reading a text always comes to an end of its own: the calls with which it begins
are never used up. The reason is told for one level of the grammar. What a rule
does with a text depends on what the rules it calls do with less text; the one
exception is a value, which may be a block that begins where the value begins. And
every repetition is bounded by something that each of its steps uses up: the text,
or the members of a group.

* `Rule.AgreeBelow` compares two rules on texts below some length.
* `Knot.AgreeBelow.descent` is the descent through the grammar.
* `Repetitions` lists what bounds each repetition.
* `Finishes` says that a text is read to an end, and that more calls make no
  difference; `reading_finishes` is the statement for the four kinds of texts.
-/

namespace Michelson

open Rule

variable {α : Type}

/-! ## Rules that agree on short texts -/

namespace Rule

/-- Where less than `n` characters are left, the rules reply the same. They do not run
out of calls, and do not go back in the text. -/
def AgreeBelow (limit : Option Nat) (n : Nat) (r r' : Rule α) : Prop :=
  ∀ s : State, s.cursor.rest.length < n →
    r limit s = r' limit s ∧ (r limit s).verdict ≠ .halt .outOfFuel ∧
      ∀ a t, r limit s = ⟨.ok a, t⟩ → t.cursor.rest.length ≤ s.cursor.rest.length

/-- Rules that agree in this way and pass a character where they read something. -/
def AgreePassing (limit : Option Nat) (n : Nat) (r r' : Rule α) : Prop :=
  ∀ s : State, s.cursor.rest.length < n →
    r limit s = r' limit s ∧ (r limit s).verdict ≠ .halt .outOfFuel ∧
      ∀ a t, r limit s = ⟨.ok a, t⟩ → t.cursor.rest.length < s.cursor.rest.length

variable {limit : Option Nat} {n : Nat} {r r' : Rule α}

/-- Runs that end the same, short of the calls, keep step. -/
theorem alike_of_eq {post : Cursor → Cursor → Prop} {s : State}
    (heq : r limit s = r' limit s) (hcalls : (r limit s).verdict ≠ .halt .outOfFuel)
    (hpost : ∀ a t, r limit s = ⟨.ok a, t⟩ → post t.cursor t.cursor) :
    (Setting.agreeing limit limit).Alike post Eq (r limit s) (r' limit s) := by
  rw [← heq]
  rcases hr : r limit s with ⟨a | _ | stop, t⟩
  · exact ⟨rfl, hpost a t hr, rfl⟩
  · exact rfl
  · refine .inr (.inr ⟨rfl, rfl, fun hstop => hcalls ?_⟩)
    rw [hr, hstop]

/-- Runs that keep step end the same, and do not run out of calls. -/
theorem eq_of_alike {post : Cursor → Cursor → Prop} {s : State}
    (h : (Setting.agreeing limit limit).Alike post Eq (r limit s) (r' limit s)) :
    r limit s = r' limit s ∧ (r limit s).verdict ≠ .halt .outOfFuel ∧
      ∀ a t, r limit s = ⟨.ok a, t⟩ → post t.cursor t.cursor := by
  have heq := h.eq
  rw [← heq] at h
  refine ⟨heq, fun hcalls => ?_, fun a t hr => ?_⟩
  · rcases hr : r limit s with ⟨v, t⟩
    rw [hr] at h hcalls
    obtain rfl : v = .halt .outOfFuel := hcalls
    rcases h with hex | hex | ⟨-, -, hfuel⟩
    · exact hex.1 rfl
    · exact hex
    · exact hfuel rfl
  · rw [hr] at h
    exact h.2.1

theorem agreeBelow_iff :
    AgreeBelow limit n r r' ↔
      TypePlacement.Keeps (.agreeing limit limit) (fun _ n => SameText.Within n) n Eq r r' := by
  constructor
  · intro h d m _ hm s s' hs hmem
    obtain rfl : s = s' := hmem
    obtain ⟨heq, hcalls, hback⟩ := h s (hs.2.2.trans_le hm)
    exact alike_of_eq heq hcalls fun a t hr =>
      ⟨rfl, trivial, (hback a t hr).trans_lt hs.2.2⟩
  · intro h s hs
    obtain ⟨heq, hcalls, hpost⟩ :=
      eq_of_alike (h 1 _ le_rfl hs s s ⟨rfl, trivial, Nat.lt_succ_self _⟩ rfl)
    exact ⟨heq, hcalls, fun a t hr => Nat.le_of_lt_succ (hpost a t hr).2.2⟩

theorem agreePassing_iff :
    AgreePassing limit n r r' ↔
      TypePlacement.Passes (.agreeing limit limit) (fun _ n => SameText.Within n) n Eq r r' := by
  constructor
  · intro h d m _ hm s s' hs hmem
    obtain rfl : s = s' := hmem
    obtain ⟨heq, hcalls, hpass⟩ := h s (hs.2.2.trans_le hm)
    refine alike_of_eq heq hcalls fun a t hr => ⟨rfl, trivial, ?_⟩
    have hlt := hpass a t hr
    have hlen := hs.2.2
    omega
  · intro h s hs
    obtain ⟨heq, hcalls, hpost⟩ :=
      eq_of_alike (h 1 _ le_rfl hs s s ⟨rfl, trivial, Nat.lt_succ_self _⟩ rfl)
    exact ⟨heq, hcalls, fun a t hr => (hpost a t hr).2.2⟩

end Rule

/-! ## The descent through the grammar -/

namespace Grammar

/-- The rules of two knots agree where less than `n` characters are left. -/
structure Knot.AgreeBelow (limit : Option Nat) (n : Nat) (g g' : Knot) : Prop where
  type (withField : Bool) : Rule.AgreeBelow limit n (g.type withField) (g'.type withField)
  comparable : Rule.AgreeBelow limit n g.comparable g'.comparable
  value : Rule.AgreeBelow limit n g.value g'.value
  block : Rule.AgreeBelow limit n g.block g'.block
  pairTree : Rule.AgreeBelow limit n g.pairTree g'.pairTree

variable {limit : Option Nat} {n : Nat} {g g' : Knot}

theorem Knot.agreeBelow_iff : g.AgreeBelow limit n g' ↔ Knot.Agree limit n g g' := by
  constructor
  · intro h
    exact ⟨fun b => Rule.agreeBelow_iff.mp (h.type b), Rule.agreeBelow_iff.mp h.comparable,
      Rule.agreeBelow_iff.mp h.value, Rule.agreeBelow_iff.mp h.block,
      fun m hm => Rule.agreeBelow_iff.mp h.pairTree 1 m le_rfl hm⟩
  · intro h
    exact ⟨fun b => Rule.agreeBelow_iff.mpr (h.type b), Rule.agreeBelow_iff.mpr h.comparable,
      Rule.agreeBelow_iff.mpr h.value, Rule.agreeBelow_iff.mpr h.block,
      Rule.agreeBelow_iff.mpr fun _ m _ hm => h.pairTree m hm⟩

/-- Knots that agree on shorter texts are tied to knots that agree, block for block; their
values agree if the blocks do on texts of the same length. -/
structure Knot.Descends (limit : Option Nat) (n : Nat) (g g' : Knot) : Prop where
  type (withField : Bool) :
    Rule.AgreeBelow limit (n + 1) (g.next.type withField) (g'.next.type withField)
  comparable : Rule.AgreeBelow limit (n + 1) g.next.comparable g'.next.comparable
  block : Rule.AgreeBelow limit (n + 1) g.next.block g'.next.block
  pairTree : Rule.AgreeBelow limit (n + 1) g.next.pairTree g'.next.pairTree
  value : Rule.AgreeBelow limit (n + 1) g.block g'.block →
    Rule.AgreeBelow limit (n + 1) g.next.value g'.next.value

/-- **The descent through the grammar.** A rule calls others behind some text only, except
that a value calls for a block at its own place, which calls for nothing there. -/
theorem Knot.AgreeBelow.descent (h : g.AgreeBelow limit n g') : g.Descends limit n g' := by
  have C := (SameText.agreeing (Looser.refl limit)).congruence
  have hg := Knot.agreeBelow_iff.mp h
  exact
    { type b := Rule.agreeBelow_iff.mpr (C.typeRule (n := n + 1) hg.type hg.comparable b)
      comparable := Rule.agreeBelow_iff.mpr (C.comparableRule (n := n + 1) hg.comparable)
      block := Rule.agreeBelow_iff.mpr (C.blockRule (n := n + 1) hg)
      pairTree := Rule.agreeBelow_iff.mpr fun _ m _ hm =>
        C.pairTreeRule (n := n + 1) hg.pairTree m hm
      value hb := Rule.agreeBelow_iff.mpr
        (C.valueRule (n := n + 1) hg.value (Rule.agreeBelow_iff.mp hb)) }

end Grammar

/-! ## Repetitions -/

namespace Rule

variable {limit : Option Nat} {n : Nat} {r r' : Rule α}

/-- A repetition of a rule that passes some text is not cut short by a bound beyond the
length of the text. -/
theorem manyWithin_agree (h : AgreePassing limit n r r') {bound bound' : Nat} (hb : n ≤ bound)
    (hb' : n ≤ bound') : AgreeBelow limit n (manyWithin r bound) (manyWithin r' bound') := by
  have A := (SameText.agreeing (Looser.refl limit)).placement (J := fun _ => True)
    fun _ _ _ _ => trivial
  refine agreeBelow_iff.mpr fun d m hd hm => ?_
  exact A.manyWithin hd m bound bound' (hm.trans hb) (hm.trans hb') fun e k he hk =>
    agreePassing_iff.mp h e k he (hk.trans hm)

/-- The items of a list in braces are not cut short by a bound beyond the length of the
text: each but the last is followed by a semicolon. -/
theorem bracedItems_agree (h : AgreeBelow limit n r r') {bound bound' : Nat} (hb : n ≤ bound)
    (hb' : n ≤ bound') : AgreeBelow limit n (bracedItems r bound) (bracedItems r' bound') := by
  have A := (SameText.agreeing (Looser.refl limit)).placement (J := fun _ => True)
    fun _ _ _ _ => trivial
  refine agreeBelow_iff.mpr fun d m hd hm => ?_
  refine A.bracedItems (d := d) (k := m) (fun j hj => ?_)
    (fun j hj => agreeBelow_iff.mp h 1 j le_rfl (hj.trans hm)) m bound bound' (hm.trans hb)
    (hm.trans hb') le_rfl
  exact (A.closing hd).weaken (fun _ _ h => h)
    (fun _ _ h => SamePlace.weaken h ((Nat.sub_le j 1).trans hj)) fun _ _ h => h

/-- The first member that passes some text is used up. -/
theorem length_of_firstAdvancing {rs : List (Rule α)} {s t : State} {a : α}
    {others : List (Rule α)} (h : firstAdvancing rs limit s = ⟨.ok (some (a, others)), t⟩) :
    others.length + 1 = rs.length := by
  induction rs generalizing s t others with
  | nil => cases h
  | cons r rs ih =>
    obtain ⟨a?, u, -, h⟩ := bind_eq_ok h
    cases a? with
    | some b =>
      cases h
      rfl
    | none =>
      obtain ⟨found, v, hrs, h⟩ := bind_eq_ok h
      cases found with
      | none => cases h
      | some found =>
        cases h
        exact congrArg Nat.succ (ih hrs)

/-- The rounds of a group are not cut short by a bound that is the number of its members:
each round uses one of them up. -/
theorem groupWithin_agree {σ : Type} {members : List (Rule (σ → σ))} {rounds : Nat}
    (h : members.length ≤ rounds) (gathered : σ) :
    groupWithin rounds members gathered = group members gathered := by
  rw [group]
  induction rounds generalizing members gathered with
  | zero => rw [Nat.le_zero.mp h]
  | succ rounds ih =>
    cases members with
    | nil => rfl
    | cons member members =>
      funext limit s
      change (firstAdvancing (member :: members) >>= _) limit s =
        (firstAdvancing (member :: members) >>= _) limit s
      rcases hr : firstAdvancing (member :: members) limit s with ⟨found | _ | stop, t⟩
      · rw [bind_ok hr, bind_ok hr]
        cases found with
        | none => rfl
        | some found =>
          obtain ⟨update, others⟩ := found
          have hlen : others.length = members.length := Nat.succ.inj (length_of_firstAdvancing hr)
          have hle : others.length ≤ rounds := hlen ▸ Nat.le_of_succ_le_succ h
          dsimp only
          rw [ih hle, hlen]
      · rw [bind_miss hr, bind_miss hr]
      · rw [bind_halt hr, bind_halt hr]

end Rule

/-- The body of a string is not cut short by a bound beyond the length of the text: each
step passes a character. -/
theorem stringBody_agree (start : Position) {bound bound' : Nat} {c : Cursor}
    (h : c.rest.length < bound) (h' : c.rest.length < bound') :
    Literal.stringBody start bound c = Literal.stringBody start bound' c := by
  induction bound generalizing bound' c with
  | zero => exact absurd h (Nat.not_lt_zero _)
  | succ bound ih =>
    obtain ⟨bound', rfl⟩ : ∃ m, bound' = m + 1 := ⟨bound' - 1, by omega⟩
    -- what has passed at least one character is within the smaller bounds
    have hstep {c' : Cursor} {cs : List Char} {d : Char} (hpass : c.Passes (d :: cs) c') :
        Literal.stringBody start bound c' = Literal.stringBody start bound' c' := by
      have hlen := congrArg List.length hpass.1
      rw [List.length_append, List.length_cons] at hlen
      exact ih (by omega) (by omega)
    rw [Literal.stringBody, Literal.stringBody]
    split
    · rfl
    · rename_i d ds hrest
      have hone : c.Passes [d] (c.skip 1) := Cursor.passes_skip hrest
      cases hesc : Literal.escape (c.skip 1) with
      | error e => simp only [hstep hone]
      | ok passed =>
        obtain ⟨ch, c'⟩ := passed
        obtain ⟨e, digits, radix, -, hpass⟩ := Literal.passes_escape hesc
        simp only [hstep hone, hstep (hone.trans hpass)]

/-- An escape passes a character. -/
theorem length_of_escape {c c' : Cursor} {ch : Char} (h : Literal.escape c = .ok (ch, c')) :
    c'.rest.length < c.rest.length := by
  obtain ⟨d, digits, radix, -, hpass⟩ := Literal.passes_escape h
  rw [hpass.1, List.length_append, List.length_cons]
  omega

/-- Layout ends at a character or passes it. -/
theorem scan_step (mode : Layout.Mode) (ch : Char) (cs : List Char) (p : Position) :
    Layout.scan mode (ch :: cs) p = .ok ⟨ch :: cs, p⟩ ∨
      ∃ mode', Layout.scan mode (ch :: cs) p = Layout.scan mode' cs (p.advance ch) := by
  cases mode with
  | plain =>
    rw [Layout.scan]
    split
    · exact .inr ⟨_, rfl⟩
    · split
      · exact .inr ⟨_, rfl⟩
      · split
        · exact .inr ⟨_, rfl⟩
        · exact .inl rfl
  | line =>
    rw [Layout.scan]
    split <;> exact .inr ⟨_, rfl⟩
  | opening start => exact .inr ⟨_, rfl⟩
  | block start =>
    rw [Layout.scan]
    split <;> exact .inr ⟨_, rfl⟩
  | closing => exact .inr ⟨_, rfl⟩

/-- A path ends at a letter or takes it for a step. -/
theorem scanPath_step (c : Char) (cs : List Char) :
    Grammar.scanPath (c :: cs) = [] ∨
      ∃ side, Grammar.scanPath (c :: cs) = side :: Grammar.scanPath cs := by
  rw [Grammar.scanPath]
  split
  · exact .inr ⟨_, rfl⟩
  · exact .inl rfl

/-- A note passes a character. -/
theorem note_agree (limit : Option Nat) (n : Nat) (σ : Sigil) :
    AgreePassing limit n (Grammar.note σ) (Grammar.note σ) :=
  agreePassing_iff.mpr ((SameText.agreeing (Looser.refl limit)).congruence.note σ)

/-- What each step of a repetition uses up. -/
structure Repetitions : Prop where
  layout (mode : Layout.Mode) (ch : Char) (cs : List Char) (p : Position) :
    Layout.scan mode (ch :: cs) p = .ok ⟨ch :: cs, p⟩ ∨
      ∃ mode', Layout.scan mode (ch :: cs) p = Layout.scan mode' cs (p.advance ch)
  notes (limit : Option Nat) (n : Nat) (σ : Sigil) :
    AgreePassing limit n (Grammar.note σ) (Grammar.note σ)
  many {limit : Option Nat} {n : Nat} {α : Type} {r r' : Rule α} :
    AgreePassing limit n r r' → ∀ bound ≥ n, ∀ bound' ≥ n,
      AgreeBelow limit n (manyWithin r bound) (manyWithin r' bound')
  braced {limit : Option Nat} {n : Nat} {α : Type} {r r' : Rule α} :
    AgreeBelow limit n r r' → ∀ bound ≥ n, ∀ bound' ≥ n,
      AgreeBelow limit n (bracedItems r bound) (bracedItems r' bound')
  group {σ : Type} (members : List (Rule (σ → σ))) (gathered : σ) :
    ∀ rounds ≥ members.length, groupWithin rounds members gathered = group members gathered
  string (start : Position) (c : Cursor) :
    ∀ bound > c.rest.length, ∀ bound' > c.rest.length,
      Literal.stringBody start bound c = Literal.stringBody start bound' c
  escape {c c' : Cursor} {ch : Char} :
    Literal.escape c = .ok (ch, c') → c'.rest.length < c.rest.length
  path (c : Char) (cs : List Char) :
    Grammar.scanPath (c :: cs) = [] ∨
      ∃ side, Grammar.scanPath (c :: cs) = side :: Grammar.scanPath cs

/-- Each step of a repetition uses up some text or a member of a group. -/
theorem repetitions : Repetitions where
  layout := scan_step
  notes := note_agree
  many h _ hb _ hb' := manyWithin_agree h hb hb'
  braced h _ hb _ hb' := bracedItems_agree h hb hb'
  group _ gathered _ h := groupWithin_agree h gathered
  string start _ _ h _ h' := stringBody_agree start h h'
  escape := length_of_escape
  path := scanPath_step

/-! ## Whole texts -/

namespace Grammar

/-- Every text is read to an end that is not for want of calls, and with more calls it is
read in the same way. How many calls are enough depends on the length of the text only. -/
structure Finishes (rule : Knot → Rule α) : Prop where
  ends (limit : Option Nat) (text : List Char) :
    (run rule limit text).verdict ≠ .halt .outOfFuel
  enough (limit : Option Nat) (text : List Char) (calls : Nat) :
    2 * text.length + 2 ≤ calls →
      whole (rule (Knot.tied calls)) limit (State.initial text) = run rule limit text

theorem finishes_of_respected {rule : Knot → Rule α} (hr : Respected rule) : Finishes rule := by
  -- two numbers of calls that are enough, under one limit
  have hrun (limit : Option Nat) (text : List Char) {a b : Nat} (ha : 2 * text.length + 2 ≤ a)
      (hb : 2 * text.length + 2 ≤ b) :=
    have T := SameText.agreeing (Looser.refl limit)
    have hwhole := T.whole (hr T.congruence (Knot.agree_tied limit (text.length + 1) ha hb))
    eq_of_alike (hwhole (State.initial text) (State.initial text)
      ⟨rfl, trivial, Nat.lt_succ_self _⟩ rfl)
  exact
    { ends limit text := (hrun limit text le_rfl le_rfl).2.1
      enough limit text calls h := (hrun limit text h le_rfl).1 }

/-- **The parser finishes.** Contracts, types, values and blocks are read to an end, with a
number of calls that depends on the length of the text; rules call each other behind some
text, or along a fixed descent; and each repetition uses something up. -/
theorem reading_finishes :
    (Finishes contractRule ∧ Finishes Knot.plainType ∧ Finishes Knot.value ∧
      Finishes Knot.block) ∧
    (∀ limit n g g', Knot.AgreeBelow limit n g g' → Knot.Descends limit n g g') ∧
    Repetitions :=
  ⟨⟨finishes_of_respected respected_contractRule, finishes_of_respected respected_plainType,
      finishes_of_respected respected_value, finishes_of_respected respected_block⟩,
    fun _ _ _ _ h => h.descent, repetitions⟩

end Grammar

end Michelson
