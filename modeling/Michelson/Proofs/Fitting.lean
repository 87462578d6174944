import Michelson.Proofs.NestingBound
import Michelson.Proofs.Written.Code

/-!
# Levels that are enough

How many levels a rule needs from a place of a track, so that a limit which leaves as many
makes no difference to it. What an alternative needs counts also if it misses in the end.

* `Rule.Fits` and `Track.Fits` are the judgement, and `Rule.Flat` names the rules that do
  not nest.
* `Track.Braced.fits` is the statement about lists, which are read by one rule and may be
  tried by another one before.
-/

namespace Michelson

open Rule

/-! ## Levels that are enough -/

namespace Rule

variable {α β : Type}

/-- From the state the rule gets by with some levels: under a limit that leaves as many it
does what it does without one. It ends on the level on which it began. -/
structure Fits (r : Rule α) (s : State) (n : Nat) : Prop where
  level : (r none s).state.depth = s.depth
  same (l : Nat) : s.depth + n ≤ l → r (some l) s = r none s

namespace Fits

variable {r : Rule α} {k : α → Rule β} {s t : State} {n m : Nat} {a : α}

/-- More levels are enough as well. -/
theorem mono (h : r.Fits s n) (hnm : n ≤ m) : r.Fits s m :=
  ⟨h.level, fun l hl => h.same l (by omega)⟩

/-- The next rule begins on the same level. -/
theorem bind_ok (h : r.Fits s n) (hr : r none s = ⟨.ok a, t⟩) (hk : (k a).Fits t n) :
    (r >>= k).Fits s n := by
  have hlevel : t.depth = s.depth := by simpa only [hr] using h.level
  constructor
  · rw [Rule.bind_ok hr, hk.level, hlevel]
  · intro l hl
    rw [Rule.bind_ok ((h.same l hl).trans hr), Rule.bind_ok hr, hk.same l (hlevel ▸ hl)]

/-- Nothing follows a rule that misses, so its own levels are enough. -/
theorem bind_miss (h : r.Fits s n) (hr : r none s = ⟨.miss, t⟩) : (r >>= k).Fits s n := by
  have hlevel : t.depth = s.depth := by simpa only [hr] using h.level
  constructor
  · rw [Rule.bind_miss hr, hlevel]
  · intro l hl
    rw [Rule.bind_miss ((h.same l hl).trans hr), Rule.bind_miss hr]

theorem bind_halt {stop : Stop} (h : r.Fits s n) (hr : r none s = ⟨.halt stop, t⟩) :
    (r >>= k).Fits s n := by
  have hlevel : t.depth = s.depth := by simpa only [hr] using h.level
  constructor
  · rw [Rule.bind_halt hr, hlevel]
  · intro l hl
    rw [Rule.bind_halt ((h.same l hl).trans hr), Rule.bind_halt hr]

/-- The levels have to be enough for what follows each value that is read. -/
theorem bind (h : r.Fits s n) (hk : ∀ a t, r none s = ⟨.ok a, t⟩ → (k a).Fits t n) :
    (r >>= k).Fits s n := by
  rcases hr : r none s with ⟨a | _ | stop, t⟩
  · exact h.bind_ok hr (hk a t hr)
  · exact h.bind_miss hr
  · exact h.bind_halt hr

theorem optional (h : r.Fits s n) : (Rule.optional r).Fits s n := by
  constructor
  · have hlevel := h.level
    rw [Rule.optional]
    rcases hr : r none s with ⟨_ | _ | _, t⟩ <;> rw [hr] at hlevel <;> exact hlevel
  · intro l hl
    rw [Rule.optional, Rule.optional, h.same l hl]

theorem attempt (h : r.Fits s n) : (Rule.attempt r).Fits s n := by
  constructor
  · have hlevel := h.level
    rw [Rule.attempt]
    rcases hr : r none s with ⟨_ | _ | _, t⟩ <;> rw [hr] at hlevel <;> exact hlevel
  · intro l hl
    rw [Rule.attempt, Rule.attempt, h.same l hl]

/-- **One level more.** A rule that nests takes a level for itself. -/
theorem nested (h : r.Fits { s with depth := s.depth + 1 } n) : (Rule.nested r).Fits s (n + 1) := by
  constructor
  · have hlevel := h.level
    rw [nested_none, deeper]
    exact congrArg (· - 1) hlevel
  · intro l hl
    rw [nested_some, if_neg (by omega), nested_none, deeper, deeper,
      h.same l (by simpa only [Nat.add_assoc, Nat.add_comm 1 n] using hl)]

end Fits

/-- The rule does not nest. -/
def Flat ⦃α : Type⦄ (r : Rule α) : Prop := ∀ s, r.Fits s 0

/-- A rule that does not ask for the limit gets by without any levels. -/
theorem flat_of_same {r : Rule α} (h : KeepsLevel r) (hsame : ∀ l s, r (some l) s = r none s) :
    Flat r := fun s => ⟨h none s, fun l _ => hsame l s⟩

/-- Rules that do not nest make sequences that do not. -/
theorem Flat.bind {r : Rule α} {k : α → Rule β} (h : Flat r) (hk : ∀ a, r.Returns a → Flat (k a)) :
    Flat (r >>= k) :=
  fun s => (h s).bind fun a t hr => hk a ⟨none, s, t, hr⟩ t

/-- **Rules that do not nest** are made of tokens. -/
theorem handedFlat_flat : HandedFlat Flat where
  pure a := flat_of_same (keepsLevel_pure a) fun _ _ => rfl
  bind := Flat.bind
  miss := flat_of_same handedDown_keepsLevel.miss fun _ _ => rfl
  fail _ := flat_of_same (keepsLevel_fail _) fun _ _ => rfl
  exhausted := flat_of_same handedDown_keepsLevel.exhausted fun _ _ => rfl
  optional h s := (h s).optional
  attempt h s := (h s).attempt
  advancing h := advancing_of_moveTo (fun h hk => Flat.bind h fun a _ => hk a)
    (fun _ => flat_of_same (keepsLevel_scanning _) fun _ _ => rfl)
    (fun c => flat_of_same (keepsLevel_moveTo c) fun _ _ => rfl)
    (fun a => flat_of_same (keepsLevel_pure a) fun _ _ => rfl) fun s => (h s).optional
  mark h := flat_of_same (handedDown_keepsLevel.mark h) fun _ _ => rfl
  scanning _ := flat_of_same (keepsLevel_scanning _) fun _ _ => rfl
  returned _ _ _ := returned_of_moveTo (fun h hk => Flat.bind h fun a _ => hk a)
    (fun _ => flat_of_same (keepsLevel_scanning _) fun _ _ => rfl)
    (fun c => flat_of_same (keepsLevel_moveTo c) fun _ _ => rfl)
    (flat_of_same (keepsLevel_fail _) fun _ _ => rfl)

/-- No levels are enough, and so are some. -/
theorem Flat.fits {r : Rule α} (h : Flat r) (s : State) (n : Nat) : r.Fits s n :=
  (h s).mono (Nat.zero_le n)

end Rule

/-! ## Tracks -/

namespace Track

variable {T : Track} {α β σ ι : Type} {k j l n m : Nat}

/-- At a place the rule gets by with some levels. -/
def Fits (T : Track) (r : Rule α) (k n : Nat) : Prop :=
  ∀ s : State, s.cursor = T.place k → r.Fits s n

theorem fits_of_flat {r : Rule α} (h : Flat r) (k n : Nat) : T.Fits r k n :=
  fun s _ => h.fits s n

namespace Fits

variable {r : Rule α} {q : α → Rule β} {a : α}

theorem mono (h : T.Fits r k n) (hnm : n ≤ m) : T.Fits r k m := fun s hs => (h s hs).mono hnm

theorem bind (h : T.Fits r k n) (hr : T.Yields r k a j) (hq : T.Fits (q a) j n) :
    T.Fits (r >>= q) k n := by
  intro s hs
  obtain ⟨t, hrun, ht⟩ := hr.run s hs
  exact (h s hs).bind_ok hrun (hq t ht)

/-- What would have followed a rule that misses needs no levels. -/
theorem bind_misses (h : T.Fits r k n) (hr : T.Misses r k) (q : α → Rule β) :
    T.Fits (r >>= q) k n := by
  intro s hs
  obtain ⟨t, hrun⟩ := hr s hs
  exact (h s hs).bind_miss hrun

/-- What follows does not nest. -/
theorem then_flat (h : T.Fits r k n) (hq : ∀ a, Flat (q a)) : T.Fits (r >>= q) k n :=
  fun s hs => (h s hs).bind fun a t _ => (hq a).fits t n

theorem map (h : T.Fits r k n) (f : α → β) : T.Fits (r >>= fun a => pure (f a)) k n :=
  h.then_flat fun _ => handedFlat_flat.pure _

theorem optional (h : T.Fits r k n) : T.Fits (Rule.optional r) k n := fun s hs => (h s hs).optional

theorem attempt (h : T.Fits r k n) : T.Fits (Rule.attempt r) k n := fun s hs => (h s hs).attempt

theorem nested (h : T.Fits r k n) : T.Fits (Rule.nested r) k (n + 1) :=
  fun s hs => (h { s with depth := s.depth + 1 } hs).nested

/-- Noting something down needs no levels. -/
theorem recording {e : Position → α → Event} (he : ∀ p a, (e p a).isMark) (h : T.Fits r k n) :
    T.Fits (Rule.recording e r) k n := by
  intro s hs
  have H := handedFlat_flat
  refine (H.position.fits s n).bind_ok (a := s.cursor.position) (t := s) rfl ?_
  exact h.then_flat (fun a => H.next (H.mark (he _ a)) fun _ => H.pure a) s hs

/-- The alternative that counts. -/
theorem firstOf (h : T.Fits r k n) (hr : T.Yields r k a j) (last : Rule α) (rs : List (Rule α)) :
    T.Fits (Rule.firstOf last (r :: rs)) k n :=
  h.optional.bind hr.optional (fits_of_flat (handedFlat_flat.pure a) j n)

/-- An alternative that misses does not count, but it may nest. -/
theorem firstOf_misses (h : T.Fits r k n) (hr : T.Misses r k) (hk : k ≤ T.length) {last : Rule α}
    {rs : List (Rule α)} (hrs : T.Fits (Rule.firstOf last rs) k n) :
    T.Fits (Rule.firstOf last (r :: rs)) k n :=
  h.optional.bind (hr.optional hk) hrs

/-- Alternatives that all miss are all tried, so all of them have to get by. -/
theorem firstOf_of_misses (hk : k ≤ T.length) {last : Rule α} (hlast : T.Fits last k n)
    {rs : List (Rule α)} (h : ∀ r ∈ rs, T.Fits r k n ∧ T.Misses r k) :
    T.Fits (Rule.firstOf last rs) k n := by
  induction rs with
  | nil => exact hlast
  | cons r rs ih =>
    obtain ⟨⟨hfits, hmiss⟩, hrs⟩ := List.forall_mem_cons.mp h
    exact hfits.firstOf_misses hmiss hk (ih hrs)

theorem rest_bind {q : List Char → Rule α} (h : T.Fits (q (T.place k).rest) k n) :
    T.Fits (rest >>= q) k n := by
  intro s hs
  refine (handedFlat_flat.rest.fits s n).bind_ok (a := s.cursor.rest) (t := s) rfl ?_
  rw [hs]
  exact h s hs

end Fits

/-! ### Words -/

section Words

variable {what : Expectation} {f : List Char → Option α} {late : Bool} {q : α → Rule β}

/-- Behind a word the parts need what they need. -/
theorem fits_word {w : List Char} {a : α} (hwhat : what.isOfGrammar)
    (ht : T.token? k = some (.word w)) (hw : f w = some a) (hq : T.Fits (q a) (k + 1) n) :
    T.Fits (lexical (lookWord what f late) >>= q) k n :=
  (fits_of_flat (handedFlat_flat.word hwhat f late) k n).bind (yields_word ht hw) hq

/-- A word that is left alone needs no levels, whatever would have followed it. -/
theorem fits_word_of_misses (hwhat : what.isOfGrammar) (hk : k ≤ T.length)
    (h : ∀ w, T.token? k = some (.word w) → f w = none) :
    T.Fits (lexical (lookWord what f late) >>= q) k n :=
  (fits_of_flat (handedFlat_flat.word hwhat f late) k n).bind_misses (misses_word hk h) q

end Words

/-! ### Lists in braces -/

section Braced

variable {r : Rule α} {q : Rule β} {as : List α}

/-- At one place where an item of a list is read, another rule gets by with some levels. It
misses there, or it reads as far. -/
def FitsAlong (T : Track) (q : Rule β) (n i i' : Nat) : Prop :=
  T.Fits q i n ∧ (T.Misses q i ∨ ∃ b, T.Yields q i b i')

/-- Where the rule misses, what follows is not reached; where it reads something, it ends where it
is said to. -/
theorem FitsAlong.bind (h : T.FitsAlong q n k j) {rest : β → Rule ι}
    (hrest : ∀ b, T.Fits (rest b) j n) : T.Fits (q >>= rest) k n := by
  obtain ⟨hfits, hmiss | ⟨b, hb⟩⟩ := h
  · exact hfits.bind_misses hmiss _
  · exact hfits.bind hb (hrest b)

/-- The items are read by one rule, and tried by another, which has to get by at each of them. -/
theorem Items.fits (h : T.Items r k as j) (hq : ∀ a ∈ as, ∀ i i', k ≤ i → T.Yields r i a i' →
      Closes (T.token? i') → T.FitsAlong q n i i') :
    ∀ bound, T.length < k + bound → T.Fits (bracedItems q bound) k n := by
  have H := handedFlat_flat
  have hsemicolon (i : Nat) : T.Fits (Rule.optional (symbol ';')) i n :=
    fits_of_flat (H.optional (H.symbol rfl)) i n
  have hbrace (i : Nat) : T.Fits (Rule.optional (symbol '}')) i n :=
    fits_of_flat (H.optional (H.symbol rfl)) i n
  induction h with
  | @last k j a h hend =>
    intro bound hbound
    obtain ⟨bound, rfl⟩ := h.exists_bound hbound
    refine (hq a List.mem_cons_self k j le_rfl h (.inr hend)).bind fun b => ?_
    have hno : T.Misses (symbol ';') j :=
      misses_symbol (by decide) h.le_length (by rw [hend]; decide)
    refine (hsemicolon j).bind (hno.optional h.le_length) (Fits.map ?_ _)
    exact fits_of_flat (H.symbol rfl) j n
  | @lastSemicolon k j a h hsemi hend =>
    intro bound hbound
    obtain ⟨bound, rfl⟩ := h.exists_bound hbound
    refine (hq a List.mem_cons_self k j le_rfl h (.inl hsemi)).bind fun b => ?_
    refine (hsemicolon j).bind (yields_symbol (by decide) hsemi).optional ?_
    refine (hbrace (j + 1)).bind (yields_symbol (by decide) hend).optional ?_
    exact fits_of_flat (H.pure _) _ n
  | @more k j l a as h hsemi hgo hmore ih =>
    intro bound hbound
    obtain ⟨bound, rfl⟩ := h.exists_bound hbound
    have hle := h.le
    have hj := le_of_token? hsemi
    refine (hq a List.mem_cons_self k j le_rfl h (.inl hsemi)).bind fun b => ?_
    have hno : T.Misses (symbol '}') (j + 1) := misses_symbol (by decide) hj hgo
    have hmore := ih (fun a ha i i' hi => hq a (List.mem_cons_of_mem _ ha) i i' (by omega))
      bound (by omega)
    refine (hsemicolon j).bind (yields_symbol (by decide) hsemi).optional ?_
    exact (hbrace (j + 1)).bind (hno.optional hj) (hmore.map _)

theorem fits_braced_of_items (hopen : T.token? k = some (.mark '{'))
    (hgo : T.token? (k + 1) ≠ some (.mark '}'))
    (h : ∀ bound, T.length < k + 1 + bound → T.Fits (bracedItems q bound) (k + 1) n) :
    T.Fits (braced q) k n := by
  have H := handedFlat_flat
  have hk := le_of_token? hopen
  have hrest := T.le_length_rest (k + 1)
  refine Fits.attempt ((fits_of_flat (H.symbol rfl) k n).bind (yields_symbol (by decide) hopen) ?_)
  refine (fits_of_flat (H.optional (H.symbol rfl)) _ n).bind
    ((misses_symbol (by decide) hk hgo).optional hk) (.rest_bind ?_)
  exact h _ (by omega)

/-- A list in braces needs what its first item does, if it is missed there. -/
theorem fits_braced_of_item (hopen : T.token? k = some (.mark '{'))
    (hgo : T.token? (k + 1) ≠ some (.mark '}')) (hmiss : T.Misses q (k + 1))
    (h : T.Fits q (k + 1) n) : T.Fits (braced q) k n := by
  have hk := le_of_token? hopen
  refine fits_braced_of_items hopen hgo fun bound hbound => ?_
  obtain ⟨bound, rfl⟩ : ∃ n, bound = n + 1 := ⟨bound - 1, by omega⟩
  exact h.bind_misses hmiss _

/-- Where no brace opens, a list is missed at once. -/
theorem fits_braced (hk : k ≤ T.length) (hopen : T.token? k ≠ some (.mark '{')) :
    T.Fits (braced q) k n :=
  Fits.attempt ((fits_of_flat (handedFlat_flat.symbol rfl) k n).bind_misses
    (misses_symbol (by decide) hk hopen) _)

/-- **Lists in braces.** Where one rule reads a list, another gets by with the levels that it
needs for each of the items. -/
theorem Braced.fits (h : T.Braced r k as j) (hq : ∀ a ∈ as, ∀ i i', k < i → T.Yields r i a i' →
      Closes (T.token? i') → T.FitsAlong q n i i') : T.Fits (braced q) k n := by
  have H := handedFlat_flat
  obtain ⟨hopen, ⟨rfl, hend, rfl⟩ | ⟨hgo, hitems⟩⟩ := h
  · have hsymbol : T.Fits (symbol '{') k n := fits_of_flat (H.symbol rfl) k n
    refine Fits.attempt (hsymbol.bind (yields_symbol (by decide) hopen) ?_)
    refine (fits_of_flat (H.optional (H.symbol rfl)) _ n).bind
      (yields_symbol (by decide) hend).optional ?_
    exact fits_of_flat (H.pure _) _ n
  · exact fits_braced_of_items hopen hgo (hitems.fits hq)

end Braced

/-! ### Groups -/

section Group

variable {r : Rule α} {member : ι → Rule (σ → σ)}

/-- A member of a group needs what its rule does. -/
theorem Fits.advancing (h : T.Fits r k n) : T.Fits (advancing r) k n := by
  intro s hs
  have H := handedFlat_flat
  have hmove : Flat (moveTo s.cursor) := flat_of_same (keepsLevel_moveTo _) fun _ _ => rfl
  refine (H.cursor.fits s n).bind_ok (a := s.cursor) (t := s) rfl ?_
  refine h.optional.then_flat (fun a? => ?_) s hs
  cases a? with
  | none => exact H.pure none
  | some a =>
    exact H.next H.cursor fun _ => Handed.either (H.pure _) (H.next hmove fun _ => H.pure none)

/-- The first member that reads something is found behind members that miss. -/
theorem fits_firstAdvancing {before after : List ι} {i : ι} {u : σ → σ} (hkj : k < j)
    (hbefore : ∀ i ∈ before, T.Misses (member i) k ∧ T.Fits (member i) k n)
    (hi : T.Yields (member i) k u j) (hfits : T.Fits (member i) k n) :
    T.Fits (firstAdvancing ((before ++ i :: after).map member)) k n := by
  have H := handedFlat_flat
  induction before with
  | nil => exact hfits.advancing.bind (hi.advancing hkj) (fits_of_flat (H.pure _) _ n)
  | cons b before ih =>
    obtain ⟨⟨hmiss, hb⟩, hbefore⟩ := List.forall_mem_cons.mp hbefore
    have hk := hi.le.trans hi.le_length
    refine hb.advancing.bind (hmiss.advancing hk) ((ih hbefore).then_flat fun found? => ?_)
    cases found? with
    | none => exact H.pure none
    | some found => exact H.pure _

end Group

/-! ### Parentheses -/

section Wraps

variable {r plain : Rule α}

/-- A rule that may stand in parentheses, where none opens. -/
theorem Wraps.fits (h : Wraps r plain) (hk : k ≤ T.length) (hopen : T.token? k ≠ some (.mark '('))
    (hplain : T.Fits plain k n) : T.Fits r k (n + 1) := by
  rw [← h]
  refine Fits.nested (Fits.attempt fun s hs => ?_)
  have hhead : s.cursor.rest.head? ≠ some '(' := by
    rw [hs]
    exact fun heq => hopen ((T.head?_place hk (by decide)).mp heq)
  have hfits := hplain s hs
  constructor
  · rw [unlessOpen_run, if_neg hhead]
    exact hfits.level
  · intro l hl
    rw [unlessOpen_run, unlessOpen_run, if_neg hhead, if_neg hhead]
    exact hfits.same l hl

end Wraps

end Track

end Michelson
