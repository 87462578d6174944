import Michelson.Proofs.Track

/-!
# Outcomes on a track

What a rule makes of a track, without a limit on nesting. Rules of the full grammar
begin and end at places of the track, and what they read depends on the place only;
such rules are *kept*. So one run settles all runs from a place.

* `Track.Yields` and `Track.Misses` say how all runs from a place end. `Track.Gives`
  says what a run has read if it has read something.
* The lemmas in the namespaces of the three build them for a rule from its parts.
* `Track.kept_of_respected` says that the rules of the full grammar are kept.
-/

namespace Michelson

open Rule

namespace Track

variable (T : Track) {α β : Type}

/-- From a place the rule reads a value and ends at a place further on. -/
structure Yields (r : Rule α) (k : Nat) (a : α) (j : Nat) : Prop where
  le : k ≤ j
  le_length : j ≤ T.length
  run (s : State) : s.cursor = T.place k → ∃ t, r none s = ⟨.ok a, t⟩ ∧ t.cursor = T.place j

/-- From a place the rule misses. -/
def Misses (r : Rule α) (k : Nat) : Prop :=
  ∀ s : State, s.cursor = T.place k → ∃ t, r none s = ⟨.miss, t⟩

/-- What the rule reads from a place is as said, and it ends at a place further on. -/
def Gives (r : Rule α) (k : Nat) (P : α → Nat → Prop) : Prop :=
  ∀ s t : State, ∀ a, s.cursor = T.place k → r none s = ⟨.ok a, t⟩ →
    ∃ j, k ≤ j ∧ j ≤ T.length ∧ t.cursor = T.place j ∧ P a j

/-- What the rule does depends on the place only, and it leads to a place. -/
def Kept (r : Rule α) : Prop :=
  ∀ k ≤ T.length, Sim .steady (fun c c' => c = T.place k ∧ c' = T.place k)
    (fun c c' => ∃ j, k ≤ j ∧ j ≤ T.length ∧ c = T.place j ∧ c' = T.place j) Eq r r

variable {T}

/-- Places further on have larger offsets. -/
theorem place_injective {k j : Nat} (hk : k ≤ T.length) (hj : j ≤ T.length)
    (h : T.place k = T.place j) : k = j := by
  rcases lt_trichotomy k j with hlt | heq | hlt
  · have := T.offset_lt hlt hj
    rw [h] at this
    exact absurd this (lt_irrefl _)
  · exact heq
  · have := T.offset_lt hlt hk
    rw [h] at this
    exact absurd this (lt_irrefl _)

/-- A place is the place of some run. -/
theorem exists_state (T : Track) (k : Nat) : ∃ s : State, s.cursor = T.place k :=
  ⟨⟨T.place k, 0, none, []⟩, rfl⟩

/-- What follows at a place from the places behind it holds at all places. -/
theorem places_induction {P : Nat → Prop}
    (h : ∀ k ≤ T.length, (∀ i, k < i → i ≤ T.length → P i) → P k) : ∀ k ≤ T.length, P k := by
  intro k hk
  obtain ⟨n, hn⟩ : ∃ n, T.length - k < n := ⟨_, Nat.lt_succ_self _⟩
  induction n generalizing k with
  | zero => exact absurd hn (Nat.not_lt_zero _)
  | succ n ih => exact h k hk fun i hki hi => ih i hi (by omega)

/-! ## One run settles all -/

namespace Kept

variable {r : Rule α}

/-- A run that has read a value. -/
theorem yields (h : T.Kept r) {k : Nat} (hk : k ≤ T.length) {s t : State} {a : α}
    (hs : s.cursor = T.place k) (hrun : r none s = ⟨.ok a, t⟩) :
    ∃ j, T.Yields r k a j ∧ t.cursor = T.place j := by
  have hself := h k hk s s ⟨hs, hs⟩ trivial
  change Setting.Alike _ _ _ (r none s) (r none s) at hself
  rw [hrun] at hself
  obtain ⟨-, ⟨j, hkj, hj, ht, -⟩, -⟩ := hself
  refine ⟨j, ⟨hkj, hj, fun s' hs' => ?_⟩, ht⟩
  have hother := h k hk s s' ⟨hs, hs'⟩ trivial
  change Setting.Alike _ _ _ (r none s) (r none s') at hother
  rw [hrun] at hother
  rcases hrun' : r none s' with ⟨b | _ | stop, t'⟩ <;> rw [hrun'] at hother
  case ok =>
    obtain ⟨rfl, ⟨l, -, hl, ht', hl'⟩, -⟩ := hother
    obtain rfl := place_injective hj hl (ht.symm.trans ht')
    exact ⟨t', rfl, hl'⟩
  all_goals exact hother.elim

/-- What a kept rule reads, it reads from the place in all runs. -/
theorem gives (h : T.Kept r) {k : Nat} (hk : k ≤ T.length) : T.Gives r k (T.Yields r k) := by
  intro s t a hs hrun
  obtain ⟨j, hy, ht⟩ := h.yields hk hs hrun
  exact ⟨j, hy.le, hy.le_length, ht, hy⟩

/-- What a kept rule misses from a place in one run, it misses in all. -/
theorem misses (h : T.Kept r) {k : Nat} (hk : k ≤ T.length) {s t : State}
    (hs : s.cursor = T.place k) (hrun : r none s = ⟨.miss, t⟩) : T.Misses r k := by
  intro s' hs'
  have hother := h k hk s s' ⟨hs, hs'⟩ trivial
  change Setting.Alike _ _ _ (r none s) (r none s') at hother
  rw [hrun] at hother
  rcases hrun' : r none s' with ⟨b | _ | stop, t'⟩ <;> rw [hrun'] at hother
  case miss => exact ⟨t', rfl⟩
  all_goals exact hother.elim

end Kept

namespace Yields

variable {r : Rule α} {k j l : Nat} {a b : α}

/-- What is said of all that is read holds of what is read. -/
theorem of_gives (h : T.Yields r k a j) {P : α → Nat → Prop} (hP : T.Gives r k P) : P a j := by
  obtain ⟨s, hs⟩ := T.exists_state k
  obtain ⟨t, hrun, ht⟩ := h.run s hs
  obtain ⟨l, -, hl, ht', ha⟩ := hP s t a hs hrun
  obtain rfl := place_injective h.le_length hl (ht.symm.trans ht')
  exact ha

/-- All that is read is the one value, up to the one place. -/
theorem gives (h : T.Yields r k a j) : T.Gives r k fun b l => b = a ∧ l = j := by
  intro s t b hs hrun
  obtain ⟨t', hrun', ht'⟩ := h.run s hs
  obtain ⟨hb, rfl⟩ := Reply.mk.inj (hrun.symm.trans hrun')
  exact ⟨j, h.le, h.le_length, ht', Verdict.ok.inj hb, rfl⟩

/-- What is read at a place is unique. -/
theorem unique (h : T.Yields r k a j) (h' : T.Yields r k b l) : a = b ∧ j = l :=
  h.of_gives h'.gives

/-- A rule does not read and miss from one place. -/
theorem not_misses (h : T.Yields r k a j) (h' : T.Misses r k) : False := by
  obtain ⟨s, hs⟩ := T.exists_state k
  obtain ⟨t, hrun, -⟩ := h.run s hs
  obtain ⟨t', hrun'⟩ := h' s hs
  cases (Reply.mk.inj (hrun.symm.trans hrun')).1

end Yields

/-! ## What is read -/

section Yields

variable {r : Rule α} {q : α → Rule β} {k j l : Nat} {a : α} {b : β}

/-- Nothing is read, and the value is the one that is handed in. -/
theorem yields_pure (hk : k ≤ T.length) (a : α) : T.Yields (pure a) k a k :=
  ⟨le_rfl, hk, fun s hs => ⟨s, rfl, hs⟩⟩

/-- What two rules read in a row is read by their sequence. -/
theorem Yields.bind (h : T.Yields r k a j) (hq : T.Yields (q a) j b l) :
    T.Yields (r >>= q) k b l := by
  refine ⟨h.le.trans hq.le, hq.le_length, fun s hs => ?_⟩
  obtain ⟨t, hrun, ht⟩ := h.run s hs
  rw [bind_ok hrun]
  exact hq.run t ht

theorem Yields.map (h : T.Yields r k a j) (f : α → β) :
    T.Yields (r >>= fun a => pure (f a)) k (f a) j :=
  h.bind (yields_pure h.le_length _)

/-- The second rule of a sequence may be the one that misses. -/
theorem Yields.bind_misses (h : T.Yields r k a j) (hq : T.Misses (q a) j) :
    T.Misses (r >>= q) k := by
  intro s hs
  obtain ⟨t, hrun, ht⟩ := h.run s hs
  rw [bind_ok hrun]
  exact hq t ht

/-- The first rule may be, and then it does not matter what would have followed. -/
theorem Misses.bind (h : T.Misses r k) (q : α → Rule β) : T.Misses (r >>= q) k := by
  intro s hs
  obtain ⟨t, hrun⟩ := h s hs
  exact ⟨t, bind_miss hrun⟩

/-- Where the first rule reads something and the sequence misses, it is the second rule that does.
-/
theorem Misses.of_bind (h : T.Misses (r >>= q) k) (hr : T.Yields r k a j) :
    ∃ s t : State, q a none s = ⟨.miss, t⟩ := by
  obtain ⟨s, hs⟩ := T.exists_state k
  obtain ⟨t, hrun⟩ := h s hs
  obtain ⟨u, hu, -⟩ := hr.run s hs
  rw [bind_ok hu] at hrun
  exact ⟨u, t, hrun⟩

/-- What is done with a value cannot miss. -/
theorem Misses.of_bind_pure {f : α → β} (h : T.Misses (r >>= fun a => pure (f a)) k) :
    T.Misses r k := by
  intro s hs
  obtain ⟨t, hrun⟩ := h s hs
  rcases hr : r none s with ⟨a | _ | stop, u⟩
  · rw [bind_ok hr] at hrun
    cases hrun
  · exact ⟨u, rfl⟩
  · rw [bind_halt hr] at hrun
    cases hrun

/-- A value is there where the rule reads one. -/
theorem Yields.optional (h : T.Yields r k a j) : T.Yields (optional r) k (some a) j := by
  refine ⟨h.le, h.le_length, fun s hs => ?_⟩
  obtain ⟨t, hrun, ht⟩ := h.run s hs
  exact ⟨t, by rw [Rule.optional, hrun], ht⟩

/-- No value is there where the rule misses, and the cursor is brought back. -/
theorem Misses.optional (h : T.Misses r k) (hk : k ≤ T.length) :
    T.Yields (Rule.optional r) k none k := by
  refine ⟨le_rfl, hk, fun s hs => ?_⟩
  obtain ⟨t, hrun⟩ := h s hs
  exact ⟨{ t with cursor := s.cursor }, by rw [Rule.optional, hrun], hs⟩

theorem Yields.attempt (h : T.Yields r k a j) : T.Yields (attempt r) k a j := by
  refine ⟨h.le, h.le_length, fun s hs => ?_⟩
  obtain ⟨t, hrun, ht⟩ := h.run s hs
  exact ⟨t, by rw [Rule.attempt, hrun], ht⟩

/-- An attempt reads no more than its rule. -/
theorem Yields.of_attempt (h : T.Yields (Rule.attempt r) k a j) : T.Yields r k a j := by
  refine ⟨h.le, h.le_length, fun s hs => ?_⟩
  obtain ⟨t, hrun, ht⟩ := h.run s hs
  rw [Rule.attempt] at hrun
  rcases hr : r none s with ⟨b | _ | stop, u⟩ <;> rw [hr] at hrun
  · exact ⟨t, hrun, ht⟩
  · cases (Reply.mk.inj hrun).1
  · cases (Reply.mk.inj hrun).1

theorem Misses.attempt (h : T.Misses r k) : T.Misses (attempt r) k := by
  intro s hs
  obtain ⟨t, hrun⟩ := h s hs
  exact ⟨{ t with cursor := s.cursor }, by rw [Rule.attempt, hrun]⟩

/-- An attempt misses no more than its rule, only from where it began. -/
theorem Misses.of_attempt (h : T.Misses (Rule.attempt r) k) : T.Misses r k := by
  intro s hs
  obtain ⟨t, hrun⟩ := h s hs
  rw [Rule.attempt] at hrun
  rcases hr : r none s with ⟨b | _ | stop, u⟩ <;> rw [hr] at hrun
  · cases (Reply.mk.inj hrun).1
  · exact ⟨u, rfl⟩
  · cases (Reply.mk.inj hrun).1

/-- Without a limit, nesting changes the depth only. -/
theorem Yields.nested (h : T.Yields r k a j) : T.Yields (nested r) k a j := by
  refine ⟨h.le, h.le_length, fun s hs => ?_⟩
  obtain ⟨t, hrun, ht⟩ := h.run { s with depth := s.depth + 1 } hs
  exact ⟨{ t with depth := t.depth - 1 }, by rw [nested_none, deeper, hrun], ht⟩

theorem Misses.nested (h : T.Misses r k) : T.Misses (nested r) k := by
  intro s hs
  obtain ⟨t, hrun⟩ := h { s with depth := s.depth + 1 } hs
  exact ⟨{ t with depth := t.depth - 1 }, by rw [nested_none, deeper, hrun]⟩

theorem misses_fail (what : Expectation) (k : Nat) : T.Misses (fail (α := α) what) k :=
  fun s _ => ⟨s.expect what, rfl⟩

theorem yields_marking (hk : k ≤ T.length) (e : Position → Event) :
    T.Yields (marking e) k () k :=
  ⟨le_rfl, hk, fun s hs => ⟨s.log (e s.cursor.position), rfl, hs⟩⟩

/-- Noting something down moves no cursor. -/
theorem Yields.recording (h : T.Yields r k a j) (e : Position → α → Event) :
    T.Yields (recording e r) k a j := by
  refine ⟨h.le, h.le_length, fun s hs => ?_⟩
  obtain ⟨t, hrun, ht⟩ := h.run s hs
  refine ⟨t.log (e s.cursor.position a), ?_, ht⟩
  rw [Rule.recording, position_bind, bind_ok hrun]
  rfl

/-- A rule that misses has nothing noted down. -/
theorem Misses.recording (h : T.Misses r k) (e : Position → α → Event) :
    T.Misses (recording e r) k := by
  intro s hs
  obtain ⟨t, hrun⟩ := h s hs
  exact ⟨t, by rw [Rule.recording, position_bind, bind_miss hrun]⟩

/-- An alternative that reads something is the one that counts. -/
theorem Yields.firstOf (h : T.Yields r k a j) (last : Rule α) (rs : List (Rule α)) :
    T.Yields (firstOf last (r :: rs)) k a j :=
  h.optional.bind (yields_pure h.le_length a)

/-- Alternatives that miss do not count. -/
theorem Misses.firstOf_yields (h : T.Misses r k) {last : Rule α} {rs : List (Rule α)}
    (hrs : T.Yields (Rule.firstOf last rs) k a j) : T.Yields (Rule.firstOf last (r :: rs)) k a j :=
  (h.optional (hrs.le.trans hrs.le_length)).bind hrs

theorem Misses.firstOf (h : T.Misses r k) (hk : k ≤ T.length) {last : Rule α} {rs : List (Rule α)}
    (hrs : T.Misses (Rule.firstOf last rs) k) : T.Misses (Rule.firstOf last (r :: rs)) k :=
  (h.optional hk).bind_misses hrs

end Yields

/-! ## Lexical rules -/

section Lexical

variable {look : List Char → Answer α} {table : Option Token → Reading α} {k : Nat}

/-- A lexical rule reads the next token if its table takes it. -/
theorem yields_lexical (h : Lexical look table) {a : α} {t : Token} (ht : T.token? k = some t)
    (htable : table (some t) = .taken a) : T.Yields (lexical look) k a (k + 1) := by
  have hk : k < T.length := by
    rw [← T.length_tokens]
    exact (List.getElem?_eq_some_iff.mp ht).1
  refine ⟨Nat.le_succ k, hk, fun s hs => ⟨{ s with cursor := T.place (k + 1) }, ?_, rfl⟩⟩
  have hends := lexical_ends h hk.le hs none
  rw [ht, htable] at hends
  exact hends

/-- A lexical rule misses if its table leaves the next token, or refuses it. -/
theorem misses_lexical (h : Lexical look table) (hk : k ≤ T.length)
    (htable : table (T.token? k) = .missed ∨ ∃ what, table (T.token? k) = .refused what) :
    T.Misses (lexical look) k := by
  intro s hs
  have hends := lexical_ends h hk hs none
  rcases htable with htable | ⟨what, htable⟩ <;> rw [htable] at hends
  · exact ⟨s, hends⟩
  · exact ⟨s.expect what, hends⟩

end Lexical

/-! ## What may have been read -/

namespace Gives

variable {r : Rule α} {q : α → Rule β} {k : Nat} {P : α → Nat → Prop} {Q : β → Nat → Prop}

/-- Less may be said of all that is read. -/
theorem mono (h : T.Gives r k P) {P' : α → Nat → Prop} (hP : ∀ a j, k ≤ j → P a j → P' a j) :
    T.Gives r k P' := by
  intro s t a hs hrun
  obtain ⟨j, hkj, hj, ht, ha⟩ := h s t a hs hrun
  exact ⟨j, hkj, hj, ht, hP a j hkj ha⟩

/-- All that is read is the value that is handed in. -/
theorem pure {a : α} (hk : k ≤ T.length) (h : P a k) : T.Gives (pure a) k P := by
  intro s t b hs hrun
  obtain ⟨hb, rfl⟩ := Reply.mk.inj hrun
  exact ⟨k, le_rfl, hk, hs, Verdict.ok.inj hb ▸ h⟩

/-- What a sequence gives, its second rule gives behind something that the first one gives. -/
theorem bind (h : T.Gives r k P) (hq : ∀ a j, k ≤ j → j ≤ T.length → P a j → T.Gives (q a) j Q) :
    T.Gives (r >>= q) k Q := by
  intro s t b hs hrun
  obtain ⟨a, u, hr, hrun⟩ := bind_eq_ok hrun
  obtain ⟨j, hkj, hj, hu, ha⟩ := h s u a hs hr
  obtain ⟨l, hjl, hl, ht, hb⟩ := hq a j hkj hj ha u t b hu hrun
  exact ⟨l, hkj.trans hjl, hl, ht, hb⟩

/-- An optional rule reads what the rule does, or it misses. -/
theorem optional (h : T.Gives r k P) (hr : T.Kept r) (hk : k ≤ T.length) :
    T.Gives (optional r) k fun x j =>
      (∃ a, x = some a ∧ P a j) ∨ x = none ∧ j = k ∧ T.Misses r k := by
  intro s t x hs hrun
  rw [Rule.optional] at hrun
  rcases hx : r none s with ⟨a | _ | stop, u⟩ <;> rw [hx] at hrun
  · obtain ⟨ha, rfl⟩ := Reply.mk.inj hrun
    obtain ⟨j, hkj, hj, hu, hP⟩ := h s u a hs hx
    exact ⟨j, hkj, hj, hu, .inl ⟨a, (Verdict.ok.inj ha).symm, hP⟩⟩
  · obtain ⟨ha, rfl⟩ := Reply.mk.inj hrun
    exact ⟨k, le_rfl, hk, hs, .inr ⟨(Verdict.ok.inj ha).symm, rfl, hr.misses hk hs hx⟩⟩
  · cases (Reply.mk.inj hrun).1

/-- An attempt gives what its rule does. -/
theorem attempt (h : T.Gives r k P) : T.Gives (attempt r) k P := by
  intro s t a hs hrun
  exact h s t a hs (attempt_eq_ok hrun)

/-- Without a limit, nesting makes no difference to what is read. -/
theorem nested (h : T.Gives r k P) : T.Gives (nested r) k P := by
  intro s t a hs hrun
  rw [nested_none, deeper] at hrun
  rcases hx : r none { s with depth := s.depth + 1 } with ⟨v, u⟩
  rw [hx] at hrun
  obtain ⟨rfl, rfl⟩ := Reply.mk.inj hrun
  obtain ⟨j, hkj, hj, hu, ha⟩ := h { s with depth := s.depth + 1 } u a hs hx
  exact ⟨j, hkj, hj, hu, ha⟩

theorem recording {e : Position → α → Event} (h : T.Gives r k P) :
    T.Gives (recording e r) k P := by
  intro s t a hs hrun
  rw [Rule.recording, position_bind] at hrun
  obtain ⟨b, u, hb, hlog⟩ := bind_eq_ok hrun
  obtain ⟨hba, rfl⟩ := Reply.mk.inj (show (⟨.ok b, u.log _⟩ : Reply α) = _ from hlog)
  obtain ⟨j, hkj, hj, hu, ha⟩ := h s u b hs hb
  exact ⟨j, hkj, hj, hu, Verdict.ok.inj hba ▸ ha⟩

/-- Nothing is read by a rule that fails, so anything may be said of it. -/
theorem fail {what : Expectation} : T.Gives (Rule.fail what) k P := by
  intro s t a _ hrun
  cases (Reply.mk.inj hrun).1

theorem miss : T.Gives Rule.miss k P := by
  intro s t a _ hrun
  cases (Reply.mk.inj hrun).1

/-- What alternatives read is read by the first, or by the others after it has missed. -/
theorem firstOf {last : Rule α} {rs : List (Rule α)} (h : T.Gives r k P) (hr : T.Kept r)
    (hk : k ≤ T.length) (hrs : T.Misses r k → T.Gives (Rule.firstOf last rs) k P) :
    T.Gives (Rule.firstOf last (r :: rs)) k P := by
  refine (h.optional hr hk).bind fun x j _ hj hx => ?_
  rcases hx with ⟨a, rfl, ha⟩ | ⟨rfl, rfl, hmiss⟩
  · exact .pure hj ha
  · exact hrs hmiss

/-- What a lexical rule reads is the next token. -/
theorem lexical {look : List Char → Answer α} {table : Option Token → Reading α}
    (h : Lexical look table) (hk : k ≤ T.length) :
    T.Gives (lexical look) k fun a j =>
      ∃ t, T.token? k = some t ∧ table (some t) = .taken a ∧ j = k + 1 := by
  intro s t a hs hrun
  have hends := lexical_ends h hk hs none
  rcases hread : table (T.token? k) with b | _ | what | kind <;> rw [hread] at hends
  · rw [hrun] at hends
    obtain ⟨hb, rfl⟩ := Reply.mk.inj hends
    obtain rfl := Verdict.ok.inj hb
    rcases ht : T.token? k with _ | t
    · rw [ht] at hread
      exact absurd hread (h.not_taken_none a)
    · rw [ht] at hread
      exact ⟨k + 1, Nat.le_succ k, OnTracks.lt_of_token? hk ht, rfl, t, rfl, hread, rfl⟩
  · rw [hrun] at hends
    cases hends
  · rw [hrun] at hends
    cases hends
  · obtain ⟨e, -, -, he⟩ := hends
    rw [hrun] at he
    cases he

end Gives

/-! ## Rules that are kept -/

theorem Kept.pure (a : α) : T.Kept (pure a) := by
  rintro k hk s s' ⟨hs, hs'⟩ hmem
  exact ⟨rfl, ⟨k, le_rfl, hk, hs, hs'⟩, hmem⟩

/-- What the second rule does depends on the place to which the first one led. -/
theorem Kept.bind {r : Rule α} {q : α → Rule β} (h : T.Kept r) (hq : ∀ a, T.Kept (q a)) :
    T.Kept (r >>= q) := by
  intro k hk s s' hs hmem
  refine (Sim.bind (h k hk) fun a b hab => ?_) s s' hs hmem
  subst hab
  rintro u u' ⟨j, hkj, hj, hu, hu'⟩ hmem
  refine ((hq a j hj).weaken (fun _ _ h => h) ?_ fun _ _ h => h) u u' ⟨hu, hu'⟩ hmem
  rintro c c' ⟨l, hjl, hl, hc, hc'⟩
  exact ⟨l, hkj.trans hjl, hl, hc, hc'⟩

theorem Kept.of_attempt {r : Rule α} (h : T.Kept (Rule.attempt r)) : T.Kept r :=
  fun k hk => Sim.of_attempt (fun _ _ => trivial) (h k hk)

/-- Any two tracks may be compared if memory, depth and errors are not. -/
theorem onTracks_steady {T' : Track} {i : Nat} (h : i + T.length ≤ T'.length) :
    OnTracks .steady T T' i where
  limit := rfl
  limit' := rfl
  placed _ _ := trivial
  bound := h
  expect _ _ _ _ _ := trivial
  log _ _ _ := trivial
  depth _ _ _ := trivial
  raised _ _ _ := trivial
  halts_depth _ _ _ := trivial

/-- A lexical rule looks at one token, and passes it or nothing. -/
theorem kept_lexical {look : List Char → Answer α} {table : Option Token → Reading α}
    (h : Lexical look table) : T.Kept (lexical look) := by
  rintro k hk s s' ⟨hs, hs'⟩ hmem
  have O : OnTracks .steady T T 0 := onTracks_steady (Nat.zero_add _).le
  refine O.lexical h hk (by rw [Nat.zero_add]) (fun t a ht _ => ?_) hs (by rwa [Nat.zero_add]) hmem
  exact ⟨k + 1, Nat.le_succ k, OnTracks.lt_of_token? hk ht, rfl, by rw [Nat.zero_add]⟩

/-- **Rules of the full grammar are kept** by every track. -/
theorem kept_of_respected {R : Grammar.Knot → Rule α} (hr : Grammar.Respected R) :
    T.Kept (R Grammar.Knot.full) := by
  intro k hk
  have O : OnTracks .steady T T 0 := onTracks_steady (Nat.zero_add _).le
  have G : GuardedByLevel T T 0 fun _ j => k ≤ j := {
    near := fun _ _ => .inl (by rw [Nat.zero_add])
    step := fun hj _ _ _ => Nat.le_succ_of_le hj
    same := fun _ _ => by rw [Nat.zero_add]
    opening := fun hj _ => Nat.le_succ_of_le hj
    closing := fun _ hj _ => Nat.le_succ_of_le hj }
  have hkeeps := (O.placement G).keeps rfl rfl (fun _ _ => trivial) hr (T.length + 1)
  refine (hkeeps 1 (T.length + 1) le_rfl le_rfl).weaken ?_ ?_ fun _ _ h => h
  · rintro c c' ⟨rfl, rfl⟩
    exact ⟨k, hk, rfl, by rw [Nat.zero_add], le_rfl, by omega⟩
  · rintro c c' ⟨j, hj, rfl, rfl, hkj, -⟩
    exact ⟨j, hkj, hj, rfl, by rw [Nat.zero_add]⟩

end Track

end Michelson
