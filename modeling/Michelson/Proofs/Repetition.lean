import Michelson.Proofs.Outcome

/-!
# Tokens, lists and groups on a track

What the rules for single tokens make of a track, and what the rules make of it that
repeat others: braced lists, groups and runs.

* `Track.Items`, `Track.Rounds` and `Track.Series` tell the course of a repetition, with
  all that the rule misses on the way.
* A rule that repeats reads what its course tells, whatever the bound is, and whatever
  it reads has a course.
-/

namespace Michelson

open Rule

namespace Track

variable {T : Track} {α β σ ι : Type} {k j l : Nat}

/-- A rule that passes some token where it reads something. -/
def Passing (T : Track) (r : Rule α) : Prop := ∀ k a j, T.Yields r k a j → k < j

/-! ## Tokens -/

/-- A mark is read where it is the next token. -/
theorem yields_symbol {c : Char} (hc : c ∈ Token.marks) (h : T.token? k = some (.mark c)) :
    T.Yields (symbol c) k () (k + 1) := by
  rw [symbol_eq]
  exact yields_lexical (lexical_symbol hc) h (if_pos rfl)

/-- A mark is missed where another token comes next, or none. -/
theorem misses_symbol {c : Char} (hc : c ∈ Token.marks) (hk : k ≤ T.length)
    (h : T.token? k ≠ some (.mark c)) : T.Misses (symbol c) k := by
  rw [symbol_eq]
  refine misses_lexical (lexical_symbol hc) hk (.inr ?_)
  rcases ht : T.token? k with _ | t
  · exact ⟨_, rfl⟩
  · cases t with
    | mark d => exact ⟨_, if_neg fun hd => h (by rw [ht, hd])⟩
    | _ => exact ⟨_, rfl⟩

/-- A mark passes one token, itself. -/
theorem gives_symbol {c : Char} (hc : c ∈ Token.marks) (hk : k ≤ T.length) :
    T.Gives (symbol c) k fun _ j => T.token? k = some (.mark c) ∧ j = k + 1 := by
  rw [symbol_eq]
  refine (Gives.lexical (lexical_symbol hc) hk).mono ?_
  rintro _ _ - ⟨t, ht, htaken, rfl⟩
  rw [eq_mark_of_readSymbol htaken] at ht
  exact ⟨ht, rfl⟩

theorem kept_symbol {c : Char} (hc : c ∈ Token.marks) : T.Kept (symbol c) := by
  rw [symbol_eq]
  exact kept_lexical (lexical_symbol hc)

/-- A note is read where it is the next token, with the body that the token has. -/
theorem yields_note {σ : Sigil} {body : List Char} (h : T.token? k = some (.note σ body)) :
    T.Yields (Grammar.note σ) k (.named (String.ofList body)) (k + 1) := by
  rw [note_eq]
  exact yields_lexical (lexical_note σ) h (if_pos rfl)

theorem misses_note {σ : Sigil} (hk : k ≤ T.length)
    (h : ∀ body, T.token? k ≠ some (.note σ body)) : T.Misses (Grammar.note σ) k := by
  rw [note_eq]
  refine misses_lexical (lexical_note σ) hk (.inr ?_)
  rcases ht : T.token? k with _ | t
  · exact ⟨_, rfl⟩
  · cases t with
    | note τ body => exact ⟨_, if_neg fun hτ => h body (by rw [ht, hτ])⟩
    | _ => exact ⟨_, rfl⟩

/-- The note that is read has the sigil that is asked for. -/
theorem gives_note {σ : Sigil} (hk : k ≤ T.length) :
    T.Gives (Grammar.note σ) k fun n j => ∃ body, T.token? k = some (.note σ body) ∧
      n = .named (String.ofList body) ∧ j = k + 1 := by
  rw [note_eq]
  refine (Gives.lexical (lexical_note σ) hk).mono ?_
  rintro n _ - ⟨t, ht, htaken, rfl⟩
  cases t with
  | note τ body =>
    rw [readNote] at htaken
    split at htaken
    · rename_i hτ
      obtain rfl := Reading.taken.inj htaken
      subst hτ
      exact ⟨body, ht, rfl, rfl⟩
    · cases htaken
  | _ => cases htaken

theorem kept_note (σ : Sigil) : T.Kept (Grammar.note σ) := by
  rw [note_eq]
  exact kept_lexical (lexical_note σ)

/-- Every note is a token. -/
theorem passing_note (σ : Sigil) : T.Passing (Grammar.note σ) := by
  intro k n j h
  obtain ⟨_, -, -, rfl⟩ := h.of_gives (gives_note (h.le.trans h.le_length))
  exact Nat.lt_succ_self k

section Word

variable {what : Expectation} {f : List Char → Option α} {late : Bool}

/-- A word is read where it is the next token and has a meaning. -/
theorem yields_word {w : List Char} {a : α} (h : T.token? k = some (.word w))
    (hf : f w = some a) : T.Yields (lexical (lookWord what f late)) k a (k + 1) := by
  refine yields_lexical (lexical_word what f late) h ?_
  rw [readWord, Option.bind_some, Token.letters?]
  dsimp only
  rw [hf]

/-- A word without a meaning is missed as well as what is no word. -/
theorem misses_word (hk : k ≤ T.length) (h : ∀ w, T.token? k = some (.word w) → f w = none) :
    T.Misses (lexical (lookWord what f late)) k := by
  refine misses_lexical (lexical_word what f late) hk (.inr ⟨what, ?_⟩)
  rcases ht : T.token? k with _ | t
  · rfl
  · cases t with
    | word w =>
      rw [readWord, Option.bind_some, Token.letters?]
      dsimp only
      rw [h w ht]
    | _ => rfl

/-- All that is read from a word is its meaning. -/
theorem gives_word (hk : k ≤ T.length) :
    T.Gives (lexical (lookWord what f late)) k fun a j =>
      ∃ w, T.token? k = some (.word w) ∧ f w = some a ∧ j = k + 1 := by
  refine (Gives.lexical (lexical_word what f late) hk).mono ?_
  rintro a _ - ⟨t, ht, htaken, rfl⟩
  cases t with
  | word w =>
    rw [readWord, Option.bind_some, Token.letters?] at htaken
    dsimp only at htaken
    rcases hw : f w with _ | b <;> rw [hw] at htaken
    · cases htaken
    · obtain rfl := Reading.taken.inj htaken
      exact ⟨w, ht, hw, rfl⟩
  | _ => cases htaken

end Word

/-! ## Braced lists -/

section Braced

variable {r : Rule α} {a : α} {as : List α}

/-- The items of a braced list behind the opening brace, and the place behind the
closing one. -/
inductive Items (T : Track) (r : Rule α) : Nat → List α → Nat → Prop
  | last {k j : Nat} {a : α} (h : T.Yields r k a j) (hend : T.token? j = some (.mark '}')) :
      Items T r k [a] (j + 1)
  | lastSemicolon {k j : Nat} {a : α} (h : T.Yields r k a j)
      (hsemi : T.token? j = some (.mark ';')) (hend : T.token? (j + 1) = some (.mark '}')) :
      Items T r k [a] (j + 2)
  | more {k j l : Nat} {a : α} {as : List α} (h : T.Yields r k a j)
      (hsemi : T.token? j = some (.mark ';')) (hgo : T.token? (j + 1) ≠ some (.mark '}'))
      (hmore : Items T r (j + 1) as l) : Items T r k (a :: as) l

/-- What a braced list reads. -/
def Braced (T : Track) (r : Rule α) (k : Nat) (as : List α) (j : Nat) : Prop :=
  T.token? k = some (.mark '{') ∧
    (as = [] ∧ T.token? (k + 1) = some (.mark '}') ∧ j = k + 2 ∨
      T.token? (k + 1) ≠ some (.mark '}') ∧ T.Items r (k + 1) as j)

/-- There is a place behind each token. -/
theorem le_of_token? {t : Token} (h : T.token? k = some t) : k + 1 ≤ T.length := by
  rw [← T.length_tokens]
  exact (List.getElem?_eq_some_iff.mp h).1

/-- The closing brace at least is passed. -/
theorem Items.lt (h : T.Items r k as j) : k < j := by
  induction h with
  | last h _ => exact Nat.lt_succ_of_le h.le
  | lastSemicolon h _ _ => exact Nat.lt_succ_of_le (h.le.trans (Nat.le_succ _))
  | more h _ _ _ ih => exact (Nat.lt_succ_of_le h.le).trans ih

theorem Braced.lt (h : T.Braced r k as j) : k < j := by
  obtain ⟨-, ⟨-, -, rfl⟩ | ⟨-, hitems⟩⟩ := h
  · omega
  · exact (Nat.lt_succ_self k).trans hitems.lt

/-- A bound that reaches beyond the end of a track is met at no place of it. -/
theorem Yields.exists_bound {a : α} (h : T.Yields r k a j) {bound : Nat}
    (hbound : T.length < k + bound) : ∃ n, bound = n + 1 :=
  ⟨bound - 1, by have := h.le; have := h.le_length; omega⟩

theorem Items.yields (h : T.Items r k as j) :
    ∀ bound, T.length < k + bound → T.Yields (bracedItems r bound) k as j := by
  -- every item leaves less of the track, so the bound is never met
  induction h with
  | @last k j a h hend =>
    intro bound hbound
    obtain ⟨bound, rfl⟩ := h.exists_bound hbound
    have hj := le_of_token? hend
    have hmiss : T.Misses (symbol ';') j :=
      misses_symbol (by decide) h.le_length (by rw [hend]; decide)
    refine h.bind ((hmiss.optional h.le_length).bind ?_)
    exact (yields_symbol (by decide) hend).bind (yields_pure hj _)
  | @lastSemicolon k j a h hsemi hend =>
    intro bound hbound
    obtain ⟨bound, rfl⟩ := h.exists_bound hbound
    refine h.bind ((yields_symbol (by decide) hsemi).optional.bind ?_)
    exact (yields_symbol (by decide) hend).optional.bind (yields_pure (le_of_token? hend) _)
  | @more k j l a as h hsemi hgo hmore ih =>
    intro bound hbound
    obtain ⟨bound, rfl⟩ := h.exists_bound hbound
    have hj := le_of_token? hsemi
    have hmiss : T.Misses (symbol '}') (j + 1) := misses_symbol (by decide) hj hgo
    have hle := h.le
    refine h.bind ((yields_symbol (by decide) hsemi).optional.bind ?_)
    refine (hmiss.optional hj).bind ((ih bound (by omega)).bind ?_)
    exact yields_pure (ih bound (by omega)).le_length _

theorem Items.gives (hr : ∀ i, k ≤ i → i ≤ T.length → T.Gives r i (T.Yields r i)) (bound : Nat) :
    k ≤ T.length → T.Gives (bracedItems r bound) k (T.Items r k) := by
  -- the course has a step for each way in which an item may be followed
  induction bound generalizing k with
  | zero =>
    intro _ s t as _ hrun
    cases (Reply.mk.inj hrun).1
  | succ bound ih =>
    intro hk
    refine (hr k le_rfl hk).bind fun a j hkj hj ha => ?_
    refine ((gives_symbol (by decide) hj).optional (kept_symbol (by decide)) hj).bind
      fun x i hji hi hx => ?_
    rcases hx with ⟨_, rfl, hsemi, rfl⟩ | ⟨rfl, rfl, -⟩
    · refine ((gives_symbol (by decide) hi).optional (kept_symbol (by decide)) hi).bind
        fun y i' _ hi' hy => ?_
      rcases hy with ⟨_, rfl, hend, rfl⟩ | ⟨rfl, rfl, hmiss⟩
      · exact .pure hi' (.lastSemicolon ha hsemi hend)
      · have hgo : T.token? (j + 1) ≠ some (.mark '}') := fun hend =>
          (yields_symbol (by decide) hend).not_misses hmiss
        refine (ih (fun i h => hr i (by omega)) hi').bind fun as l _ hl has => ?_
        exact .pure hl (.more ha hsemi hgo has)
    · refine (gives_symbol (by decide) hi).bind fun _ i' _ hi' hend => ?_
      obtain ⟨hend, rfl⟩ := hend
      exact .pure hi' (.last ha hend)

/-- A look at the rest of the text changes nothing. -/
theorem yields_rest_bind {q : List Char → Rule α} (h : T.Yields (q (T.place k).rest) k a j) :
    T.Yields (rest >>= q) k a j := by
  refine ⟨h.le, h.le_length, fun s hs => ?_⟩
  rw [rest_bind, hs]
  exact h.run s hs

theorem gives_rest_bind {q : List Char → Rule α} {P : α → Nat → Prop}
    (h : ∀ cs, T.Gives (q cs) k P) : T.Gives (rest >>= q) k P := by
  intro s t a hs hrun
  exact h s.cursor.rest s t a hs hrun

theorem misses_rest_bind {q : List Char → Rule α} (h : T.Misses (q (T.place k).rest) k) :
    T.Misses (rest >>= q) k := by
  intro s hs
  rw [rest_bind, hs]
  exact h s hs

/-- **Braced lists.** A list in braces is read as its course says. -/
theorem Braced.yields (h : T.Braced r k as j) : T.Yields (braced r) k as j := by
  obtain ⟨hopen, ⟨rfl, hend, rfl⟩ | ⟨hgo, hitems⟩⟩ := h
  · refine Yields.attempt ((yields_symbol (by decide) hopen).bind ?_)
    exact (yields_symbol (by decide) hend).optional.bind (yields_pure (le_of_token? hend) _)
  · have hk := le_of_token? hopen
    refine Yields.attempt ((yields_symbol (by decide) hopen).bind ?_)
    refine ((misses_symbol (by decide) hk hgo).optional hk).bind (yields_rest_bind ?_)
    have hrest := T.le_length_rest (k + 1)
    exact hitems.yields _ (by omega)

/-- The other way round, all that is read in braces has a course. -/
theorem Braced.gives (hr : ∀ i, k < i → i ≤ T.length → T.Gives r i (T.Yields r i))
    (hk : k ≤ T.length) : T.Gives (braced r) k (T.Braced r k) := by
  refine Gives.attempt ((gives_symbol (by decide) hk).bind fun _ i _ hi hopen => ?_)
  obtain ⟨hopen, rfl⟩ := hopen
  refine ((gives_symbol (by decide) hi).optional (kept_symbol (by decide)) hi).bind
    fun x j _ hj hx => ?_
  rcases hx with ⟨_, rfl, hend, rfl⟩ | ⟨rfl, rfl, hmiss⟩
  · exact .pure hj ⟨hopen, .inl ⟨rfl, hend, rfl⟩⟩
  · have hgo : T.token? (k + 1) ≠ some (.mark '}') := fun hend =>
      (yields_symbol (by decide) hend).not_misses hmiss
    refine gives_rest_bind fun cs => ?_
    refine (Items.gives (fun i h => hr i h) _ hi).mono fun as j _ has => ?_
    exact ⟨hopen, .inr ⟨hgo, has⟩⟩

/-- No list is read where no brace comes next. -/
theorem misses_braced (hk : k ≤ T.length) (h : T.token? k ≠ some (.mark '{')) :
    T.Misses (braced r) k :=
  ((misses_symbol (by decide) hk h).bind _).attempt

/-- What is read item by item is read in parts of a list. -/
theorem Items.exists_yields (h : T.Items r k as j) :
    ∀ a ∈ as, ∃ i i', k ≤ i ∧ T.Yields r i a i' := by
  induction h with
  | last h _ => exact List.forall_mem_singleton.mpr ⟨_, _, le_rfl, h⟩
  | lastSemicolon h _ _ => exact List.forall_mem_singleton.mpr ⟨_, _, le_rfl, h⟩
  | more h _ _ _ ih =>
    refine List.forall_mem_cons.mpr ⟨⟨_, _, le_rfl, h⟩, fun a ha => ?_⟩
    obtain ⟨i, i', hi, ha⟩ := ih a ha
    exact ⟨i, i', (h.le.trans (Nat.le_succ _)).trans hi, ha⟩

/-- A list is read item by item by another rule that reads each item in the same place. -/
theorem Items.exists_forall₂ {q : Rule β} {R : α → β → Prop} (h : T.Items r k as j)
    (hq : ∀ a ∈ as, ∀ i i', k ≤ i → T.Yields r i a i' → ∃ b, R a b ∧ T.Yields q i b i') :
    ∃ bs, List.Forall₂ R as bs ∧ T.Items q k bs j := by
  induction h with
  | @last k j a h hend =>
    obtain ⟨b, hab, hb⟩ := hq a List.mem_cons_self k j le_rfl h
    exact ⟨[b], .cons hab .nil, .last hb hend⟩
  | @lastSemicolon k j a h hsemi hend =>
    obtain ⟨b, hab, hb⟩ := hq a List.mem_cons_self k j le_rfl h
    exact ⟨[b], .cons hab .nil, .lastSemicolon hb hsemi hend⟩
  | @more k j l a as h hsemi hgo _ ih =>
    obtain ⟨b, hab, hb⟩ := hq a List.mem_cons_self k j le_rfl h
    have hle : k ≤ j + 1 := h.le.trans (Nat.le_succ j)
    obtain ⟨bs, hbs, hitems⟩ := ih fun a ha i i' hi =>
      hq a (List.mem_cons_of_mem _ ha) i i' (hle.trans hi)
    exact ⟨b :: bs, .cons hab hbs, .more hb hsemi hgo hitems⟩

/-- A rule that misses at one of the items, and reads the others in the same places,
misses the list. -/
theorem Items.misses {q : Rule β} (own : α → Prop) (h : T.Items r k as j)
    (hown : ∀ a ∈ as, ∀ i i', k ≤ i → T.Yields r i a i' →
      own a ∧ T.Misses q i ∨ ¬own a ∧ ∃ b, T.Yields q i b i') (hex : ∃ a ∈ as, own a) :
    ∀ bound, T.length < k + bound → T.Misses (bracedItems q bound) k := by
  induction h with
  | @last k j a h _ | @lastSemicolon k j a h _ _ =>
    intro bound hbound
    obtain ⟨bound, rfl⟩ := h.exists_bound hbound
    obtain ⟨b, hb, hown'⟩ := hex
    obtain rfl := List.mem_singleton.mp hb
    rcases hown b hb k j le_rfl h with ⟨-, hmiss⟩ | ⟨hnot, -⟩
    · exact hmiss.bind _
    · exact absurd hown' hnot
  | @more k j l a as h hsemi hgo _ ih =>
    intro bound hbound
    obtain ⟨bound, rfl⟩ := h.exists_bound hbound
    have hle := h.le
    have hj := le_of_token? hsemi
    rcases hown a List.mem_cons_self k j le_rfl h with ⟨-, hmiss⟩ | ⟨hnot, b, hb⟩
    · exact hmiss.bind _
    · have hex' : ∃ a ∈ as, own a := by
        obtain ⟨c, hc, hown'⟩ := hex
        rcases List.mem_cons.mp hc with rfl | hc
        · exact absurd hown' hnot
        · exact ⟨c, hc, hown'⟩
      have hmore := ih (fun a ha i i' hi => hown a (List.mem_cons_of_mem _ ha) i i' (by omega)) hex'
        bound (by omega)
      have hclose : T.Misses (symbol '}') (j + 1) := misses_symbol (by decide) hj hgo
      refine hb.bind_misses ((yields_symbol (by decide) hsemi).optional.bind_misses ?_)
      exact (hclose.optional hj).bind_misses (hmore.bind _)

/-- A list in braces is missed where its items are. -/
theorem misses_braced_of_items (hopen : T.token? k = some (.mark '{'))
    (hgo : T.token? (k + 1) ≠ some (.mark '}'))
    (h : ∀ bound, T.length < k + 1 + bound → T.Misses (bracedItems r bound) (k + 1)) :
    T.Misses (braced r) k := by
  have hk := le_of_token? hopen
  have hrest := T.le_length_rest (k + 1)
  refine Misses.attempt ((yields_symbol (by decide) hopen).bind_misses ?_)
  refine ((misses_symbol (by decide) hk hgo).optional hk).bind_misses ?_
  exact misses_rest_bind (h _ (by omega))

/-- A list in braces is missed where its first item is. -/
theorem misses_braced_of_item (hopen : T.token? k = some (.mark '{'))
    (hgo : T.token? (k + 1) ≠ some (.mark '}')) (h : T.Misses r (k + 1)) :
    T.Misses (braced r) k := by
  have hk := le_of_token? hopen
  refine misses_braced_of_items hopen hgo fun bound hbound => ?_
  obtain ⟨bound, rfl⟩ : ∃ n, bound = n + 1 := ⟨bound - 1, by omega⟩
  exact h.bind _

/-- The items of a list stand behind its brace. -/
theorem Braced.exists_yields (h : T.Braced r k as j) :
    ∀ a ∈ as, ∃ i i', k < i ∧ T.Yields r i a i' := by
  obtain ⟨-, ⟨rfl, -, -⟩ | ⟨-, hitems⟩⟩ := h
  · exact fun a ha => absurd ha List.not_mem_nil
  · exact hitems.exists_yields

end Braced

/-! ## Groups -/

section Group

variable {r : Rule α} {a : α} {P : α → Nat → Prop}

theorem Yields.slot (h : T.Yields r k a j) (put : α → σ → σ) :
    T.Yields (slot r put) k (put a) j := h.map _

/-- A member of a group misses where its rule does. -/
theorem Misses.slot (h : T.Misses r k) (put : α → σ → σ) : T.Misses (slot r put) k := h.bind _

/-- A member of a group puts in what its rule gives. -/
theorem Gives.slot (h : T.Gives r k P) (put : α → σ → σ) :
    T.Gives (slot r put) k fun u j => ∃ a, u = put a ∧ P a j :=
  h.bind fun a _ _ hj ha => .pure hj ⟨a, rfl, ha⟩

/-- A member of a group is kept if its rule is. -/
theorem Kept.slot {r : Rule α} (h : T.Kept r) (put : α → σ → σ) : T.Kept (slot r put) :=
  h.bind fun a => .pure (put a)

theorem Passing.slot (h : T.Passing r) (hr : T.Kept r) (put : α → σ → σ) :
    T.Passing (slot r put) := by
  intro k u j hu
  have hk := hu.le.trans hu.le_length
  obtain ⟨a, -, ha⟩ := hu.of_gives ((hr.gives hk).slot put)
  exact h k a j ha

/-- A reading that passes a token has moved the offset, so it counts. -/
theorem Yields.advancing (h : T.Yields r k a j) (hkj : k < j) :
    T.Yields (advancing r) k (some a) j := by
  refine ⟨h.le, h.le_length, fun s hs => ?_⟩
  obtain ⟨t, hrun, ht⟩ := h.run s hs
  refine ⟨t, ?_, ht⟩
  have hlt : t.cursor.position.offset > s.cursor.position.offset := by
    rw [ht, hs]
    exact T.offset_lt hkj h.le_length
  rw [Rule.advancing, cursor_bind, Rule.optional_bind, hrun]
  dsimp only
  rw [cursor_bind, if_pos hlt]
  rfl

/-- A miss leaves the cursor where it was. -/
theorem Misses.advancing (h : T.Misses r k) (hk : k ≤ T.length) :
    T.Yields (advancing r) k none k := by
  refine ⟨le_rfl, hk, fun s hs => ?_⟩
  obtain ⟨t, hrun⟩ := h s hs
  refine ⟨{ t with cursor := s.cursor }, ?_, hs⟩
  rw [Rule.advancing, cursor_bind, Rule.optional_bind, hrun]
  rfl

/-- On a track a rule either advances or misses, as readings pass tokens. -/
theorem Gives.advancing (hr : T.Kept r) (hp : T.Passing r) (hk : k ≤ T.length) :
    T.Gives (advancing r) k fun x j =>
      (∃ a, x = some a ∧ T.Yields r k a j) ∨ x = none ∧ j = k ∧ T.Misses r k := by
  intro s t x hs hrun
  rcases hx : r none s with ⟨a | _ | stop, u⟩
  · obtain ⟨j, hkj, hj, -, ha⟩ := hr.gives hk s u a hs hx
    obtain ⟨t', hrun', ht'⟩ := (ha.advancing (hp k a j ha)).run s hs
    obtain ⟨hxa, rfl⟩ := Reply.mk.inj (hrun'.symm.trans hrun)
    exact ⟨j, hkj, hj, ht', .inl ⟨a, (Verdict.ok.inj hxa).symm, ha⟩⟩
  · have hmiss := hr.misses hk hs hx
    obtain ⟨t', hrun', ht'⟩ := (hmiss.advancing hk).run s hs
    obtain ⟨hxa, rfl⟩ := Reply.mk.inj (hrun'.symm.trans hrun)
    exact ⟨k, le_rfl, hk, ht', .inr ⟨(Verdict.ok.inj hxa).symm, rfl, hmiss⟩⟩
  · rw [Rule.advancing, cursor_bind, Rule.optional_bind, hx] at hrun
    cases (Reply.mk.inj hrun).1

variable {member : ι → Rule (σ → σ)} {is : List ι}

/-- The course of a group: in each round the first of the members left that does not miss
is taken, and in the end all that are left miss. -/
inductive Rounds (T : Track) (member : ι → Rule (σ → σ)) : List ι → Nat → σ → σ → Nat → Prop
  | stop {is : List ι} {k : Nat} {x : σ} (h : ∀ i ∈ is, T.Misses (member i) k) :
      Rounds T member is k x x k
  | round {before after : List ι} {i : ι} {k j l : Nat} {u : σ → σ} {x y : σ}
      (hbefore : ∀ i ∈ before, T.Misses (member i) k) (h : T.Yields (member i) k u j)
      (hmore : Rounds T member (before ++ after) j (u x) y l) :
      Rounds T member (before ++ i :: after) k x y l

/-- A round takes no member if all of them miss. -/
theorem yields_firstAdvancing_none (hk : k ≤ T.length) (h : ∀ i ∈ is, T.Misses (member i) k) :
    T.Yields (firstAdvancing (is.map member)) k none k := by
  induction is with
  | nil => exact yields_pure hk _
  | cons i is ih =>
    obtain ⟨hi, his⟩ := List.forall_mem_cons.mp h
    exact (hi.advancing hk).bind ((ih his).bind (yields_pure hk _))

/-- A round takes the first member that reads something, and keeps the others in order. -/
theorem yields_firstAdvancing_some {before after : List ι} {i : ι} {u : σ → σ} (hkj : k < j)
    (hbefore : ∀ i ∈ before, T.Misses (member i) k) (h : T.Yields (member i) k u j) :
    T.Yields (firstAdvancing ((before ++ i :: after).map member)) k
      (some (u, (before ++ after).map member)) j := by
  induction before with
  | nil => exact (h.advancing hkj).bind (yields_pure h.le_length _)
  | cons b before ih =>
    obtain ⟨hb, hbefore⟩ := List.forall_mem_cons.mp hbefore
    have hk := h.le.trans h.le_length
    exact (hb.advancing hk).bind ((ih hbefore).bind (yields_pure h.le_length _))

/-- The other way round, by induction on the members. -/
theorem gives_firstAdvancing (hm : ∀ i, T.Kept (member i)) (hp : ∀ i, T.Passing (member i))
    (hk : k ≤ T.length) : T.Gives (firstAdvancing (is.map member)) k fun x j =>
      (∃ before i after u, is = before ++ i :: after ∧ x = some (u, (before ++ after).map member) ∧
        (∀ i ∈ before, T.Misses (member i) k) ∧ T.Yields (member i) k u j) ∨
      x = none ∧ j = k ∧ ∀ i ∈ is, T.Misses (member i) k := by
  induction is with
  | nil => exact .pure hk (.inr ⟨rfl, rfl, fun i hi => absurd hi List.not_mem_nil⟩)
  | cons i is ih =>
    refine (Gives.advancing (hm i) (hp i) hk).bind fun x j _ hj hx => ?_
    rcases hx with ⟨u, rfl, hu⟩ | ⟨rfl, rfl, hmiss⟩
    · exact .pure hj (.inl ⟨[], i, is, u, rfl, rfl, fun i hi => absurd hi List.not_mem_nil, hu⟩)
    · refine ih.bind fun y j' _ hj' hy => ?_
      rcases hy with ⟨before, b, after, u, rfl, rfl, hbefore, hu⟩ | ⟨rfl, rfl, hmore⟩
      · exact .pure hj' (.inl ⟨i :: before, b, after, u, rfl, rfl,
          List.forall_mem_cons.mpr ⟨hmiss, hbefore⟩, hu⟩)
      · exact .pure hj' (.inr ⟨rfl, rfl, List.forall_mem_cons.mpr ⟨hmiss, hmore⟩⟩)

/-- Every round but the last takes a member out, so there are enough rounds. -/
theorem Rounds.yields_within {x y : σ} (h : T.Rounds member is k x y l) (hk : k ≤ T.length)
    (hp : ∀ i, T.Passing (member i)) :
    ∀ rounds, is.length ≤ rounds → T.Yields (groupWithin rounds (is.map member) x) k y l := by
  induction h with
  | @stop is k x h =>
    intro rounds _
    cases rounds with
    | zero => exact yields_pure hk _
    | succ rounds => exact (yields_firstAdvancing_none hk h).bind (yields_pure hk _)
  | @round before after i k j l u x y hbefore h _ ih =>
    intro rounds hrounds
    rw [List.length_append, List.length_cons] at hrounds
    obtain ⟨rounds, rfl⟩ : ∃ n, rounds = n + 1 := ⟨rounds - 1, by omega⟩
    have hmore := ih h.le_length rounds (by rw [List.length_append]; omega)
    exact (yields_firstAdvancing_some (hp i _ _ _ h) hbefore h).bind hmore

theorem Rounds.gives_within (hm : ∀ i, T.Kept (member i)) (hp : ∀ i, T.Passing (member i))
    (rounds : Nat) : ∀ {is : List ι} {k : Nat} {x : σ}, is.length ≤ rounds → k ≤ T.length →
      T.Gives (groupWithin rounds (is.map member) x) k (T.Rounds member is k x) := by
  induction rounds with
  | zero =>
    intro is k x his hk
    obtain rfl := List.length_eq_zero_iff.mp (Nat.le_zero.mp his)
    exact .pure hk (.stop fun i hi => absurd hi List.not_mem_nil)
  | succ rounds ih =>
    intro is k x his hk
    refine (gives_firstAdvancing hm hp hk).bind fun z j _ hj hz => ?_
    rcases hz with ⟨before, i, after, u, rfl, rfl, hbefore, hu⟩ | ⟨rfl, rfl, hall⟩
    · rw [List.length_append, List.length_cons] at his
      refine (ih (by rw [List.length_append]; omega) hj).mono fun y l _ hmore => ?_
      exact .round hbefore hu hmore
    · exact .pure hj (.stop hall)

/-- What each round keeps holds in the end. -/
theorem Rounds.invariant {I : List ι → σ → Prop} {x y : σ} (h : T.Rounds member is k x y l)
    (hx : I is x) (hstep : ∀ before i after p u q x, k ≤ p → (∀ b ∈ before, T.Misses (member b) p) →
      T.Yields (member i) p u q → I (before ++ i :: after) x → I (before ++ after) (u x)) :
    ∃ left, I left y := by
  induction h with
  | stop _ => exact ⟨_, hx⟩
  | round hbefore h _ ih =>
    refine ih (hstep _ _ _ _ _ _ _ le_rfl hbefore h hx) fun before i after p u q x hp => ?_
    exact hstep before i after p u q x (h.le.trans hp)

/-- **Groups.** A group is read as its course says. -/
theorem Rounds.yields {x y : σ} (h : T.Rounds member is k x y l) (hk : k ≤ T.length)
    (hp : ∀ i, T.Passing (member i)) : T.Yields (group (is.map member) x) k y l :=
  h.yields_within hk hp _ (List.length_map ..).ge

/-- The other way round, all that a group gathers has a course. -/
theorem Rounds.gives (hm : ∀ i, T.Kept (member i)) (hp : ∀ i, T.Passing (member i))
    (hk : k ≤ T.length) (x : σ) :
    T.Gives (group (is.map member) x) k (T.Rounds member is k x) :=
  Rounds.gives_within hm hp _ (List.length_map ..).ge hk

end Group

/-! ## Runs of one rule -/

section Series

variable {r : Rule α} {a : α} {as : List α}

/-- One reading of a rule after another, until it misses. -/
inductive Series (T : Track) (r : Rule α) : Nat → List α → Nat → Prop
  | stop {k : Nat} (h : T.Misses r k) : Series T r k [] k
  | more {k j l : Nat} {a : α} {as : List α} (h : T.Yields r k a j)
      (hmore : Series T r j as l) : Series T r k (a :: as) l

theorem Series.le (h : T.Series r k as l) : k ≤ l := by
  induction h with
  | stop _ => exact le_rfl
  | more h _ ih => exact h.le.trans ih

theorem Series.yields_within (h : T.Series r k as l) (hk : k ≤ T.length) (hp : T.Passing r) :
    ∀ bound, T.length < k + bound → T.Yields (manyWithin r bound) k as l := by
  -- each reading passes a token, so the bound is never met
  induction h with
  | stop h =>
    intro bound hbound
    obtain ⟨bound, rfl⟩ : ∃ n, bound = n + 1 := ⟨bound - 1, by omega⟩
    exact (h.optional hk).bind (yields_pure hk _)
  | more h _ ih =>
    intro bound hbound
    obtain ⟨bound, rfl⟩ : ∃ n, bound = n + 1 := ⟨bound - 1, by omega⟩
    have hlt := hp _ _ _ h
    have hmore := ih h.le_length bound (by omega)
    exact h.optional.bind (hmore.bind (yields_pure hmore.le_length _))

theorem Series.gives_within (hr : T.Kept r) (bound : Nat) : ∀ {k : Nat}, k ≤ T.length →
    T.Gives (manyWithin r bound) k (T.Series r k) := by
  induction bound with
  | zero =>
    intro k _ s t as _ hrun
    cases (Reply.mk.inj hrun).1
  | succ bound ih =>
    intro k hk
    refine ((hr.gives hk).optional hr hk).bind fun x j _ hj hx => ?_
    rcases hx with ⟨a, rfl, ha⟩ | ⟨rfl, rfl, hmiss⟩
    · exact (ih hj).bind fun as l _ hl has => .pure hl (.more ha has)
    · exact .pure hj (.stop hmiss)

/-- **Runs.** A rule that is run once or more reads what its course says. -/
theorem Series.yields (h : T.Series r k (a :: as) l) (hp : T.Passing r) :
    T.Yields (many1 r) k (a :: as) l := by
  cases h with
  | @more _ i _ _ _ h hmore =>
    refine h.attempt.bind (yields_rest_bind ?_)
    have hrest := T.le_length_rest i
    have hyields := hmore.yields_within h.le_length hp ((T.place i).rest.length + 1) (by omega)
    exact hyields.bind (yields_pure hyields.le_length _)

/-- The other way round, a run that is read has a course, of one reading at least. -/
theorem Series.gives (hr : T.Kept r) (hk : k ≤ T.length) :
    T.Gives (many1 r) k fun as l => as ≠ [] ∧ T.Series r k as l := by
  refine (hr.gives hk).attempt.bind fun a j _ hj ha => gives_rest_bind fun cs => ?_
  refine (Series.gives_within hr _ hj).bind fun as l _ hl has => ?_
  exact .pure hl ⟨List.cons_ne_nil a as, .more ha has⟩

/-- The first reading of a run passes a token already. -/
theorem Passing.many1 (hp : T.Passing r) (hr : T.Kept r) : T.Passing (many1 r) := by
  intro k as l h
  obtain ⟨hne, hseries⟩ := h.of_gives (Series.gives hr (h.le.trans h.le_length))
  cases hseries with
  | stop _ => exact absurd rfl hne
  | more hfirst hmore => exact (hp _ _ _ hfirst).trans_le hmore.le

/-- What is read in a run is read by the rule. -/
theorem Series.exists_yields (h : T.Series r k as l) :
    ∀ a ∈ as, ∃ i i', T.Yields r i a i' := by
  induction h with
  | stop _ => exact fun a ha => absurd ha List.not_mem_nil
  | more h _ ih => exact List.forall_mem_cons.mpr ⟨⟨_, _, h⟩, ih⟩

end Series

end Track

end Michelson
