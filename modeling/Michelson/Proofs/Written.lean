import Michelson.Proofs.Nodes
import Michelson.Source.Printer

/-!
# Written tokens

Source text is written as tokens, and what is written for a value is read as the value.
What stands behind the tokens counts only where the rule would go on with it.

* `Written` says that a rule reads some tokens as a value, wherever they stand.
* The lemmas in its namespace build it for a rule from its parts, in any style.
* `written_arranged` does so for a group, whose members are written in the order in which
  they are tried or, if none reads what is written for another one, in any order.
-/

namespace Michelson

open Rule Grammar

/-! ## Places by their tokens -/

namespace Track

variable {T : Track} {k : Nat} {t : Token} {ts : List Token}

/-- The tokens from a place to the end. -/
structure At (T : Track) (k : Nat) (ts : List Token) : Prop where
  le : k ≤ T.length
  drop : T.tokens.drop k = ts

/-- The next token is the first of those that are still to come. -/
theorem At.token? (h : T.At k ts) : T.token? k = ts.head? := by
  rw [Track.token?, ← List.head?_drop, h.drop]

/-- No word stands where a mark does. -/
theorem At.not_word {c : Char} (h : T.At k (.mark c :: ts)) {w : List Char} :
    T.token? k ≠ some (.word w) := by
  rw [h.token?]
  rintro ⟨⟩

theorem At.succ (h : T.At k (t :: ts)) : T.At (k + 1) ts := by
  refine ⟨le_of_token? h.token?, ?_⟩
  rw [← List.tail_drop, h.drop, List.tail_cons]

end Track

/-! ## What may follow -/

/-- Anything may follow. -/
def Any (_ : Option Token) : Prop := True

/-- No note of a sigil follows. -/
def NoNote (σ : Sigil) (next : Option Token) : Prop := ∀ body, next ≠ some (.note σ body)

/-- No note follows. -/
def Quiet (next : Option Token) : Prop := ∀ σ, NoNote σ next

/-- What follows an item of a list in braces. -/
def Closes (next : Option Token) : Prop := next = some (.mark ';') ∨ next = some (.mark '}')

/-- What closes a list is no note. -/
theorem Closes.quiet {next : Option Token} (h : Closes next) : Quiet next := by
  rcases h with rfl | rfl <;> rintro σ body ⟨⟩

/-- Whether a type, a value or a step can begin with a token. -/
def Token.isOpening : Token → Bool
  | note _ _ => false
  | mark c => c == '{' || c == '('
  | _ => true

/-- The tokens begin like a type, a value or a step. -/
def Opens (ts : List Token) : Prop := ∃ t us, ts = t :: us ∧ t.isOpening = true

namespace Opens

variable {ts : List Token}

/-- What begins with a token of its own begins with no note. -/
theorem quiet (h : Opens ts) (next : Option Token) : Quiet (ts.head?.or next) := by
  obtain ⟨t, us, rfl, ht⟩ := h
  intro σ body heq
  obtain rfl : t = .note σ body := Option.some.inj heq
  cases ht

theorem not_closing (h : Opens ts) : ts.head? ≠ some (.mark '}') := by
  obtain ⟨t, us, rfl, ht⟩ := h
  intro heq
  obtain rfl : t = .mark '}' := Option.some.inj heq
  cases ht

/-- How tokens begin does not depend on what follows them. -/
theorem append (h : Opens ts) (us : List Token) : Opens (ts ++ us) := by
  obtain ⟨t, vs, rfl, ht⟩ := h
  exact ⟨t, vs ++ us, rfl, ht⟩

/-- Parentheses open as well as the word between them does. -/
theorem around {t : Token} (ht : t.isOpening = true) (ts : List Token) (s : Style) :
    Opens (s.around (t :: ts)) := by
  rw [Style.around]
  cases s.parentheses [] with
  | zero => exact ⟨t, _, rfl, ht⟩
  | succ n => exact ⟨.mark '(', _, rfl, rfl⟩

/-- A list in braces is read item by item, in every style. -/
theorem braced (s : Style) (items : List (List Token)) : Opens (s.braced items) :=
  ⟨.mark '{', _, rfl, rfl⟩

end Opens

/-! ## Written tokens -/

variable {α β σ ι : Type} {F G : Option Token → Prop} {r : Rule α} {q : α → Rule β}
  {t : Token} {ts us : List Token} {a : α} {b : β}

/-- The tokens are read as the value, and the rule stops behind them, if what follows is
as said. -/
structure Written (F : Option Token → Prop) (r : Rule α) (ts : List Token) (a : α) : Prop where
  valid : ∀ t ∈ ts, t.isValid = true
  reads {T : Track} {k : Nat} {rest : List Token} : T.At k (ts ++ rest) → F rest.head? →
    ∃ j, T.Yields r k a j ∧ T.At j rest

theorem written_pure (a : α) : Written F (pure a) [] a where
  valid := fun _ h => absurd h List.not_mem_nil
  reads := fun hat _ => ⟨_, Track.yields_pure hat.le a, hat⟩

namespace Written

/-- Less may be allowed to follow. -/
theorem mono (h : Written F r ts a) (hFG : ∀ next, G next → F next) : Written G r ts a where
  valid := h.valid
  reads := fun hat hnext => h.reads hat (hFG _ hnext)

/-- Behind the first rule stands what the second one is to read. -/
theorem bind (h : Written F r ts a) (hq : Written G (q a) us b)
    (hF : ∀ next, G next → F (us.head?.or next)) : Written G (r >>= q) (ts ++ us) b where
  valid := List.forall_mem_append.mpr ⟨h.valid, hq.valid⟩
  reads := by
    intro T k rest hat hnext
    rw [List.append_assoc] at hat
    obtain ⟨i, hi, hat⟩ := h.reads hat (List.head?_append ▸ hF _ hnext)
    obtain ⟨j, hj, hat⟩ := hq.reads hat hnext
    exact ⟨j, hi.bind hj, hat⟩

/-- A token that is read whatever follows, and more tokens. -/
theorem before (h : Written Any r [t] a) (hq : Written F (q a) us b) :
    Written F (r >>= q) (t :: us) b := h.bind hq fun _ _ => trivial

/-- Notes, and a part that begins with none. -/
theorem part (h : Written Quiet r ts a) (hus : Opens us) (hq : Written F (q a) us b) :
    Written F (r >>= q) (ts ++ us) b := h.bind hq fun next _ => hus.quiet next

/-- A part behind which no more tokens are read. -/
theorem last (h : Written F r ts a) (hq : Written F (q a) [] b) : Written F (r >>= q) ts b := by
  have hbind := h.bind hq fun _ hnext => hnext
  rwa [List.append_nil] at hbind

theorem map (h : Written F r ts a) (f : α → β) :
    Written F (r >>= fun a => pure (f a)) ts (f a) := h.last (written_pure (f a))

theorem attempt (h : Written F r ts a) : Written F (attempt r) ts a where
  valid := h.valid
  reads := fun hat hnext => by
    obtain ⟨j, hj, hat⟩ := h.reads hat hnext
    exact ⟨j, hj.attempt, hat⟩

theorem nested (h : Written F r ts a) : Written F (nested r) ts a where
  valid := h.valid
  reads := fun hat hnext => by
    obtain ⟨j, hj, hat⟩ := h.reads hat hnext
    exact ⟨j, hj.nested, hat⟩

/-- What is written is read, so the option is taken. -/
theorem optional (h : Written F r ts a) : Written F (optional r) ts (some a) where
  valid := h.valid
  reads := fun hat hnext => by
    obtain ⟨j, hj, hat⟩ := h.reads hat hnext
    exact ⟨j, hj.optional, hat⟩

/-- The alternative that reads the tokens. -/
theorem firstOf (h : Written F r ts a) (last : Rule α) (rs : List (Rule α)) :
    Written F (firstOf last (r :: rs)) ts a where
  valid := h.valid
  reads := fun hat hnext => by
    obtain ⟨j, hj, hat⟩ := h.reads hat hnext
    exact ⟨j, hj.firstOf last rs, hat⟩

/-- An alternative that misses at the tokens does not count. -/
theorem skip {last : Rule α} {rs : List (Rule α)} (h : Written F (Rule.firstOf last rs) ts a)
    (hmiss : ∀ {T : Track} {k : Nat} {rest : List Token}, T.At k (ts ++ rest) → T.Misses r k) :
    Written F (Rule.firstOf last (r :: rs)) ts a where
  valid := h.valid
  reads := fun hat hnext => by
    obtain ⟨j, hj, hat'⟩ := h.reads hat hnext
    exact ⟨j, (hmiss hat).firstOf_yields hj, hat'⟩

end Written

/-! ## Single tokens -/

/-- A token that the table takes is read, whatever follows it. -/
theorem written_lexical {look : List Char → Answer α} {table : Option Token → Reading α}
    (h : Lexical look table) (hv : t.isValid = true) (ht : table (some t) = .taken a) :
    Written Any (lexical look) [t] a where
  valid := List.forall_mem_singleton.mpr hv
  reads := fun hat _ => ⟨_, Track.yields_lexical h hat.token? ht, hat.succ⟩

theorem written_symbol {c : Char} (hc : c ∈ Token.marks) : Written Any (symbol c) [.mark c] () := by
  rw [symbol_eq]
  refine written_lexical (lexical_symbol hc) ?_ (if_pos rfl)
  simpa [Token.isValid, Token.marks] using hc

theorem written_word {what : Expectation} {f : List Char → Option α} {late : Bool} {w : List Char}
    (hv : (Token.word w).isValid = true) (hf : f w = some a) :
    Written Any (lexical (lookWord what f late)) [.word w] a where
  valid := List.forall_mem_singleton.mpr hv
  reads := fun hat _ => ⟨_, Track.yields_word hat.token? hf, hat.succ⟩

/-- A keyword is read as the word that it is. -/
theorem written_keyword {name : String} (hv : (Token.ofWord name).isValid = true) :
    Written Any (keyword name) [.ofWord name] () := by
  rw [keyword_eq]
  exact written_word hv (if_pos rfl)

/-! ## Parentheses -/

namespace Written

variable {plain : Rule α}

/-- A closing parenthesis follows, which is no note. -/
theorem parenthesized (hr : Track.Wraps r plain) (h : Written Quiet r ts a) :
    Written Quiet r (.mark '(' :: (ts ++ [.mark ')'])) a where
  valid := by
    refine List.forall_mem_cons.mpr ⟨rfl, List.forall_mem_append.mpr ⟨h.valid, ?_⟩⟩
    exact List.forall_mem_singleton.mpr rfl
  reads := by
    intro T k rest hat _
    rw [List.cons_append, List.append_assoc] at hat
    have hinner := hat.succ
    obtain ⟨j, hj, hclose⟩ := h.reads hinner (by rintro _ _ ⟨⟩)
    exact ⟨j + 1, hr.yields_open hat.token? hj hclose.token?, hclose.succ⟩

/-- Any number of parentheses may stand around what is written without. -/
theorem around (hr : Track.Wraps r plain) (h : Written Quiet plain (t :: ts) a)
    (ht : t ≠ .mark '(') (s : Style) : Written Quiet r (s.around (t :: ts)) a := by
  rw [Style.around]
  -- one pair of parentheses more goes around the others
  induction s.parentheses [] with
  | zero =>
    rw [List.replicate_zero, List.replicate_zero, List.nil_append, List.append_nil]
    refine ⟨h.valid, fun hat hnext => ?_⟩
    obtain ⟨j, hj, hat'⟩ := h.reads hat hnext
    refine ⟨j, hr.yields ?_ hj, hat'⟩
    rw [hat.token?]
    exact fun heq => ht (Option.some.inj heq)
  | succ n ih =>
    rw [List.replicate_succ, List.replicate_succ']
    simpa using ih.parenthesized hr

end Written

/-! ## Lists in braces -/

/-- The items of a list, each with what is written for it. -/
def AreWritten (r : Rule α) (items : List (List Token)) (as : List α) : Prop :=
  List.Forall₂ (fun ts a => Opens ts ∧ Written Closes r ts a) items as

/-- The items of a list begin with the first one. -/
theorem Style.exists_separated (s : Style) (ts : List Token) (items : List (List Token)) :
    ∃ us, s.separated (ts :: items) = ts ++ us := by
  cases items with
  | nil =>
    rw [separated]
    split
    · exact ⟨_, rfl⟩
    · exact ⟨[], (List.append_nil ts).symm⟩
  | cons us items =>
    rw [separated]
    · exact ⟨_, rfl⟩
    · rintro ⟨⟩

namespace AreWritten

variable {items : List (List Token)} {as : List α} {T : Track} {k : Nat} {rest : List Token}

/-- The separators are marks, and the tokens of the items are valid. -/
theorem valid_separated (h : AreWritten r items as) (s : Style) :
    ∀ t ∈ s.separated items, t.isValid = true := by
  induction h with
  | nil => exact fun _ h => absurd h List.not_mem_nil
  | @cons ts a items as hitem h ih =>
    have hsemi : ∀ t ∈ [Token.mark ';'], t.isValid = true := List.forall_mem_singleton.mpr rfl
    cases h with
    | nil =>
      rw [Style.separated]
      split
      · exact List.forall_mem_append.mpr ⟨hitem.2.valid, hsemi⟩
      · exact hitem.2.valid
    | cons _ _ =>
      rw [Style.separated]
      · exact List.forall_mem_append.mpr ⟨hitem.2.valid, List.forall_mem_cons.mpr ⟨rfl, ih⟩⟩
      · rintro ⟨⟩

/-- A list begins as its first item does. -/
theorem opens_separated (h : AreWritten r (ts :: items) as) (s : Style) :
    Opens (s.separated (ts :: items)) := by
  obtain ⟨us, hus⟩ := s.exists_separated ts items
  rw [hus]
  cases h with
  | cons hitem _ => exact hitem.1.append us

/-- The items are read one after another, up to the closing brace. -/
theorem exists_items (h : AreWritten r items as) (s : Style) (hne : items ≠ []) :
    ∀ {k : Nat}, T.At k (s.separated items ++ .mark '}' :: rest) →
      ∃ j, T.Items r k as j ∧ T.At j rest := by
  induction h with
  | nil => exact absurd rfl hne
  | @cons ts a items as hitem h ih =>
    intro k hat
    cases h with
    | nil =>
      rw [Style.separated] at hat
      split at hat
      · rw [List.append_assoc] at hat
        obtain ⟨j, hj, hsemi⟩ := hitem.2.reads hat (.inl rfl)
        exact ⟨j + 2, .lastSemicolon hj hsemi.token? hsemi.succ.token?, hsemi.succ.succ⟩
      · obtain ⟨j, hj, hend⟩ := hitem.2.reads hat (.inr rfl)
        exact ⟨j + 1, .last hj hend.token?, hend.succ⟩
    | @cons us a' items as hitem' h =>
      have hmore : AreWritten r (us :: items) (a' :: as) := .cons hitem' h
      rw [Style.separated, List.append_assoc] at hat
      · obtain ⟨i, hi, hsemi⟩ := hitem.2.reads hat (.inl rfl)
        obtain ⟨j, hj, hend⟩ := ih (List.cons_ne_nil _ _) hsemi.succ
        refine ⟨j, .more hi hsemi.token? ?_ hj, hend⟩
        rw [hsemi.succ.token?]
        exact ((hmore.opens_separated s).append _).not_closing
      · rintro ⟨⟩

theorem valid_braced (h : AreWritten r items as) (s : Style) :
    ∀ t ∈ s.braced items, t.isValid = true := by
  refine List.forall_mem_cons.mpr ⟨rfl, List.forall_mem_append.mpr ⟨h.valid_separated s, ?_⟩⟩
  exact List.forall_mem_singleton.mpr rfl

/-- **Lists in braces**, with or without a semicolon behind the last item. -/
theorem exists_braced (h : AreWritten r items as) (s : Style)
    (hat : T.At k (s.braced items ++ rest)) : ∃ j, T.Braced r k as j ∧ T.At j rest := by
  rw [Style.braced, List.cons_append, List.append_assoc] at hat
  have hinner : T.At (k + 1) (s.separated items ++ .mark '}' :: rest) := hat.succ
  cases h with
  | nil => exact ⟨k + 2, ⟨hat.token?, .inl ⟨rfl, hinner.token?, rfl⟩⟩, hinner.succ⟩
  | cons hitem h =>
    have hall : AreWritten r (_ :: _) (_ :: _) := .cons hitem h
    obtain ⟨j, hj, hend⟩ := hall.exists_items s (List.cons_ne_nil _ _) hinner
    refine ⟨j, ⟨hat.token?, .inr ⟨?_, hj⟩⟩, hend⟩
    rw [hinner.token?]
    exact ((hall.opens_separated s).append _).not_closing

theorem braced (h : AreWritten r items as) (s : Style) :
    Written Any (braced r) (s.braced items) as where
  valid := h.valid_braced s
  reads := fun hat _ => by
    obtain ⟨j, hj, hend⟩ := h.exists_braced s hat
    exact ⟨j, hj.yields, hend⟩

/-- A block is read in its braces, whatever follows. -/
theorem block {b : Block} (h : AreWritten (step Knot.full) items b) (s : Style) :
    Written Any Knot.full.block (s.braced items) b where
  valid := h.valid_braced s
  reads := fun hat _ => by
    obtain ⟨j, hj, hend⟩ := h.exists_braced s hat
    exact ⟨j, Track.yields_block hj, hend⟩

end AreWritten

/-! ## Groups -/

section Group

variable {member : ι → Rule (σ → σ)} {tokens : ι → List Token} {update : ι → σ → σ}
  {free follow : ι → Option Token → Prop}

/-- What is written for the members of a group. What `free` says keeps a member from
reading, and `follow` says what may stand behind it. -/
structure Members (member : ι → Rule (σ → σ)) (tokens : ι → List Token) (update : ι → σ → σ)
    (free follow : ι → Option Token → Prop) : Prop where
  misses {T : Track} {k : Nat} (i : ι) : k ≤ T.length → free i (T.token? k) →
    T.Misses (member i) k
  written (i : ι) : tokens i ≠ [] → Written (follow i) (member i) (tokens i) (update i)

/-- The second list is the order in which the members are written, against the first list,
in which they are tried: where something is written for a member, those that are tried
before it and are still missing do not read. -/
inductive Arranged (tokens : ι → List Token) (free follow : ι → Option Token → Prop) :
    List ι → List ι → Prop
  | stop {left : List ι} : Arranged tokens free follow left []
  | skip {left is : List ι} {i : ι} (h : tokens i = [])
      (hmore : Arranged tokens free follow left is) : Arranged tokens free follow left (i :: is)
  | turn {before after is : List ι} {i : ι} (h : tokens i ≠ [])
      (hbefore : ∀ b ∈ before, free b (tokens i).head?)
      (hfollow : ∀ i' ∈ is, tokens i' ≠ [] → follow i (tokens i').head?)
      (hmore : Arranged tokens free follow (before ++ after) is) :
      Arranged tokens free follow (before ++ i :: after) (i :: is)

/-- The members of a group that are written in the order in which they are tried. -/
structure InOrder (member : ι → Rule (σ → σ)) (tokens : ι → List Token) (update : ι → σ → σ)
    (free follow : ι → Option Token → Prop) (is : List ι) : Prop extends
    Members member tokens update free follow where
  order : is.Pairwise fun i i' => tokens i' ≠ [] →
    (tokens i = [] → free i (tokens i').head?) ∧ follow i (tokens i').head?

/-- The members of a group of which none reads what is written for another one. -/
structure Apart (member : ι → Rule (σ → σ)) (tokens : ι → List Token) (update : ι → σ → σ)
    (free follow : ι → Option Token → Prop) : Prop extends
    Members member tokens update free follow where
  apart (i i' : ι) : i ≠ i' → tokens i' ≠ [] →
    free i (tokens i').head? ∧ follow i (tokens i').head?

/-- What the members that are written make of what is gathered before. -/
def gathered (tokens : ι → List Token) (update : ι → σ → σ) (is : List ι) (x : σ) : σ :=
  is.foldl (fun x i => if tokens i = [] then x else update i x) x

/-- What the members make of it depends on their order only as their updates do. -/
theorem gathered_perm (hcomm : ∀ i i' x, update i (update i' x) = update i' (update i x))
    {is is' : List ι} (h : is.Perm is') (x : σ) :
    gathered tokens update is x = gathered tokens update is' x := by
  refine h.foldl_eq' (fun i _ i' _ x => ?_) x
  split
  · rfl
  · split
    · rfl
    · exact hcomm i' i x

/-- In front stands the first part that is not empty, or else the rest. -/
theorem head?_flatMap (tokens : ι → List Token) (is : List ι) (rest : List Token) :
    (∃ i ∈ is, tokens i ≠ [] ∧ (is.flatMap tokens ++ rest).head? = (tokens i).head?) ∨
      (is.flatMap tokens ++ rest).head? = rest.head? := by
  induction is with
  | nil => exact .inr rfl
  | cons i is ih =>
    rw [List.flatMap_cons, List.append_assoc]
    by_cases hi : tokens i = []
    · rw [hi, List.nil_append]
      exact ih.imp_left fun ⟨i', hi', h⟩ => ⟨i', List.mem_cons_of_mem _ hi', h⟩
    · exact .inl ⟨i, List.mem_cons_self, hi, List.head?_append_of_ne_nil _ hi⟩

/-- The order in which members are tried is one in which they may be written. -/
theorem InOrder.arranged {is : List ι} (h : InOrder member tokens update free follow is) :
    Arranged tokens free follow is is := by
  suffices hgen : ∀ before : List ι,
      (∀ i ∈ before, ∀ i' ∈ is, tokens i' ≠ [] → free i (tokens i').head?) →
        Arranged tokens free follow (before ++ is) is from
    hgen [] fun _ hi => absurd hi List.not_mem_nil
  have horder := h.order
  clear h
  induction is with
  | nil => exact fun _ _ => .stop
  | cons i is ih =>
    intro before hbefore
    obtain ⟨hi, his⟩ := List.pairwise_cons.mp horder
    have hbefore' : ∀ b ∈ before, ∀ i' ∈ is, tokens i' ≠ [] → free b (tokens i').head? :=
      fun b hb i' hi' => hbefore b hb i' (List.mem_cons_of_mem _ hi')
    by_cases hnil : tokens i = []
    · -- the member is missed, now and all along
      refine .skip hnil ?_
      have hmore := ih his (before ++ [i]) (List.forall_mem_append.mpr
        ⟨hbefore', List.forall_mem_singleton.mpr fun i' hi' hne => (hi i' hi' hne).1 hnil⟩)
      rwa [List.append_assoc] at hmore
    · exact .turn hnil (fun b hb => hbefore b hb i List.mem_cons_self hnil)
        (fun i' hi' hne => (hi i' hi' hne).2) (ih his before hbefore')

/-- Members of which none reads what is written for another one may be written in whatever
order. -/
theorem Apart.arranged (h : Apart member tokens update free follow) {is : List ι}
    (his : is.Nodup) : ∀ {left : List ι}, left.Nodup → is ⊆ left →
      Arranged tokens free follow left is := by
  induction is with
  | nil => exact fun _ _ => .stop
  | cons i is ih =>
    intro left hleft hsub
    obtain ⟨hi, his⟩ := List.nodup_cons.mp his
    obtain ⟨hmem, hsub⟩ := List.cons_subset.mp hsub
    by_cases hnil : tokens i = []
    · exact .skip hnil (ih his hleft hsub)
    · obtain ⟨before, after, rfl⟩ := List.append_of_mem hmem
      obtain ⟨hout, hleft⟩ := List.nodup_cons.mp (List.perm_middle.nodup_iff.mp hleft)
      have hother {b : ι} (hb : b ∈ before) : b ≠ i :=
        fun heq => hout (List.mem_append_left _ (heq ▸ hb))
      refine .turn hnil (fun b hb => (h.apart b i (hother hb) hnil).1) (fun i' hi' hne => ?_)
        (ih his hleft fun i' hi' => ?_)
      · exact (h.apart i i' (fun heq => hi (heq ▸ hi')) hne).2
      · have hin := List.perm_middle.mem_iff.mp (hsub hi')
        exact (List.mem_cons.mp hin).resolve_left fun heq => hi (heq ▸ hi')

section Arranged

variable (hm : Members member tokens update free follow)

include hm

/-- The members are read as they are arranged. -/
theorem Arranged.exists_rounds {left is : List ι} (h : Arranged tokens free follow left is)
    {T : Track} {rest : List Token} (hrest : ∀ i, free i rest.head? ∧ follow i rest.head?) :
    ∀ {k : Nat} (x : σ), T.At k (is.flatMap tokens ++ rest) →
      ∃ j, T.Rounds member left k x (gathered tokens update is x) j ∧ T.At j rest := by
  induction h with
  | stop =>
    intro k x hat
    refine ⟨k, .stop fun i _ => hm.misses i hat.le ?_, hat⟩
    rw [hat.token?]
    exact (hrest i).1
  | skip hnil _ ih =>
    intro k x hat
    rw [List.flatMap_cons, hnil, List.nil_append] at hat
    rw [gathered, List.foldl_cons, if_pos hnil]
    exact ih x hat
  | @turn before after is i hne hbefore hfollow _ ih =>
    intro k x hat
    rw [List.flatMap_cons, List.append_assoc] at hat
    have hnext : follow i (is.flatMap tokens ++ rest).head? := by
      rcases head?_flatMap tokens is rest with ⟨i', hi', hne', heq⟩ | heq <;> rw [heq]
      · exact hfollow i' hi' hne'
      · exact (hrest i).2
    have hmiss : ∀ b ∈ before, T.Misses (member b) k := fun b hb => by
      refine hm.misses b hat.le ?_
      rw [hat.token?, List.head?_append_of_ne_nil _ hne]
      exact hbefore b hb
    obtain ⟨l, hl, hat'⟩ := (hm.written i hne).reads hat hnext
    obtain ⟨j, hj, hend⟩ := ih (update i x) hat'
    refine ⟨j, .round hmiss hl ?_, hend⟩
    rwa [gathered, List.foldl_cons, if_neg hne]

/-- **Groups.** What is written for the members of a group is gathered by it. -/
theorem written_arranged {left is : List ι} (h : Arranged tokens free follow left is)
    (hp : ∀ (T : Track) i, T.Passing (member i))
    (hF : ∀ next, F next → ∀ i, free i next ∧ follow i next) (x : σ) :
    Written F (group (left.map member) x) (is.flatMap tokens) (gathered tokens update is x) where
  valid := by
    intro t ht
    obtain ⟨i, -, hi⟩ := List.mem_flatMap.mp ht
    exact (hm.written i (List.ne_nil_of_mem hi)).valid t hi
  reads := by
    intro T k rest hat hnext
    obtain ⟨j, hj, hend⟩ := h.exists_rounds hm (hF _ hnext) x hat
    exact ⟨j, hj.yields hat.le (hp T), hend⟩

end Arranged

end Group

end Michelson
