import Michelson.Proofs.Congruence
import Michelson.Proofs.Literals
import Michelson.Proofs.Simulation
import Michelson.Proofs.Strings

/-!
# Places that runs keep

For two runs of the grammar to keep step it is enough that they stand in places
that correspond, and that corresponding places are kept by tokens. A place has a
level, the number of braces that are open there, and a degree, a bound on what is
left of the text. A `Placement` says what the tokens have to respect;
`Placement.congruence` turns this into a congruence, which the whole grammar
respects.

Types know no braces and no semicolons, so for them it may make no difference
whether a semicolon follows or nothing: this is a `TypePlacement`.
-/

namespace Michelson

open Rule

/-- A table that takes no brace. -/
structure TakesNoBrace {α : Type} (table : Option Token → Reading α) : Prop where
  opening (a : α) : table (some (.mark '{')) ≠ .taken a
  closing (a : α) : table (some (.mark '}')) ≠ .taken a

/-- A table that takes no bytes, and does not look at their digits. -/
structure TakesNoBytes {α : Type} (table : Option Token → Reading α) : Prop where
  bytes (digits : List Char) (a : α) : table (some (.bytes digits)) ≠ .taken a
  sameBytes (digits digits' : List Char) : table (some (.bytes digits)) = table (some (.bytes digits'))

/-- A table that takes neither braces nor bytes. -/
structure IsPlain {α : Type} (table : Option Token → Reading α) : Prop extends
    TakesNoBrace table, TakesNoBytes table

/-- A plain table that takes no semicolon for more than the end of the text. -/
structure IsBlind {α : Type} (table : Option Token → Reading α) : Prop extends IsPlain table where
  semicolon : table (some (.mark ';')) = table none

/-- To a note, a semicolon is as good as the end of the text. -/
theorem isBlind_note (σ : Sigil) : IsBlind (readNote σ) where
  opening := fun _ h => nomatch h
  closing := fun _ h => nomatch h
  bytes := fun _ _ h => nomatch h
  sameBytes := fun _ _ => rfl
  semicolon := rfl

/-- So it is to a word. -/
theorem isBlind_word {α : Type} (what : Expectation) (f : List Char → Option α) :
    IsBlind (readWord what f) where
  opening := fun _ h => nomatch h
  closing := fun _ h => nomatch h
  bytes := fun _ _ h => nomatch h
  sameBytes := fun _ _ => rfl
  semicolon := rfl

/-- A mark is refused on bytes, whatever their digits. -/
theorem takesNoBytes_symbol (c : Char) : TakesNoBytes (readSymbol c) where
  bytes := fun _ _ h => nomatch h
  sameBytes := fun _ _ => rfl

/-- A parenthesis that is missing is missed at a semicolon as it is at the end of the text. -/
theorem isBlind_parenthesis {c : Char} (hc : c = '(' ∨ c = ')') : IsBlind (readSymbol c) := by
  rcases hc with rfl | rfl
  · exact ⟨⟨⟨fun _ h => (nomatch h), fun _ h => (nomatch h)⟩, takesNoBytes_symbol _⟩, rfl⟩
  · exact ⟨⟨⟨fun _ h => (nomatch h), fun _ h => (nomatch h)⟩, takesNoBytes_symbol _⟩, rfl⟩

/-- The semicolon is plain but not blind: it is what it takes. -/
theorem isPlain_semicolon : IsPlain (readSymbol ';') where
  opening := fun _ h => nomatch h
  closing := fun _ h => nomatch h
  toTakesNoBytes := takesNoBytes_symbol _

theorem isPlain_integer : IsPlain readInteger where
  opening := fun _ h => nomatch h
  closing := fun _ h => nomatch h
  bytes := fun _ _ h => nomatch h
  sameBytes := fun _ _ => rfl

/-- The table of bytes is the one that looks at digits, and it takes no brace. -/
theorem takesNoBrace_bytes : TakesNoBrace readBytes where
  opening := fun _ h => nomatch h
  closing := fun _ h => nomatch h

theorem isPlain_string : IsPlain readString where
  opening := fun _ h => nomatch h
  closing := fun _ h => nomatch h
  bytes := fun _ _ h => nomatch h
  sameBytes := fun _ _ => rfl

/-! ## Placements -/

/-- The places of two runs, by level and degree. -/
abbrev Places : Type := Nat → Nat → Cursor → Cursor → Prop

/-- Places that the tokens of types keep. -/
structure TypePlacement (S : Setting) (At : Places) : Prop where
  placed {d n : Nat} {c c' : Cursor} : At d n c c' → S.placed c c'
  positive {d n : Nat} {c c' : Cursor} : At d n c c' → 0 < n
  weaken {d n m : Nat} {c c' : Cursor} : At d n c c' → n ≤ m → At d m c c'
  opens {d n : Nat} {c c' : Cursor} : At d n c c' →
    (c.rest.head? = some '(' ↔ c'.rest.head? = some '(')
  offsets {d n m : Nat} {c c' e e' : Cursor} : At d n c c' → At d m e e' →
    (c.position.offset < e.position.offset ↔ c'.position.offset < e'.position.offset)
  nested {d n : Nat} {α β : Type} {V : α → β → Prop} {r : Rule α} {r' : Rule β} :
    Sim S (At d n) (At d n) V r r' → Sim S (At d n) (At d n) V (nested r) (nested r')
  lexical {d n : Nat} {α : Type} {look : List Char → Answer α} {table : Option Token → Reading α} :
    Lexical look table → IsBlind table →
      Sim S (At d n) (At d (n - 1)) Eq (lexical look) (lexical look)

/-- Places that all tokens keep. -/
structure Placement (S : Setting) (At : Places) : Prop extends TypePlacement S At where
  bounded {d n : Nat} {c c' : Cursor} : At d n c c' →
    ∃ m ≤ n, m ≤ c.rest.length + 1 ∧ m ≤ c'.rest.length + 1 ∧ At d m c c'
  expect {d n : Nat} {s s' : State} (what : Expectation) : At d n s.cursor s'.cursor →
    S.memory s s' → S.memory (s.expect what) (s'.expect what)
  log {d n : Nat} {s s' : State} {c c' : Cursor} (e : Position → Event) : At d n c c' →
    S.memory s s' → S.memory (s.log (e c.position)) (s'.log (e c'.position))
  plain {d n : Nat} {α : Type} {look : List Char → Answer α} {table : Option Token → Reading α} :
    Lexical look table → IsPlain table →
      Sim S (At d n) (At d (n - 1)) Eq (Rule.lexical look) (Rule.lexical look)
  bytes {d n : Nat} :
    Sim S (At d n) (At d (n - 1)) Eq (Rule.lexical lookBytes) (Rule.lexical lookBytes)
  opening {d n : Nat} : Sim S (At d n) (At (d + 1) (n - 1)) Eq (symbol '{') (symbol '{')
  closing {d n : Nat} : 1 ≤ d →
    Sim S (At (d + 1) n) (At d (n - 1)) Eq (symbol '}') (symbol '}')

namespace Sim

variable {S : Setting} {α β : Type} {pre post : Cursor → Cursor → Prop}

/-- The cursors that are read correspond as the states do. -/
theorem cursor : Sim S pre pre pre cursor cursor := fun _ _ hpre hmem => ⟨hpre, hpre, hmem⟩

/-- Both runs may go anywhere, as long as it is to corresponding places. -/
theorem moveTo {c c' : Cursor} (h : post c c') (hp : S.placed c c') :
    Sim S pre post Eq (moveTo c) (moveTo c') := fun _ _ _ hmem => ⟨rfl, h, S.moved hp hmem⟩

theorem advance {n m : Nat}
    (h : ∀ c c', pre c c' → post (c.skip n) (c'.skip m) ∧ S.placed (c.skip n) (c'.skip m)) :
    Sim S pre post Eq (advance n) (advance m) :=
  fun _ _ hpre hmem => ⟨rfl, (h _ _ hpre).1, S.moved (h _ _ hpre).2 hmem⟩

end Sim

namespace TypePlacement

variable {S : Setting} {At : Places} (A : TypePlacement S At)

/-- Rules that keep step in all places of a degree, and of lower degrees. -/
def Keeps (S : Setting) (At : Places) (n : Nat) : RuleRelation :=
  fun _ _ V r r' => ∀ d m, 1 ≤ d → m ≤ n → Sim S (At d m) (At d m) V r r'

/-- Rules that keep step and pass some text where they read something. -/
def Passes (S : Setting) (At : Places) (n : Nat) : RuleRelation :=
  fun _ _ V r r' => ∀ d m, 1 ≤ d → m ≤ n → Sim S (At d m) (At d (m - 1)) V r r'

include A

/-- What ends in a degree less ends in the degree as well. -/
theorem of_pred {d m : Nat} {α β : Type} {V : α → β → Prop} {r : Rule α} {r' : Rule β}
    {pre : Cursor → Cursor → Prop} (h : Sim S pre (At d (m - 1)) V r r') :
    Sim S pre (At d m) V r r' :=
  h.weaken (fun _ _ h => h) (fun _ _ h => A.weaken h (Nat.sub_le m 1)) (fun _ _ h => h)

/-- In the least degree there are no places. -/
theorem keeps_zero {α β : Type} {V : α → β → Prop} {r : Rule α} {r' : Rule β} :
    Keeps S At 0 V r r' := by
  intro d m _ hm s s' hs _
  have hpos := A.positive hs
  omega

/-- A token leaves less of the text behind it. -/
theorem lexicalPasses {n : Nat} {α : Type} {look : List Char → Answer α}
    {table : Option Token → Reading α} (h : Lexical look table) (hb : IsBlind table) :
    Passes S At n Eq (Rule.lexical look) (Rule.lexical look) := fun _ _ _ _ => A.lexical h hb

theorem parenthesis {c : Char} (hc : c = '(' ∨ c = ')') (d n : Nat) :
    Sim S (At d n) (At d (n - 1)) Eq (symbol c) (symbol c) := by
  rw [symbol_eq]
  refine A.lexical (lexical_symbol ?_) (isBlind_parenthesis hc)
  rcases hc with rfl | rfl <;> decide

/-- Corresponding places are in the same order in both texts, so both runs have passed text or
neither has. -/
theorem advancing {d m : Nat} {α β : Type} {V : α → β → Prop} {r : Rule α} {r' : Rule β}
    (h : Sim S (At d m) (At d m) V r r') :
    Sim S (At d m) (At d m) (Option.Rel V) (advancing r) (advancing r') := by
  refine Sim.cursor.bind fun before before' hbefore => ?_
  refine Sim.optional_bind (fun _ _ => A.placed) h (fun a b hab => ?_) (.pure .none)
  refine Sim.cursor.bind fun after after' hafter => ?_
  have hiff := A.offsets hbefore hafter
  by_cases hlt : after.position.offset > before.position.offset
  · rw [if_pos hlt, if_pos (hiff.mp hlt)]
    exact .pure (.some hab)
  · rw [if_neg hlt, if_neg fun h => hlt (hiff.mpr h)]
    exact (Sim.moveTo hbefore (A.placed hbefore)).bind fun _ _ _ => .pure .none

/-- Corresponding places show a parenthesis both or neither. -/
theorem unlessOpen {d m : Nat} {α β : Type} {V : α → β → Prop} {r q : Rule α} {r' q' : Rule β}
    {post : Cursor → Cursor → Prop} (hr : Sim S (At d m) post V r r')
    (hq : Sim S (At d m) post V q q') :
    Sim S (At d m) post V (unlessOpen r q) (unlessOpen r' q') := by
  intro s s' hpre hmem
  have hiff := A.opens hpre
  rw [unlessOpen_run, unlessOpen_run]
  by_cases ho : s.cursor.rest.head? = some '('
  · rw [if_pos ho, if_pos (hiff.mp ho)]
    exact hr s s' hpre hmem
  · rw [if_neg ho, if_neg fun h => ho (hiff.mpr h)]
    exact hq s s' hpre hmem

/-- What stands in parentheses begins a degree lower, and the closing one may stay in it. -/
theorem parenthesized {n : Nat} {α β : Type} {V : α → β → Prop} {r : Rule α} {r' : Rule β}
    (h : Keeps S At (n - 1) V r r') : Passes S At n V (parenthesized r) (parenthesized r') := by
  intro d m hd hm
  refine (A.parenthesis (.inl rfl) d m).bind fun _ _ _ => ?_
  refine (h d (m - 1) hd (Nat.sub_le_sub_right hm 1)).bind fun a b hab => ?_
  exact (A.of_pred (A.parenthesis (.inr rfl) d (m - 1))).bind fun _ _ _ => .pure hab

/-- Types and notes respect a placement. -/
theorem congruence : Grammar.TypeCongruence (Keeps S At) (Passes S At) where
  later h d m hd hm := h d m hd (hm.trans (Nat.sub_le _ _))
  passing h d m hd hm := A.of_pred (h d m hd hm)
  pure h _ _ _ _ := .pure h
  bind h hk d m hd hm := (h d m hd hm).bind fun a b hab => hk a b hab d m hd hm
  passing_bind h hk d m hd hm :=
    (h d m hd hm).bind fun a b hab => hk a b hab d (m - 1) hd (Nat.sub_le_sub_right hm 1)
  optional h d m hd hm := (h d m hd hm).optional fun _ _ => A.placed
  attempt h d m hd hm := (h d m hd hm).attempt fun _ _ => A.placed
  nested h d m hd hm := A.nested (h d m hd hm)
  advancing h d m hd hm := A.advancing (h d m hd hm)
  note σ := by
    rw [note_eq]
    exact A.lexicalPasses (lexical_note σ) (isBlind_note σ)
  headWord f what _ := by
    rw [headWord_eq]
    exact A.lexicalPasses (lexical_word _ _ _) (isBlind_word _ _)
  unlessOpen h hq d m hd hm := A.unlessOpen (h d m hd hm) (hq d m hd hm)
  parenthesized := A.parenthesized

end TypePlacement

namespace Placement

open TypePlacement

variable {S : Setting} {At : Places} (A : Placement S At)

include A

theorem of_pred {d m : Nat} {α β : Type} {V : α → β → Prop} {r : Rule α} {r' : Rule β}
    {pre : Cursor → Cursor → Prop} (h : Sim S pre (At d (m - 1)) V r r') :
    Sim S pre (At d m) V r r' := A.toTypePlacement.of_pred h

/-- Plain tokens stay in the degree, if need be. -/
theorem plainKeeps {n : Nat} {α : Type} {look : List Char → Answer α}
    {table : Option Token → Reading α} (h : Lexical look table) (hp : IsPlain table) :
    Keeps S At n Eq (Rule.lexical look) (Rule.lexical look) :=
  fun _ _ _ _ => A.of_pred (A.plain h hp)

theorem semicolon (d n : Nat) : Sim S (At d n) (At d (n - 1)) Eq (symbol ';') (symbol ';') := by
  rw [symbol_eq]
  exact A.plain (lexical_symbol (by decide)) isPlain_semicolon

/-- Words are plain, whether they are looked up before or after they are passed. -/
theorem word {n : Nat} {α : Type} (what : Expectation) (f : List Char → Option α) (late : Bool) :
    Keeps S At n Eq (Rule.lexical (lookWord what f late)) (Rule.lexical (lookWord what f late)) :=
  A.plainKeeps (lexical_word what f late) (isBlind_word what f).toIsPlain

/-- What both runs remember stays in correspondence when they expect the same at corresponding
places. -/
theorem fail {d n : Nat} {α β : Type} {V : α → β → Prop} {post : Cursor → Cursor → Prop}
    (what : Expectation) : Sim S (At d n) post V (fail what) (fail what) :=
  fun _ _ hpre hmem => A.expect what hpre hmem

theorem marking {d n : Nat} (e : Position → Event) :
    Sim S (At d n) (At d n) Eq (marking e) (marking e) :=
  fun _ _ hpre hmem => ⟨rfl, hpre, A.log e hpre hmem⟩

/-- The place that is noted down is the one where the rule began, which both runs have kept. -/
theorem recording {d n : Nat} {α : Type} {r r' : Rule α} (e : Position → α → Event)
    (h : Sim S (At d n) (At d n) Eq r r') :
    Sim S (At d n) (At d n) Eq (recording e r) (recording e r') := by
  have hposition : Sim S (At d n) (At d n)
      (fun p p' => ∃ c c', At d n c c' ∧ p = c.position ∧ p' = c'.position) position position :=
    fun _ _ hpre hmem => ⟨⟨_, _, hpre, rfl, rfl⟩, hpre, hmem⟩
  refine hposition.bind fun p p' hp => h.bind fun a b hab => ?_
  obtain ⟨c, c', hc, rfl, rfl⟩ := hp
  subst hab
  have hlog : Sim S (At d n) (At d n) Eq (Rule.log (e c.position a)) (Rule.log (e c'.position a)) :=
    fun _ _ hpre hmem => ⟨rfl, hpre, A.log (fun p => e p a) hc hmem⟩
  exact hlog.bind fun _ _ _ => .pure rfl

/-! ### Repetitions -/

theorem manyWithin {d : Nat} {α : Type} {r r' : Rule α} (hd : 1 ≤ d) (m : Nat) :
    ∀ bound bound', m ≤ bound → m ≤ bound' → Passes S At m Eq r r' →
      Sim S (At d m) (At d m) Eq (manyWithin r bound) (manyWithin r' bound') := by
  -- the degree falls with every item, and both bounds are above it
  induction m with
  | zero => exact fun _ _ _ _ _ s s' hpre _ => absurd (A.positive hpre) (Nat.lt_irrefl 0)
  | succ m ih =>
    intro bound bound' hb hb' h
    obtain ⟨bound, rfl⟩ : ∃ n, bound = n + 1 := ⟨bound - 1, by omega⟩
    obtain ⟨bound', rfl⟩ : ∃ n, bound' = n + 1 := ⟨bound' - 1, by omega⟩
    refine Sim.optional_bind (fun _ _ => A.placed) (h d (m + 1) hd le_rfl) (fun a b hab => ?_)
      (.pure rfl)
    subst hab
    have hmore := ih bound bound' (by omega) (by omega)
      fun d k hd hk => h d k hd (hk.trans (Nat.le_succ m))
    refine A.of_pred (hmore.bind fun as bs habs => ?_)
    subst habs
    exact .pure rfl

/-- What a rule does with the rest of the text as a bound on its steps. -/
theorem rest_bind {d n : Nat} {α β : Type} {V : α → β → Prop} {k : List Char → Rule α}
    {k' : List Char → Rule β} {post : Cursor → Cursor → Prop}
    (h : ∀ m ≤ n, ∀ cs cs', m ≤ cs.length + 1 → m ≤ cs'.length + 1 →
      Sim S (At d m) post V (k cs) (k' cs')) :
    Sim S (At d n) post V (Rule.rest >>= k) (Rule.rest >>= k') := by
  intro s s' hpre hmem
  obtain ⟨m, hm, hb, hb', hat⟩ := A.bounded hpre
  exact h m hm _ _ hb hb' s s' hat hmem

/-- The rest of the text bounds the degree on both sides, so neither bound is met. -/
theorem many1 {n : Nat} {α : Type} {r r' : Rule α} (h : Passes S At n Eq r r') :
    Passes S At n Eq (many1 r) (many1 r') := by
  intro d m hd hm
  refine ((h d m hd hm).attempt fun _ _ => A.placed).bind fun a b hab => ?_
  subst hab
  refine A.rest_bind fun j hj cs cs' hb hb' => ?_
  have hmore := A.manyWithin hd j (cs.length + 1) (cs'.length + 1) hb hb'
    fun d k hd hk => h d k hd (by omega)
  refine (hmore.weaken (fun _ _ h => h) (fun _ _ h => A.weaken h hj) fun _ _ h => h).bind
    fun as bs habs => ?_
  subst habs
  exact .pure rfl

variable {α : Type} {r r' : Rule α}

theorem bracedItems {d k : Nat} {post : Cursor → Cursor → Prop}
    (hclose : ∀ j ≤ k, Sim S (At (d + 1) j) post Eq (symbol '}') (symbol '}'))
    (hr : ∀ j ≤ k, Sim S (At (d + 1) j) (At (d + 1) j) Eq r r') (m : Nat) :
    ∀ bound bound', m ≤ bound → m ≤ bound' → m ≤ k →
      Sim S (At (d + 1) m) post Eq (bracedItems r bound) (bracedItems r' bound') := by
  -- the degree falls with every item, as it does without braces
  induction m with
  | zero => exact fun _ _ _ _ _ s s' hpre _ => absurd (A.positive hpre) (Nat.lt_irrefl 0)
  | succ m ih =>
    intro bound bound' hb hb' hm
    obtain ⟨bound, rfl⟩ : ∃ n, bound = n + 1 := ⟨bound - 1, by omega⟩
    obtain ⟨bound', rfl⟩ : ∃ n, bound' = n + 1 := ⟨bound' - 1, by omega⟩
    refine (hr (m + 1) hm).bind fun a b hab => ?_
    subst hab
    refine Sim.optional_bind (fun _ _ => A.placed) (A.semicolon (d + 1) (m + 1)) (fun _ _ _ => ?_)
      ?_
    · refine Sim.optional_bind (fun _ _ => A.placed) (hclose m (by omega)) (fun _ _ _ => .pure rfl)
        ?_
      refine (ih bound bound' (by omega) (by omega) (by omega)).bind fun as bs habs => ?_
      subst habs
      exact .pure rfl
    · exact (hclose (m + 1) hm).bind fun _ _ _ => .pure rfl

/-- A list in braces keeps step if its items do one level deeper. -/
theorem braced {d k : Nat} {pre post : Cursor → Cursor → Prop}
    (hp : ∀ c c', pre c c' → S.placed c c')
    (hopen : Sim S pre (At (d + 1) k) Eq (symbol '{') (symbol '{'))
    (hclose : ∀ j ≤ k, Sim S (At (d + 1) j) post Eq (symbol '}') (symbol '}'))
    (hr : ∀ j ≤ k, Sim S (At (d + 1) j) (At (d + 1) j) Eq r r') :
    Sim S pre post Eq (braced r) (braced r') := by
  refine Sim.attempt hp (hopen.bind fun _ _ _ => ?_)
  refine Sim.optional_bind (fun _ _ => A.placed) (hclose k le_rfl) (fun _ _ _ => .pure rfl) ?_
  exact A.rest_bind fun j hj cs cs' hb hb' => A.bracedItems hclose hr j _ _ hb hb' hj

/-- The items stand one level deeper and one degree lower than the braces. -/
theorem bracedPasses {n : Nat} (h : Keeps S At (n - 1) Eq r r') :
    Passes S At n Eq (Rule.braced r) (Rule.braced r') := by
  intro d m hd hm
  refine A.braced (d := d) (k := m - 1) (fun _ _ => A.placed) A.opening (fun j hj => ?_)
    fun j hj => h (d + 1) j (by omega) (by omega)
  exact (A.closing hd).weaken (fun _ _ h => h) (fun _ _ h => A.weaken h (by omega)) fun _ _ h => h

/-- The contract inside a step changes the level, though the degree may stay. -/
theorem enclosed {n : Nat} (h : Keeps S At n Eq r r') :
    Keeps S At n Eq (enclosed r) (enclosed r') := by
  intro d m hd hm
  refine A.opening.bind fun _ _ _ => ?_
  refine (h (d + 1) (m - 1) (by omega) (by omega)).bind fun a b hab => ?_
  have hclose := (A.closing (n := m - 1) hd).weaken (fun _ _ h => h)
    (fun _ _ h => A.weaken h (by omega : m - 1 - 1 ≤ m)) fun _ _ h => h
  exact hclose.bind fun _ _ _ => .pure hab

/-- **The grammar respects a placement** that the names of macros respect. -/
theorem congruence {Q : Nat → Rule PairTree → Rule PairTree → Prop}
    (hnames : ∀ {n : Nat} {g g' : Grammar.Knot}, Q n g.pairTree g'.pairTree →
      List.Forall₂ (Keeps S At n Eq) (Grammar.macroNames g) (Grammar.macroNames g'))
    (htree : ∀ {n : Nat} {g g' : Grammar.Knot}, Q (n - 1) g.pairTree g'.pairTree →
      Q n (Grammar.pairTreeRule g) (Grammar.pairTreeRule g')) :
    Grammar.Congruence (Keeps S At) (Passes S At) Q where
  toTypeCongruence := A.toTypePlacement.congruence
  fail _ _ _ _ _ := A.fail _
  miss _ _ _ _ := .miss
  many1 := A.many1
  braced := A.bracedPasses
  enclosed := A.enclosed
  keyword _ := by
    rw [keyword_eq]
    exact A.word _ _ _
  semicolon d m _ _ := A.of_pred (A.semicolon d m)
  marking _ _ _ _ _ := A.marking _
  recording _ h d m hd hm := A.recording _ (h d m hd hm)
  mnemonicWord := by
    rw [mnemonicWord_eq]
    exact A.word _ _ _
  integerLiteral := by
    rw [integerLiteral_eq]
    exact A.plainKeeps lexical_integer isPlain_integer
  stringLiteral := by
    rw [stringLiteral_eq]
    exact A.plainKeeps lexical_string isPlain_string
  bytesLiteral := by
    rw [bytesLiteral_eq]
    exact fun _ _ _ _ => A.of_pred A.bytes
  macroNames := hnames
  pairTreeRule := htree

end Placement

end Michelson
