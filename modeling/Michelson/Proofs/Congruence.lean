import Michelson.Proofs.Rule

/-!
# Relations that the grammar respects

A relation between rules that the sequence, the alternatives and the tokens
respect is respected by the whole grammar. This is said once, here, for any two
knots; the statements about runs are instances of it.

A relation comes in degrees, and with a stronger form for rules that pass some
text when they read something. Behind such a rule one degree less is enough. A
relation between runs on texts of bounded length uses the degrees as bounds;
other relations have one degree only, which they repeat.

* `TypeCongruence` lists what is asked for types and notes.
* `Congruence` adds what is asked for values and code.
* `Congruence.next` says that related knots stay related when they are tied
  once more.
-/

namespace Michelson

/-- A relation between rules whose values are related. -/
abbrev RuleRelation : Type 1 :=
  ∀ ⦃α β : Type⦄, (α → β → Prop) → Rule α → Rule β → Prop

namespace Grammar

open Rule

/-- What a relation has to respect for types and notes to respect it. -/
structure TypeCongruence (F P : Nat → RuleRelation) : Prop where
  later {n : Nat} {α β : Type} {V : α → β → Prop} {r : Rule α} {r' : Rule β} :
    F n V r r' → F (n - 1) V r r'
  passing {n : Nat} {α β : Type} {V : α → β → Prop} {r : Rule α} {r' : Rule β} :
    P n V r r' → F n V r r'
  pure {n : Nat} {α β : Type} {V : α → β → Prop} {a : α} {b : β} :
    V a b → F n V (pure a) (pure b)
  bind {n : Nat} {α β γ δ : Type} {V : α → β → Prop} {W : γ → δ → Prop} {r : Rule α}
    {r' : Rule β} {k : α → Rule γ} {k' : β → Rule δ} :
    F n V r r' → (∀ a b, V a b → F n W (k a) (k' b)) → F n W (r >>= k) (r' >>= k')
  passing_bind {n : Nat} {α β γ δ : Type} {V : α → β → Prop} {W : γ → δ → Prop} {r : Rule α}
    {r' : Rule β} {k : α → Rule γ} {k' : β → Rule δ} :
    P n V r r' → (∀ a b, V a b → F (n - 1) W (k a) (k' b)) → P n W (r >>= k) (r' >>= k')
  optional {n : Nat} {α β : Type} {V : α → β → Prop} {r : Rule α} {r' : Rule β} :
    F n V r r' → F n (Option.Rel V) (optional r) (optional r')
  attempt {n : Nat} {α β : Type} {V : α → β → Prop} {r : Rule α} {r' : Rule β} :
    F n V r r' → F n V (attempt r) (attempt r')
  nested {n : Nat} {α β : Type} {V : α → β → Prop} {r : Rule α} {r' : Rule β} :
    F n V r r' → F n V (nested r) (nested r')
  advancing {n : Nat} {α β : Type} {V : α → β → Prop} {r : Rule α} {r' : Rule β} :
    F n V r r' → F n (Option.Rel V) (advancing r) (advancing r')
  note {n : Nat} (σ : Sigil) : P n Eq (note σ) (note σ)
  headWord {n : Nat} {α : Type} (f : String → Option α) {what : Expectation} :
    what.isOfGrammar → P n Eq (headWord f what) (headWord f what)
  unlessOpen {n : Nat} {α β : Type} {V : α → β → Prop} {r q : Rule α} {r' q' : Rule β} :
    F n V r r' → F n V q q' → F n V (unlessOpen r q) (unlessOpen r' q')
  parenthesized {n : Nat} {α β : Type} {V : α → β → Prop} {r : Rule α} {r' : Rule β} :
    F (n - 1) V r r' → P n V (parenthesized r) (parenthesized r')

/-- What a relation has to respect for the grammar to respect it. Rules for pair trees
have a relation `Q` of their own, since they begin and end inside a word. -/
structure Congruence (F P : Nat → RuleRelation)
    (Q : Nat → Rule PairTree → Rule PairTree → Prop) : Prop extends TypeCongruence F P where
  fail {n : Nat} {α β : Type} {V : α → β → Prop} {what : Expectation} :
    what.isOfGrammar → F n V (fail what) (fail what)
  miss {n : Nat} {α β : Type} {V : α → β → Prop} : F n V miss miss
  many1 {n : Nat} {α : Type} {r r' : Rule α} : P n Eq r r' → P n Eq (many1 r) (many1 r')
  braced {n : Nat} {α : Type} {r r' : Rule α} : F (n - 1) Eq r r' → P n Eq (braced r) (braced r')
  enclosed {n : Nat} {α : Type} {r r' : Rule α} :
    F n Eq r r' → F n Eq (enclosed r) (enclosed r')
  keyword {n : Nat} {name : String} :
    (Expectation.token name).isOfGrammar → F n Eq (keyword name) (keyword name)
  semicolon {n : Nat} : F n Eq (symbol ';') (symbol ';')
  marking {n : Nat} {e : Position → Event} :
    (∀ p, (e p).isMark) → F n Eq (marking e) (marking e)
  recording {n : Nat} {α : Type} {r r' : Rule α} {e : Position → α → Event} :
    (∀ p a, (e p a).isMark) → F n Eq r r' → F n Eq (recording e r) (recording e r')
  mnemonicWord {n : Nat} : F n Eq mnemonicWord mnemonicWord
  integerLiteral {n : Nat} : F n Eq integerLiteral integerLiteral
  stringLiteral {n : Nat} : F n Eq stringLiteral stringLiteral
  bytesLiteral {n : Nat} : F n Eq bytesLiteral bytesLiteral
  macroNames {n : Nat} {g g' : Knot} : Q n g.pairTree g'.pairTree →
    List.Forall₂ (F n Eq) (macroNames g) (macroNames g')
  pairTreeRule {n : Nat} {g g' : Knot} :
    Q (n - 1) g.pairTree g'.pairTree → Q n (pairTreeRule g) (pairTreeRule g')

/-- The rules of two knots are related. -/
structure Knot.Related (F : Nat → RuleRelation) (Q : Nat → Rule PairTree → Rule PairTree → Prop)
    (n : Nat) (g g' : Knot) : Prop where
  type (withField : Bool) : F n Eq (g.type withField) (g'.type withField)
  comparable : F n Eq g.comparable g'.comparable
  value : F n Eq g.value g'.value
  block : F n Eq g.block g'.block
  pairTree : Q n g.pairTree g'.pairTree

/-- The keywords of the sections are among the tokens that the grammar names. -/
theorem isOfGrammar_keyword (part : Part) : (Expectation.token part.keyword).isOfGrammar := by
  cases part <;> decide

/-! ## Notes and types -/

namespace TypeCongruence

variable {F P : Nat → RuleRelation} (C : TypeCongruence F P) {n : Nat} {g g' : Knot}
  {α β : Type}

include C

/-- The usual case of a sequence: the first rules yield equal values, so the second ones may be
compared value by value. -/
theorem bind_eq {W : α → β → Prop} {γ : Type} {r r' : Rule γ} {k : γ → Rule α}
    {k' : γ → Rule β} (h : F n Eq r r') (hk : ∀ a, F n W (k a) (k' a)) :
    F n W (r >>= k) (r' >>= k') :=
  C.bind h fun a _ hab => hab ▸ hk a

/-- Behind a rule that passes text when it reads something, one degree less is enough. -/
theorem passing_bind_eq {W : α → β → Prop} {γ : Type} {r r' : Rule γ} {k : γ → Rule α}
    {k' : γ → Rule β} (h : P n Eq r r') (hk : ∀ a, F (n - 1) W (k a) (k' a)) :
    P n W (r >>= k) (r' >>= k') :=
  C.passing_bind h fun a _ hab => hab ▸ hk a

/-- Optional rules that agree are both followed with a value or both without one. -/
theorem optional_bind_eq {W : α → β → Prop} {γ : Type} {r r' : Rule γ} {k : Option γ → Rule α}
    {k' : Option γ → Rule β} (h : F n Eq r r') (hk : ∀ a, F n W (k a) (k' a)) :
    F n W (Rule.optional r >>= k) (Rule.optional r' >>= k') := by
  refine C.bind (C.optional h) fun a b hab => ?_
  cases hab with
  | some hab =>
    subst hab
    exact hk _
  | none => exact hk _

/-- An absent note is the empty one, so a slot always has a value to yield. -/
theorem noteSlot (σ : Sigil) : F n Eq (noteSlot σ) (noteSlot σ) := by
  refine C.optional_bind_eq (C.passing (C.note σ)) fun a => ?_
  cases a with
  | some a => exact C.pure rfl
  | none => exact C.pure rfl

/-! ### Groups -/

/-- A member of a group reads a value and yields how it is put in. -/
theorem slot {σ : Type} {r r' : Rule α} (h : F n Eq r r') (put : α → σ → σ) :
    F n Eq (slot r put) (slot r' put) :=
  C.bind_eq h fun _ => C.pure rfl

/-- The members that are left are related one by one again, so the next round can start from them.
-/
theorem firstAdvancing {rs rs' : List (Rule α)} (h : List.Forall₂ (F n Eq) rs rs') :
    F n (Option.Rel fun x y => x.1 = y.1 ∧ List.Forall₂ (F n Eq) x.2 y.2)
      (firstAdvancing rs) (firstAdvancing rs') := by
  induction h with
  | nil => exact C.pure .none
  | cons hr hrs ih =>
    refine C.bind (C.advancing hr) fun a b hab => ?_
    cases hab with
    | some hab => exact C.pure (.some ⟨hab, hrs⟩)
    | none =>
      refine C.bind ih fun a b hab => ?_
      cases hab with
      | some hab => exact C.pure (.some ⟨hab.1, .cons hr hab.2⟩)
      | none => exact C.pure .none

theorem groupWithin {σ : Type} (rounds : Nat) {rs rs' : List (Rule (σ → σ))}
    (h : List.Forall₂ (F n Eq) rs rs') (gathered : σ) :
    F n Eq (groupWithin rounds rs gathered) (groupWithin rounds rs' gathered) := by
  -- the members that are left change from round to round, and what has been gathered does too
  induction rounds generalizing rs rs' gathered with
  | zero => exact C.pure rfl
  | succ rounds ih =>
    refine C.bind (C.firstAdvancing h) fun a b hab => ?_
    cases hab with
    | some hab =>
      obtain ⟨hu, hrest⟩ := hab
      simp only [hu]
      exact ih hrest _
    | none => exact C.pure rfl

/-- Groups have as many rounds as members, and related lists have the same length. -/
theorem group {σ : Type} {rs rs' : List (Rule (σ → σ))} (h : List.Forall₂ (F n Eq) rs rs')
    (absent : σ) : F n Eq (group rs absent) (group rs' absent) := by
  rw [Rule.group, Rule.group, h.length_eq]
  exact C.groupWithin _ h absent

theorem typeMember : F n Eq typeMember typeMember := C.slot (C.passing (C.note _)) _

theorem varMember : F n Eq varMember varMember := C.slot (C.passing (C.note _)) _

theorem fieldMember : F n Eq fieldMember fieldMember := C.slot (C.passing (C.note _)) _

theorem otherFieldMember : F n Eq otherFieldMember otherFieldMember :=
  C.slot (C.passing (C.note _)) _

theorem typeVarNotes : F n Eq typeVarNotes typeVarNotes :=
  C.group (.cons C.typeMember (.cons C.varMember .nil)) _

theorem varFieldNotes : F n Eq varFieldNotes varFieldNotes :=
  C.group (.cons C.varMember (.cons C.fieldMember .nil)) _

theorem typeVarFieldNotes : F n Eq typeVarFieldNotes typeVarFieldNotes :=
  C.group (.cons C.typeMember (.cons C.varMember (.cons C.fieldMember .nil))) _

theorem typeVarFieldsNotes : F n Eq typeVarFieldsNotes typeVarFieldsNotes :=
  C.group (.cons C.typeMember (.cons C.varMember (.cons C.fieldMember
    (.cons C.otherFieldMember .nil)))) _

theorem componentNotes : F n Eq componentNotes componentNotes :=
  C.group (.cons C.fieldMember (.cons C.typeMember .nil)) _

/-- A component may have a field note and a type note in any order, another type has at most a type
note. -/
theorem nodeNotes (withField : Bool) : F n Eq (nodeNotes withField) (nodeNotes withField) := by
  cases withField with
  | true => exact C.componentNotes
  | false => exact C.bind_eq (C.noteSlot _) fun _ => C.pure rfl

/-! ### Types -/

/-- A type whose place has no field note. -/
theorem plainType (ht : ∀ b, F n Eq (g.type b) (g'.type b)) : F n Eq g.plainType g'.plainType :=
  C.bind_eq (ht false) fun _ => C.pure rfl

/-- The parts of a type depend on its shape. A set and the keys of a table are comparable types. -/
theorem components (ht : ∀ b, F n Eq (g.type b) (g'.type b))
    (hc : F n Eq g.comparable g'.comparable) (note : Note .type) (head : Ty.Head) :
    F n Eq (components g note head) (components g' note head) := by
  cases head with
  | atom => exact C.pure rfl
  | option => exact C.bind_eq (ht true) fun _ => C.pure rfl
  | wrapped => exact C.bind_eq (C.plainType ht) fun _ => C.pure rfl
  | set => exact C.bind_eq hc fun _ => C.pure rfl
  | joint => exact C.bind_eq (ht true) fun _ => C.bind_eq (ht true) fun _ => C.pure rfl
  | lambda =>
    exact C.bind_eq (C.plainType ht) fun _ => C.bind_eq (C.plainType ht) fun _ => C.pure rfl
  | table => exact C.bind_eq hc fun _ => C.bind_eq (C.plainType ht) fun _ => C.pure rfl

/-- The parts stand behind a parenthesis or a keyword, so their rules may be related one degree
lower. -/
theorem typeRule (ht : ∀ b, F (n - 1) Eq (g.type b) (g'.type b))
    (hc : F (n - 1) Eq g.comparable g'.comparable) (withField : Bool) :
    F n Eq (typeRule g withField) (typeRule g' withField) := by
  rw [typeRule_eq, typeRule_eq]
  refine C.nested (C.attempt (C.unlessOpen (C.passing (C.parenthesized (ht _))) (C.passing ?_)))
  refine C.passing_bind_eq (C.headWord _ rfl) fun head => ?_
  refine C.bind_eq (C.nodeNotes _) fun notes => ?_
  exact C.bind_eq (C.components ht hc _ _) fun _ => C.pure rfl

/-- Comparable types nest in parentheses only. -/
theorem comparableRule (hc : F (n - 1) Eq g.comparable g'.comparable) :
    F n Eq (comparableRule g) (comparableRule g') := by
  rw [comparableRule_eq, comparableRule_eq]
  refine C.nested (C.attempt (C.unlessOpen (C.passing (C.parenthesized hc)) (C.passing ?_)))
  refine C.passing_bind_eq (C.headWord _ rfl) fun base => ?_
  exact C.bind_eq (C.noteSlot _) fun _ => C.pure rfl

end TypeCongruence

/-! ## Values and code -/

namespace Congruence

variable {F P : Nat → RuleRelation} {Q : Nat → Rule PairTree → Rule PairTree → Prop}
  (C : Congruence F P Q) {n : Nat} {g g' : Knot} {α : Type}

include C

/-- An ordered choice tries related rules in the same order. -/
theorem firstOf {last last' : Rule α} (hl : F n Eq last last') {rs rs' : List (Rule α)}
    (h : List.Forall₂ (F n Eq) rs rs') : F n Eq (firstOf last rs) (firstOf last' rs') := by
  induction h with
  | nil => exact hl
  | cons hr _ ih =>
    refine C.optional_bind_eq hr fun a => ?_
    cases a with
    | some a => exact C.pure rfl
    | none => exact ih

theorem dataParts (hv : F n Eq g.value g'.value) (head : Data.Head) :
    F n Eq (dataParts g head) (dataParts g' head) := by
  cases head with
  | constant => exact C.pure rfl
  | wrapped => exact C.bind_eq hv fun _ => C.pure rfl
  | pair => exact C.bind_eq hv fun _ => C.bind_eq hv fun _ => C.pure rfl

/-- The keyword is passed before the parts are read. -/
theorem dataWord (hv : F (n - 1) Eq g.value g'.value) :
    P n Eq (dataWord g) (dataWord g') := by
  rw [dataWord_eq, dataWord_eq]
  exact C.passing_bind_eq (C.headWord _ rfl) fun _ => C.dataParts hv _

/-- The keyword and both values stay in the same degree. It is the braces around an entry that lower
it. -/
theorem entry (hv : F n Eq g.value g'.value) : F n Eq (entry g) (entry g') :=
  C.bind_eq (C.keyword rfl) fun _ =>
    C.bind_eq hv fun _ => C.bind_eq hv fun _ => C.pure rfl

/-- Both rules leave braces without entries alone, as they are no map. -/
theorem mapLiteral (hv : F (n - 1) Eq g.value g'.value) :
    F n Eq (mapLiteral g) (mapLiteral g') := by
  refine C.bind_eq (C.passing (C.braced (C.entry hv))) fun entries => ?_
  cases entries with
  | nil => exact C.miss
  | cons => exact C.pure rfl

/-- The items stand behind a brace. -/
theorem sequenceLiteral (hv : F (n - 1) Eq g.value g'.value) :
    F n Eq (sequenceLiteral g) (sequenceLiteral g') :=
  C.bind_eq (C.passing (C.braced hv)) fun _ => C.pure rfl

theorem codeLiteral (hb : F n Eq g.block g'.block) :
    F n Eq (codeLiteral g) (codeLiteral g') :=
  C.bind_eq hb fun _ => C.pure rfl

/-- The choice between the literals, in the order in which they are tried. -/
theorem plainValue (hv : F (n - 1) Eq g.value g'.value) (hb : F n Eq g.block g'.block) :
    F n Eq (plainValue g) (plainValue g') :=
  C.firstOf (C.codeLiteral hb)
    (.cons C.integerLiteral (.cons C.stringLiteral
      (.cons C.bytesLiteral (.cons (C.passing (C.dataWord hv))
        (.cons (C.mapLiteral hv) (.cons (C.sequenceLiteral hv) .nil))))))

/-- Code inside a value stays in the same degree, as no text is passed in front of it. -/
theorem valueRule (hv : F (n - 1) Eq g.value g'.value) (hb : F n Eq g.block g'.block) :
    F n Eq (valueRule g) (valueRule g') := by
  rw [valueRule_eq, valueRule_eq]
  exact C.nested (C.attempt (C.unlessOpen (C.passing (C.parenthesized hv)) (C.plainValue hv hb)))

/-! ### Contracts -/

theorem sectionWord (part : Part) : F n Eq (Rule.keyword part.keyword) (Rule.keyword part.keyword) :=
  C.keyword (isOfGrammar_keyword part)

/-- The event in the middle is one of progress, which related rules note down alike. -/
theorem typeSection (ht : ∀ b, F n Eq (g.type b) (g'.type b)) (part : Part) :
    F n Eq (typeSection g part) (typeSection g' part) := by
  rw [typeSection_eq, typeSection_eq]
  exact C.bind_eq (C.sectionWord _) fun _ => C.bind_eq (C.marking fun _ => rfl) fun _ =>
    C.bind_eq (C.plainType ht) fun _ => C.bind_eq C.semicolon fun _ => C.pure rfl

/-- The semicolon at the end may be left out. -/
theorem codeSection (hb : F n Eq g.block g'.block) :
    F n Eq (codeSection g) (codeSection g') := by
  rw [codeSection_eq, codeSection_eq]
  exact C.bind_eq (C.sectionWord _) fun _ => C.bind_eq (C.marking fun _ => rfl) fun _ =>
    C.bind_eq hb fun _ => C.optional_bind_eq C.semicolon fun _ => C.pure rfl

/-- A section that is missing is told by its keyword. -/
theorem require (part : Part) (a : Option α) : F n Eq (require part a) (require part a) := by
  cases a with
  | some a => exact C.pure rfl
  | none => exact C.fail (isOfGrammar_keyword part)

/-- The sections come in any order, and are asked for in a fixed one. -/
theorem contractRule (ht : ∀ b, F n Eq (g.type b) (g'.type b)) (hb : F n Eq g.block g'.block) :
    F n Eq (contractRule g) (contractRule g') := by
  refine C.bind_eq (C.group (.cons (C.slot (C.typeSection ht _) _)
    (.cons (C.slot (C.typeSection ht _) _) (.cons (C.slot (C.codeSection hb) _) .nil))) _)
    fun sections => ?_
  exact C.bind_eq (C.require _ _) fun _ => C.bind_eq (C.require _ _) fun _ =>
    C.bind_eq (C.require _ _) fun _ => C.pure rfl

/-- The contract inside a step may be missing, for the step to fail without it. -/
theorem bracedContract (ht : ∀ b, F n Eq (g.type b) (g'.type b)) (hb : F n Eq g.block g'.block) :
    F n (Option.Rel Eq) (bracedContract g) (bracedContract g') := by
  rw [bracedContract_eq, bracedContract_eq]
  exact C.optional (C.enclosed (C.contractRule ht hb))

/-! ### Instructions and macros -/

theorem twoBlocks (hb : F n Eq g.block g'.block) : F n Eq (twoBlocks g) (twoBlocks g') :=
  C.bind_eq hb fun _ => C.bind_eq hb fun _ => C.pure rfl

/-- The shape of an instruction tells its notes and then its parts. -/
theorem arguments (h : Knot.Related F Q n g g') (head : Instr.Head) :
    F n Eq (arguments g head) (arguments g' head) := by
  have ht := C.plainType h.type
  cases head with
  | plain => exact C.pure rfl
  | noted => exact C.bind_eq (C.noteSlot _) fun _ => C.pure rfl
  | typed => exact C.bind_eq (C.noteSlot _) fun _ => C.bind_eq ht fun _ => C.pure rfl
  | branch => exact C.bind_eq (C.twoBlocks h.block) fun _ => C.pure rfl
  | enclosing => exact C.bind_eq h.block fun _ => C.pure rfl
  | traversal => exact C.bind_eq (C.noteSlot _) fun _ => C.bind_eq h.block fun _ => C.pure rfl
  | project => exact C.bind_eq C.varFieldNotes fun _ => C.pure rfl
  | inject => exact C.bind_eq C.typeVarFieldsNotes fun _ => C.bind_eq ht fun _ => C.pure rfl
  | push =>
    exact C.bind_eq (C.noteSlot _) fun _ => C.bind_eq ht fun _ =>
      C.bind_eq h.value fun _ => C.pure rfl
  | some => exact C.bind_eq C.typeVarFieldNotes fun _ => C.pure rfl
  | none => exact C.bind_eq C.typeVarFieldNotes fun _ => C.bind_eq ht fun _ => C.pure rfl
  | unit => exact C.bind_eq C.typeVarNotes fun _ => C.pure rfl
  | pair => exact C.bind_eq C.typeVarFieldsNotes fun _ => C.pure rfl
  | nil => exact C.bind_eq C.typeVarNotes fun _ => C.bind_eq ht fun _ => C.pure rfl
  | emptySet =>
    exact C.bind_eq C.typeVarNotes fun _ => C.bind_eq h.comparable fun _ => C.pure rfl
  | emptyMap =>
    exact C.bind_eq C.typeVarNotes fun _ => C.bind_eq h.comparable fun _ =>
      C.bind_eq ht fun _ => C.pure rfl
  | lambda =>
    exact C.bind_eq (C.noteSlot _) fun _ => C.bind_eq ht fun _ =>
      C.bind_eq ht fun _ => C.bind_eq h.block fun _ => C.pure rfl
  | createAccount =>
    exact C.bind_eq (C.noteSlot _) fun _ => C.bind_eq (C.noteSlot _) fun _ => C.pure rfl
  | createContract =>
    refine C.bind_eq (C.noteSlot _) fun _ => C.bind_eq (C.noteSlot _) fun _ => ?_
    refine C.bind (C.bracedContract h.type h.block) fun a b hab => ?_
    cases hab with
    | some hab =>
      subst hab
      exact C.pure rfl
    | none => exact C.pure rfl

/-- Both rules look up the same word, so their arguments have the same shape. -/
theorem instruction (h : Knot.Related F Q n g g') :
    F n Eq (instruction g) (instruction g') := by
  rw [instruction_eq, instruction_eq]
  exact C.attempt (C.bind_eq C.mnemonicWord fun _ => C.arguments h _)

theorem noteRun (σ : Sigil) : F n Eq (Rule.many1 (note σ)) (Rule.many1 (note σ)) :=
  C.passing (C.many1 (C.note σ))

theorem macroArguments (h : Knot.Related F Q n g g') (name : MacroName) :
    F n Eq (macroArguments g name) (macroArguments g' name) := by
  cases name with
  | fixed => exact C.pure rfl
  | compare => exact C.bind_eq (C.noteSlot _) fun _ => C.pure rfl
  | ifCompared => exact C.bind_eq (C.twoBlocks h.block) fun _ => C.pure rfl
  | ifCompare =>
    exact C.bind_eq (C.noteSlot _) fun _ => C.bind_eq (C.twoBlocks h.block) fun _ => C.pure rfl
  | ifSome => exact C.bind_eq (C.twoBlocks h.block) fun _ => C.pure rfl
  | assertCompared => exact C.pure rfl
  | assertCompare => exact C.pure rfl
  | dipDeep => exact C.bind_eq h.block fun _ => C.pure rfl
  | dupDeep => exact C.bind_eq (C.noteSlot _) fun _ => C.pure rfl
  | pairUp =>
    exact C.bind_eq (C.group (.cons (C.slot (C.passing (C.note _)) _)
      (.cons (C.slot (C.passing (C.note _)) _) (.cons (C.slot (C.noteRun _) _) .nil))) _)
      fun _ => C.pure rfl
  | unpair =>
    exact C.bind_eq (C.group (.cons (C.slot (C.noteRun _) _)
      (.cons (C.slot (C.noteRun _) _) .nil)) _) fun _ => C.pure rfl
  | getPath => exact C.bind_eq C.varFieldNotes fun _ => C.pure rfl
  | setPath => exact C.bind_eq C.varFieldNotes fun _ => C.pure rfl
  | mapPath => exact C.bind_eq C.varFieldNotes fun _ => C.bind_eq h.block fun _ => C.pure rfl

theorem macroBy (h : Knot.Related F Q n g g') {name name' : Rule MacroName}
    (hn : F n Eq name name') : F n Eq (macroBy g name) (macroBy g' name') :=
  C.bind_eq hn fun _ => C.macroArguments h _

/-- The names are tried in a fixed order, each with the arguments of its family. -/
theorem macroRule (h : Knot.Related F Q n g g') :
    F n Eq (macroRule g) (macroRule g') := by
  rw [macroRule_eq, macroRule_eq]
  refine C.recording (fun _ _ => rfl) (C.firstOf (C.fail rfl) ?_)
  rw [List.forall₂_map_left_iff, List.forall₂_map_right_iff]
  exact (C.macroNames h.pairTree).imp fun _ _ hn => C.macroBy h hn

/-- A step is an instruction, a macro or a block, tried in this order. -/
theorem step (h : Knot.Related F Q n g g') : F n Eq (step g) (step g') := by
  have hi : F n Eq (instructionStep g) (instructionStep g') :=
    C.bind_eq (C.instruction h) fun _ => C.pure rfl
  have hm : F n Eq (macroStep g) (macroStep g') :=
    C.bind_eq (C.macroRule h) fun _ => C.pure rfl
  have hb : F n Eq (nestedBlock g) (nestedBlock g') := C.bind_eq h.block fun _ => C.pure rfl
  exact C.nested (C.firstOf hb (.cons hi (.cons hm .nil)))

/-- Steps stand behind the brace of their block, one degree lower. -/
theorem blockRule (h : Knot.Related F Q (n - 1) g g') : F n Eq (blockRule g) (blockRule g') := by
  rw [blockRule_eq, blockRule_eq]
  exact C.nested (C.bind_eq (C.marking fun _ => rfl) fun _ => C.passing (C.braced (C.step h)))

/-- **The grammar respects a congruence.** Knots that are related in the next lower
degree, with blocks related in this one, are related when they are tied once more. -/
theorem next (h : Knot.Related F Q (n - 1) g g') (hb : F n Eq g.block g'.block) :
    Knot.Related F Q n g.next g'.next where
  type withField := C.typeRule h.type h.comparable withField
  comparable := C.comparableRule h.comparable
  value := C.valueRule h.value hb
  block := C.blockRule h
  pairTree := C.pairTreeRule h.pairTree

end Congruence

end Grammar

end Michelson
