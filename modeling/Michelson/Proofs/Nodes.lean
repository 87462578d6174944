import Michelson.CodeAsData
import Michelson.Proofs.Repetition

/-!
# The grammar on a track

What each rule of the full grammar makes of a track, said by the next token and by what
the rules for the parts make of the places behind it.

* The lemmas that begin with `gives` say all that a rule may read; those that begin with
  `yields` and `misses` say when it reads something and when not.
* `Track.kept_*` lists the rules that are kept.
-/

namespace Michelson

open Rule Grammar

namespace Track

variable {T : Track} {α β : Type} {k j l : Nat}

/-! ## Rules that are kept -/

/-- A rule of the full grammar is kept, since the grammar respects being kept. -/
theorem kept_type (withField : Bool) : T.Kept (Knot.full.type withField) :=
  kept_of_respected (R := fun g => g.type withField) fun _ _ _ _ _ _ _ h => h.type withField

theorem kept_plainType : T.Kept Knot.full.plainType := kept_of_respected respected_plainType

theorem kept_comparable : T.Kept Knot.full.comparable :=
  kept_of_respected fun _ _ _ _ _ _ _ h => h.comparable

theorem kept_value : T.Kept Knot.full.value := kept_of_respected respected_value

theorem kept_block : T.Kept Knot.full.block := kept_of_respected respected_block

theorem kept_noteSlot (σ : Sigil) : T.Kept (noteSlot σ) :=
  kept_of_respected (R := fun _ => noteSlot σ) fun _ _ _ C _ _ _ _ => C.noteSlot σ

/-- A run of notes is kept, as it is a rule of the grammar too. -/
theorem kept_noteRun (σ : Sigil) : T.Kept (many1 (note σ)) :=
  kept_of_respected (R := fun _ => many1 (note σ)) fun _ _ _ C _ _ _ _ => C.noteRun σ

theorem kept_integerLiteral : T.Kept integerLiteral :=
  kept_of_respected (R := fun _ => integerLiteral) fun _ _ _ C _ _ _ _ => C.integerLiteral

theorem kept_stringLiteral : T.Kept stringLiteral :=
  kept_of_respected (R := fun _ => stringLiteral) fun _ _ _ C _ _ _ _ => C.stringLiteral

theorem kept_bytesLiteral : T.Kept bytesLiteral :=
  kept_of_respected (R := fun _ => bytesLiteral) fun _ _ _ C _ _ _ _ => C.bytesLiteral

theorem kept_dataParts (head : Data.Head) : T.Kept (dataParts Knot.full head) :=
  kept_of_respected (R := fun g => dataParts g head) fun _ _ _ C _ _ _ h => C.dataParts h.value head

theorem kept_entry : T.Kept (entry Knot.full) :=
  kept_of_respected fun _ _ _ C _ _ _ h => C.entry h.value

/-- A congruence asks for the values in the braces one degree lower. -/
theorem kept_mapLiteral : T.Kept (mapLiteral Knot.full) :=
  kept_of_respected fun _ _ _ C _ _ _ h => C.mapLiteral (C.later h.value)

theorem kept_sequenceLiteral : T.Kept (sequenceLiteral Knot.full) :=
  kept_of_respected fun _ _ _ C _ _ _ h => C.sequenceLiteral (C.later h.value)

theorem kept_dataWord : T.Kept (dataWord Knot.full) :=
  kept_of_respected fun _ _ _ C _ _ _ h => C.passing (C.dataWord (C.later h.value))

theorem kept_step : T.Kept (step Knot.full) := kept_of_respected respected_step

theorem kept_instructionStep : T.Kept (instructionStep Knot.full) :=
  kept_of_respected fun _ _ _ C _ _ _ h => C.bind (C.instruction h) fun _ _ hab => C.pure (congrArg _ hab)

theorem kept_macroStep : T.Kept (macroStep Knot.full) :=
  kept_of_respected fun _ _ _ C _ _ _ h => C.bind (C.macroRule h) fun _ _ hab => C.pure (congrArg _ hab)

theorem kept_arguments (head : Instr.Head) : T.Kept (arguments Knot.full head) :=
  kept_of_respected (R := fun g => arguments g head) fun _ _ _ C _ _ _ h => C.arguments h head

/-- What follows the name of a macro begins on a token again. -/
theorem kept_macroArguments (n : MacroName) : T.Kept (macroArguments Knot.full n) :=
  kept_of_respected (R := fun g => macroArguments g n) fun _ _ _ C _ _ _ h => C.macroArguments h n

/-! ## Names of macros -/

section Names

variable {r : Rule MacroName} {P : List Char → MacroName → Prop} {w : List Char} {n : MacroName}

/-- A reading of a name comes to looking its word up, whatever way the letters are scanned. -/
theorem attempt_reading (h : Naming r P) (hP : P ∈ spellings) :
    ∀ s, attempt r none s = lexical (lookName P) none s :=
  attempt_name h fun _ _ hw => (MacroName.spelled_of_mem hP hw).isValid

/-- Inside the word there are no places of the track, so the reading is kept as a whole. -/
theorem kept_reading (h : Naming r P) (hP : P ∈ spellings) : T.Kept r := by
  refine Kept.of_attempt fun k hk s s' hs hmem => ?_
  have hrun := kept_lexical (lexical_name P) k hk s s' hs hmem
  change Setting.Alike _ _ _ (attempt r none s) (attempt r none s')
  rw [attempt_reading h hP, attempt_reading h hP]
  exact hrun

/-- A reading yields the name that the next word spells. -/
theorem yields_reading (h : Naming r P) (hP : P ∈ spellings) (ht : T.token? k = some (.word w))
    (hw : P w n) : T.Yields r k n (k + 1) := by
  refine Yields.of_attempt ⟨Nat.le_succ k, le_of_token? ht, fun s hs => ?_⟩
  rw [attempt_reading h hP]
  refine (yields_lexical (lexical_name P) ht ?_).run s hs
  rw [readName, Option.bind_some, Token.letters?]
  dsimp only
  rw [spelledName_eq h hw]

/-- A reading misses where the next word is none of its names. -/
theorem misses_reading (h : Naming r P) (hP : P ∈ spellings) (hk : k ≤ T.length)
    (hw : ∀ w n, T.token? k = some (.word w) → ¬P w n) : T.Misses r k := by
  refine Misses.of_attempt (r := r) fun s hs => ?_
  rw [attempt_reading h hP]
  refine misses_lexical (lexical_name P) hk (.inl ?_) s hs
  rcases ht : T.token? k with _ | t
  · rfl
  · cases t with
    | word w =>
      rw [readName, Option.bind_some, Token.letters?]
      dsimp only
      rcases hn : spelledName P w with _ | n
      · rfl
      · exact absurd (of_spelledName hn) (hw w n ht)
    | _ => rfl

/-- What a reading gives is spelled by the next word, which it passes. -/
theorem gives_reading (h : Naming r P) (hP : P ∈ spellings) (hk : k ≤ T.length) :
    T.Gives r k fun n j => ∃ w, T.token? k = some (.word w) ∧ n.Spelled w ∧ j = k + 1 := by
  refine ((kept_reading h hP).gives hk).mono fun n j _ hn => ?_
  by_cases hex : ∃ w n, T.token? k = some (.word w) ∧ P w n
  · obtain ⟨w, n', ht, hw⟩ := hex
    obtain ⟨rfl, rfl⟩ := hn.unique (yields_reading h hP ht hw)
    exact ⟨w, ht, MacroName.spelled_of_mem hP hw, rfl⟩
  · refine absurd (misses_reading h hP hk fun w n' ht hw => hex ⟨w, n', ht, hw⟩) fun hmiss => ?_
    exact hn.not_misses hmiss

variable {rs : List (Rule MacroName)} {Ps : List (List Char → MacroName → Prop)} {m : Macro}

/-- A macro is read by the first reading that knows its name. -/
theorem yields_readings (h : List.Forall₂ Naming rs Ps) (hPs : ∀ P ∈ Ps, P ∈ spellings)
    (ht : T.token? k = some (.word w)) (hn : n.Spelled w)
    (hm : T.Yields (macroArguments Knot.full n) (k + 1) m j) (hex : ∃ P ∈ Ps, P w n) :
    T.Yields (firstOf (fail .macroName) (rs.map (macroBy Knot.full))) k m j := by
  -- the readings in front either read the same name or miss
  induction h with
  | nil =>
    obtain ⟨P, hP, -⟩ := hex
    exact absurd hP List.not_mem_nil
  | @cons r P rs Ps hr _ ih =>
    obtain ⟨hP, hPs⟩ := List.forall_mem_cons.mp hPs
    by_cases hw : ∃ n', P w n'
    · obtain ⟨n', hw⟩ := hw
      -- whichever reading comes first, it reads the same name
      obtain rfl := hn.unique (MacroName.spelled_of_mem hP hw)
      exact Yields.firstOf ((yields_reading hr hP ht hw).bind hm) _ _
    · have hmiss : T.Misses r k := by
        refine misses_reading hr hP ((Nat.le_succ k).trans (le_of_token? ht)) fun w' n' ht' hw' => ?_
        obtain rfl : w = w' := by simpa using ht.symm.trans ht'
        exact hw ⟨n', hw'⟩
      refine Misses.firstOf_yields (hmiss.bind _) (ih hPs ?_)
      obtain ⟨Q, hQ, hwQ⟩ := hex
      rcases List.mem_cons.mp hQ with rfl | hQ
      · exact absurd ⟨n, hwQ⟩ hw
      · exact ⟨Q, hQ, hwQ⟩

/-- A macro is read where its name and its parts are. -/
theorem yields_macroRule (ht : T.token? k = some (.word w)) (hn : n.Spelled w)
    (hm : T.Yields (macroArguments Knot.full n) (k + 1) m j) :
    T.Yields (macroRule Knot.full) k m j := by
  rw [macroRule_eq]
  exact Yields.recording (yields_readings namings (fun _ h => h) ht hn hm hn.exists_mem) _

/-- Whichever reading comes through, a name is spelled and its arguments follow. -/
theorem gives_readings (h : List.Forall₂ Naming rs Ps) (hPs : ∀ P ∈ Ps, P ∈ spellings)
    (hk : k ≤ T.length) :
    T.Gives (firstOf (fail .macroName) (rs.map (macroBy Knot.full))) k fun m j =>
      ∃ w n, T.token? k = some (.word w) ∧ n.Spelled w ∧
        T.Yields (macroArguments Knot.full n) (k + 1) m j := by
  induction h with
  | nil => exact .fail
  | @cons r P rs Ps hr _ ih =>
    obtain ⟨hP, hPs⟩ := List.forall_mem_cons.mp hPs
    have hkept : T.Kept (macroBy Knot.full r) := (kept_reading hr hP).bind kept_macroArguments
    refine Gives.firstOf ?_ hkept hk fun _ => ih hPs
    refine (gives_reading hr hP hk).bind fun n i _ hi hn => ?_
    obtain ⟨w, ht, hn, rfl⟩ := hn
    exact ((kept_macroArguments n).gives hi).mono fun m j _ hm => ⟨w, n, ht, hn, hm⟩

/-- All that is read as a macro is a name with its arguments. -/
theorem gives_macroRule (hk : k ≤ T.length) :
    T.Gives (macroRule Knot.full) k fun m j => ∃ w n, T.token? k = some (.word w) ∧ n.Spelled w ∧
      T.Yields (macroArguments Knot.full n) (k + 1) m j := by
  rw [macroRule_eq]
  exact (gives_readings namings (fun _ h => h) hk).recording

/-- Where no word comes next, every reading misses. -/
theorem misses_readings (h : List.Forall₂ Naming rs Ps) (hPs : ∀ P ∈ Ps, P ∈ spellings)
    (hk : k ≤ T.length) (hw : ∀ w, T.token? k ≠ some (.word w)) :
    T.Misses (firstOf (fail .macroName) (rs.map (macroBy Knot.full))) k := by
  induction h with
  | nil => exact misses_fail _ _
  | @cons r P rs Ps hr _ ih =>
    obtain ⟨hP, hPs⟩ := List.forall_mem_cons.mp hPs
    have hmiss : T.Misses r k := misses_reading hr hP hk fun w n ht => absurd ht (hw w)
    exact Misses.firstOf (hmiss.bind _) hk (ih hPs)

/-- No macro is read where no word comes next. -/
theorem misses_macroRule (hk : k ≤ T.length) (hw : ∀ w, T.token? k ≠ some (.word w)) :
    T.Misses (macroRule Knot.full) k := by
  rw [macroRule_eq]
  exact Misses.recording (misses_readings namings (fun _ h => h) hk hw) _

end Names

/-! ## Parentheses -/

/-- The rule reads what `plain` does, in any number of parentheses. -/
def Wraps (r plain : Rule α) : Prop := nested (attempt (unlessOpen (parenthesized r) plain)) = r

theorem wraps_type (withField : Bool) : Wraps (Knot.full.type withField) (do
    let head ← headWord Ty.Head.ofKeyword? .type
    let notes ← nodeNotes withField
    let t ← components Knot.full notes.type head
    pure (notes.field, t)) := by
  rw [Wraps, ← typeRule_eq, typeRule_full]

theorem wraps_comparable : Wraps Knot.full.comparable (do
    let base ← headWord Base.ofKeyword? .comparable
    let n ← noteSlot .type
    pure ⟨base, n⟩) := by
  rw [Wraps, ← comparableRule_eq, comparableRule_full]

theorem wraps_value : Wraps Knot.full.value (plainValue Knot.full) := by
  rw [Wraps, ← valueRule_eq, valueRule_full]

section Wraps

variable {r plain : Rule α} {a : α} {P : α → Nat → Prop}

/-- On a place of the track, the next character decides as the next token does. -/
theorem unlessOpen_place {inner : Rule α} (hk : k ≤ T.length) {s : State}
    (hs : s.cursor = T.place k) : unlessOpen inner plain none s =
      if T.token? k = some (.mark '(') then inner none s else plain none s := by
  rw [unlessOpen_run, hs]
  exact if_congr (T.head?_place hk (by decide)) rfl rfl

/-- One pair of parentheses more is read, if what they hold is. -/
theorem Wraps.yields_open (h : Wraps r plain) (hopen : T.token? k = some (.mark '('))
    (hr : T.Yields r (k + 1) a j) (hclose : T.token? j = some (.mark ')')) :
    T.Yields r k a (j + 1) := by
  rw [← h]
  have hk : k ≤ T.length := (Nat.le_succ k).trans (le_of_token? hopen)
  have hinner : T.Yields (parenthesized r) k a (j + 1) :=
    (yields_symbol (by decide) hopen).bind (hr.bind ((yields_symbol (by decide) hclose).bind
      (yields_pure (le_of_token? hclose) a)))
  refine (Yields.attempt ⟨hinner.le, hinner.le_length, fun s hs => ?_⟩).nested
  rw [unlessOpen_place hk hs, if_pos hopen]
  exact hinner.run s hs

/-- Without a parenthesis in front, what is read plainly is read. -/
theorem Wraps.yields (h : Wraps r plain) (hopen : T.token? k ≠ some (.mark '('))
    (hplain : T.Yields plain k a j) : T.Yields r k a j := by
  rw [← h]
  have hk : k ≤ T.length := hplain.le.trans hplain.le_length
  refine (Yields.attempt ⟨hplain.le, hplain.le_length, fun s hs => ?_⟩).nested
  rw [unlessOpen_place hk hs, if_neg hopen]
  exact hplain.run s hs

/-- Without a parenthesis in front, what is missed plainly is missed. -/
theorem Wraps.misses (h : Wraps r plain) (hk : k ≤ T.length)
    (hopen : T.token? k ≠ some (.mark '(')) (hplain : T.Misses plain k) : T.Misses r k := by
  rw [← h]
  refine (Misses.attempt fun s hs => ?_).nested
  rw [unlessOpen_place hk hs, if_neg hopen]
  exact hplain s hs

/-- What is read in parentheses, and what is read without. -/
theorem Wraps.gives (h : Wraps r plain) (hr : T.Kept r) (hk : k ≤ T.length)
    (hplain : T.Gives plain k P) : T.Gives r k fun a j =>
      (∃ i, T.token? k = some (.mark '(') ∧ T.Yields r (k + 1) a i ∧ j = i + 1) ∨
        T.token? k ≠ some (.mark '(') ∧ P a j := by
  have hinner : T.Gives (parenthesized r) k fun a j =>
      ∃ i, T.token? k = some (.mark '(') ∧ T.Yields r (k + 1) a i ∧ j = i + 1 := by
    refine (gives_symbol (by decide) hk).bind fun _ i _ hi hopen => ?_
    obtain ⟨hopen, rfl⟩ := hopen
    refine (hr.gives hi).bind fun a i _ hi ha => ?_
    refine (gives_symbol (by decide) hi).bind fun _ j _ hj hclose => ?_
    obtain ⟨-, rfl⟩ := hclose
    exact .pure hj ⟨i, hopen, ha, rfl⟩
  have hnode : T.Gives (unlessOpen (parenthesized r) plain) k fun a j =>
      (∃ i, T.token? k = some (.mark '(') ∧ T.Yields r (k + 1) a i ∧ j = i + 1) ∨
        T.token? k ≠ some (.mark '(') ∧ P a j := by
    intro s t a hs hrun
    rw [unlessOpen_place hk hs] at hrun
    split at hrun
    · obtain ⟨j, hkj, hj, ht, ha⟩ := hinner s t a hs hrun
      exact ⟨j, hkj, hj, ht, .inl ha⟩
    · rename_i hopen
      obtain ⟨j, hkj, hj, ht, ha⟩ := hplain s t a hs hrun
      exact ⟨j, hkj, hj, ht, .inr ⟨hopen, ha⟩⟩
  have hgives := hnode.attempt.nested
  rwa [h] at hgives

/-- What holds of all that is read further on and without parentheses holds of all that
is read. -/
theorem Wraps.gives_of_later (h : Wraps r plain) (hr : T.Kept r) (hk : k ≤ T.length) {Q : α → Prop}
    (hlater : ∀ i, k < i → i ≤ T.length → T.Gives r i fun a _ => Q a)
    (hplain : T.Gives plain k fun a _ => Q a) : T.Gives r k fun a _ => Q a := by
  refine (h.gives hr hk hplain).mono fun a j _ ha => ?_
  rcases ha with ⟨i, hopen, ha, -⟩ | ⟨-, ha⟩
  · exact ha.of_gives (hlater (k + 1) (Nat.lt_succ_self k) (le_of_token? hopen))
  · exact ha

end Wraps

/-! ## Types -/

theorem Yields.plainType {f : Note .field} {t : Ty} (h : T.Yields (Knot.full.type false) k (f, t) j) :
    T.Yields Knot.full.plainType k t j := h.map _

/-! ## Values -/

/-- A token that none of the three kinds of literals takes is left by all three. -/
theorem misses_literals {t : Token} (ht : T.token? k = some t)
    (hi : ∃ what, readInteger (some t) = .refused what)
    (hs : ∃ what, readString (some t) = .refused what)
    (hb : ∃ what, readBytes (some t) = .refused what) :
    T.Misses integerLiteral k ∧ T.Misses stringLiteral k ∧ T.Misses bytesLiteral k := by
  have hk : k ≤ T.length := (Nat.le_succ k).trans (le_of_token? ht)
  rw [integerLiteral_eq, stringLiteral_eq, bytesLiteral_eq]
  exact ⟨misses_lexical lexical_integer hk (.inr (ht ▸ hi)),
    misses_lexical lexical_string hk (.inr (ht ▸ hs)), misses_lexical lexical_bytes hk (.inr (ht ▸ hb))⟩

/-- What the rule for values without parentheses reads. -/
inductive PlainData (T : Track) (k : Nat) : Data → Nat → Prop
  | literal {t : Token} {d : Data} (ht : T.token? k = some t)
      (hd : readInteger (some t) = .taken d ∨ readString (some t) = .taken d ∨
        readBytes (some t) = .taken d) : PlainData T k d (k + 1)
  | word {w : List Char} {head : Data.Head} {d : Data} {j : Nat} (ht : T.token? k = some (.word w))
      (hw : Data.Head.ofKeyword? (String.ofList w) = some head)
      (h : T.Yields (dataParts Knot.full head) (k + 1) d j) : PlainData T k d j
  | map {es : List Entry} {j : Nat} (hne : es ≠ []) (h : T.Braced (entry Knot.full) k es j) :
      PlainData T k (.map es) j
  | seq {ds : List Data} {j : Nat} (h : T.Braced Knot.full.value k ds j) : PlainData T k (.seq ds) j
  | code {b : Block} {j : Nat} (h : T.Yields Knot.full.block k b j) : PlainData T k (.code b) j

/-- What is read without parentheses is one of the kinds of values. -/
theorem gives_plainValue (hk : k ≤ T.length) :
    T.Gives (plainValue Knot.full) k (T.PlainData k) := by
  -- the kinds are tried in this order, and what one of them misses is left to the next
  refine Gives.firstOf ?_ kept_integerLiteral hk fun _ => ?_
  · rw [integerLiteral_eq]
    refine (Gives.lexical lexical_integer hk).mono ?_
    rintro d _ - ⟨t, ht, hd, rfl⟩
    exact .literal ht (.inl hd)
  refine Gives.firstOf ?_ kept_stringLiteral hk fun _ => ?_
  · rw [stringLiteral_eq]
    refine (Gives.lexical lexical_string hk).mono ?_
    rintro d _ - ⟨t, ht, hd, rfl⟩
    exact .literal ht (.inr (.inl hd))
  refine Gives.firstOf ?_ kept_bytesLiteral hk fun _ => ?_
  · rw [bytesLiteral_eq]
    refine (Gives.lexical lexical_bytes hk).mono ?_
    rintro d _ - ⟨t, ht, hd, rfl⟩
    exact .literal ht (.inr (.inr hd))
  refine Gives.firstOf ?_ kept_dataWord hk fun _ => ?_
  · rw [dataWord_eq, headWord_eq]
    refine (gives_word hk).bind fun head i _ hi hw => ?_
    obtain ⟨w, ht, hw, rfl⟩ := hw
    exact ((kept_dataParts head).gives hi).mono fun d j _ hd => .word ht hw hd
  refine Gives.firstOf ?_ kept_mapLiteral hk fun _ => ?_
  · refine (Braced.gives (fun i _ hi => kept_entry.gives hi) hk).bind fun es j _ hj hes => ?_
    cases es with
    | nil => exact .miss
    | cons e es => exact .pure hj (.map (List.cons_ne_nil e es) hes)
  refine Gives.firstOf ?_ kept_sequenceLiteral hk fun _ => ?_
  · refine (Braced.gives (fun i _ hi => kept_value.gives hi) hk).bind fun ds j _ hj hds => ?_
    exact .pure hj (.seq hds)
  · exact (kept_block.gives hk).bind fun b j _ hj hb => .pure hj (.code hb)

/-- A word that is no keyword of values is left alone. -/
theorem misses_dataWord (hk : k ≤ T.length) (h : ∀ w, T.token? k = some (.word w) →
    Data.Head.ofKeyword? (String.ofList w) = none) : T.Misses (dataWord Knot.full) k := by
  rw [dataWord_eq, headWord_eq]
  exact (misses_word hk h).bind _

/-- No map is read where no entry begins. -/
theorem misses_mapLiteral (hopen : T.token? k = some (.mark '{'))
    (hentry : T.token? (k + 1) ≠ some (.word "Elt".toList)) : T.Misses (mapLiteral Knot.full) k := by
  by_cases hend : T.token? (k + 1) = some (.mark '}')
  · -- a map without entries is left to the sequence
    have hempty : T.Braced (entry Knot.full) k [] (k + 2) := ⟨hopen, .inl ⟨rfl, hend, rfl⟩⟩
    exact hempty.yields.bind_misses fun s _ => ⟨s, rfl⟩
  · have hmiss : T.Misses (entry Knot.full) (k + 1) := by
      refine Misses.bind ?_ _
      rw [keyword_eq]
      exact misses_word (le_of_token? hopen) fun w ht => if_neg fun hw => hentry (by rw [ht, hw])
    exact (misses_braced_of_item hopen hend hmiss).bind _

/-- No value begins with a word that is no keyword of values. -/
theorem misses_value_of_word {w : List Char} (ht : T.token? k = some (.word w))
    (hw : Data.Head.ofKeyword? (String.ofList w) = none) : T.Misses Knot.full.value k := by
  have hk : k ≤ T.length := (Nat.le_succ k).trans (le_of_token? ht)
  have hopen : T.token? k ≠ some (.mark '{') := by
    rw [ht]
    exact fun h => nomatch h
  obtain ⟨hi, hs, hb⟩ := misses_literals ht ⟨_, rfl⟩ ⟨_, rfl⟩ ⟨_, rfl⟩
  refine wraps_value.misses hk (by rw [ht]; exact fun h => nomatch h) ?_
  refine hi.firstOf hk (hs.firstOf hk (hb.firstOf hk ?_))
  have hword : T.Misses (dataWord Knot.full) k := by
    refine misses_dataWord hk fun w' ht' => ?_
    obtain rfl : w = w' := by simpa using ht.symm.trans ht'
    exact hw
  have hblock : T.Misses Knot.full.block k := by
    rw [← blockRule_full, blockRule_eq]
    exact ((yields_marking hk _).bind_misses (misses_braced hk hopen)).nested
  refine hword.firstOf hk (Misses.firstOf ((misses_braced hk hopen).bind _) hk ?_)
  exact Misses.firstOf ((misses_braced hk hopen).bind _) hk (hblock.bind _)

/-! ## Code -/

/-- A block is read where its braces and steps are. -/
theorem yields_block {b : Block} (h : T.Braced (step Knot.full) k b j) :
    T.Yields Knot.full.block k b j := by
  rw [← blockRule_full, blockRule_eq]
  have hk := h.yields.le.trans h.yields.le_length
  exact ((yields_marking hk _).bind h.yields).nested

theorem gives_marking {e : Position → Event} (hk : k ≤ T.length) :
    T.Gives (marking e) k fun _ j => j = k := by
  intro s t a hs hrun
  obtain ⟨-, rfl⟩ := Reply.mk.inj hrun
  exact ⟨k, le_rfl, hk, hs, rfl⟩

/-- All that is read as a block is steps in braces. -/
theorem gives_block (hk : k ≤ T.length) :
    T.Gives Knot.full.block k (T.Braced (step Knot.full) k) := by
  have hgives : T.Gives (blockRule Knot.full) k (T.Braced (step Knot.full) k) := by
    rw [blockRule_eq]
    refine ((gives_marking hk).bind fun _ i _ hi h => ?_).nested
    subst h
    exact Braced.gives (fun i _ hi => kept_step.gives hi) hk
  rwa [blockRule_full] at hgives

/-- What the rule for a step reads. -/
inductive OpAt (T : Track) (k : Nat) : Op → Nat → Prop
  | prim {w : List Char} {head : Instr.Head} {i : Instr} {j : Nat} (ht : T.token? k = some (.word w))
      (hw : Instr.Head.ofMnemonic? (String.ofList w) = some head)
      (h : T.Yields (arguments Knot.full head) (k + 1) i j) : OpAt T k (.prim i) j
  | mac {w : List Char} {n : MacroName} {m : Macro} {j : Nat} (ht : T.token? k = some (.word w))
      (hn : n.Spelled w) (h : T.Yields (macroArguments Knot.full n) (k + 1) m j)
      (hmiss : T.Misses (instruction Knot.full) k) : OpAt T k (.mac m) j
  | seq {b : Block} {j : Nat} (h : T.Yields Knot.full.block k b j) : OpAt T k (.seq b) j

/-- All that is read as an instruction is a mnemonic with its arguments. -/
theorem gives_instruction (hk : k ≤ T.length) : T.Gives (instruction Knot.full) k fun i j =>
    ∃ w head, T.token? k = some (.word w) ∧ Instr.Head.ofMnemonic? (String.ofList w) = some head ∧
      T.Yields (arguments Knot.full head) (k + 1) i j := by
  rw [instruction_eq, mnemonicWord_eq]
  refine ((gives_word hk).bind fun head i _ hi hw => ?_).attempt
  obtain ⟨w, ht, hw, rfl⟩ := hw
  exact ((kept_arguments head).gives hi).mono fun i j _ h => ⟨w, head, ht, hw, h⟩

/-- A word that is no mnemonic is left alone. -/
theorem misses_instruction (hk : k ≤ T.length) (h : ∀ w, T.token? k = some (.word w) →
    Instr.Head.ofMnemonic? (String.ofList w) = none) : T.Misses (instruction Knot.full) k := by
  rw [instruction_eq, mnemonicWord_eq]
  exact ((misses_word hk h).bind _).attempt

/-- All that is read as a step is an instruction, a macro where no instruction could be read, or a
block. -/
theorem gives_step (hk : k ≤ T.length) : T.Gives (step Knot.full) k (T.OpAt k) := by
  refine (Gives.firstOf ?_ kept_instructionStep hk fun hmiss => ?_).nested
  · refine (gives_instruction hk).bind fun i j _ hj h => ?_
    obtain ⟨w, head, ht, hw, h⟩ := h
    exact .pure hj (.prim ht hw h)
  refine Gives.firstOf ?_ kept_macroStep hk fun _ => ?_
  · refine (gives_macroRule hk).bind fun m j _ hj h => ?_
    obtain ⟨w, n, ht, hn, h⟩ := h
    exact .pure hj (.mac ht hn h hmiss.of_bind_pure)
  · exact (kept_block.gives hk).bind fun b j _ hj hb => .pure hj (.seq hb)

end Track

end Michelson
