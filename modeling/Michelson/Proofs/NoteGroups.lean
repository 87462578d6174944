import Michelson.Proofs.Nodes
import Michelson.WellFormed

/-!
# Groups of notes on a track

The members of a group of notes fill slots, and what a member reads is told by the sigil
of the next token.

* `NoteSlot`, `PairSlot` and `LeafSlot` name the slots of the groups of the grammar.
* `Track.gives_notes` and the lemmas beside it say that the notes that are read are well
  formed, and that of two slots of one kind the first is filled first.
-/

namespace Michelson

open Rule Grammar

/-! ## Slots -/

/-- The slots of the notes of a type or an instruction. -/
inductive NoteSlot where
  | type
  | var
  | field
  | otherField
deriving DecidableEq

namespace NoteSlot

/-- The sigil of the notes in a slot. -/
def sigil : NoteSlot → Sigil
  | type => .type
  | var => .var
  | field => .field
  | otherField => .field

/-- What is in a slot. -/
def get : (s : NoteSlot) → Notes → Note s.sigil
  | type, notes => notes.type
  | var, notes => notes.var
  | field, notes => notes.field
  | otherField, notes => notes.otherField

/-- Fills a slot. -/
def put : (s : NoteSlot) → Note s.sigil → Notes → Notes
  | type, n, notes => { notes with type := n }
  | var, n, notes => { notes with var := n }
  | field, n, notes => { notes with field := n }
  | otherField, n, notes => { notes with otherField := n }

/-- The member of a group that fills a slot. -/
def member (s : NoteSlot) : Rule (Notes → Notes) := slot (note s.sigil) s.put

theorem get_put (s : NoteSlot) (n : Note s.sigil) (notes : Notes) : s.get (s.put n notes) = n := by
  cases s <;> rfl

/-- The slots are kept apart. -/
theorem get_put_of_ne {s s' : NoteSlot} (h : s' ≠ s) (n : Note s.sigil) (notes : Notes) :
    s'.get (s.put n notes) = s'.get notes := by
  cases s <;> cases s' <;> first | rfl | exact absurd rfl h

end NoteSlot

/-! The groups of the grammar, by the slots that they fill. -/

theorem typeVarNotes_eq : typeVarNotes = group ([.type, .var].map NoteSlot.member) {} := rfl

theorem varFieldNotes_eq : varFieldNotes = group ([.var, .field].map NoteSlot.member) {} := rfl

theorem typeVarFieldNotes_eq :
    typeVarFieldNotes = group ([.type, .var, .field].map NoteSlot.member) {} := rfl

theorem typeVarFieldsNotes_eq :
    typeVarFieldsNotes = group ([.type, .var, .field, .otherField].map NoteSlot.member) {} := rfl

theorem componentNotes_eq : componentNotes = group ([.field, .type].map NoteSlot.member) {} := rfl

/-- The notes in all slots are well formed. -/
def Notes.IsWellFormed (notes : Notes) : Prop := ∀ s : NoteSlot, (s.get notes).isWellFormed = true

/-- Absent notes are well formed. -/
theorem Notes.isWellFormed_empty : Notes.IsWellFormed {} := by
  intro s
  cases s <;> rfl

/-- Filling a slot with a note that is well formed leaves the others as they are. -/
theorem Notes.IsWellFormed.put {notes : Notes} (h : notes.IsWellFormed) {s : NoteSlot}
    {n : Note s.sigil} (hn : n.isWellFormed = true) : (s.put n notes).IsWellFormed := by
  intro s'
  by_cases hs : s' = s
  · subst hs
    rwa [NoteSlot.get_put]
  · rw [NoteSlot.get_put_of_ne hs]
    exact h s'

/-- The slots of the notes of a macro that pairs up. -/
inductive PairSlot where
  | type
  | var
  | fields

namespace PairSlot

/-- The member of a group that fills a slot. -/
def member : PairSlot → Rule (PairNotes → PairNotes)
  | type => slot (note .type) fun t n => { n with type := t }
  | var => slot (note .var) fun v n => { n with var := v }
  | fields => slot (many1 (note .field)) fun fs n => { n with fields := fs }

end PairSlot

/-- The slots of the notes of a macro that takes a pair apart. -/
inductive LeafSlot where
  | vars
  | fields

namespace LeafSlot

/-- The member of a group that fills a slot. -/
def member : LeafSlot → Rule (LeafNotes → LeafNotes)
  | vars => slot (many1 (note .var)) fun vs n => { n with vars := vs }
  | fields => slot (many1 (note .field)) fun fs n => { n with fields := fs }

end LeafSlot

namespace Track

variable {T : Track} {k j l : Nat} {σ : Sigil}

/-! ## Notes -/

/-- The tokens of a track are valid, as they fit into a text. -/
theorem isValid_of_token? {t : Token} (h : T.token? k = some t) : t.isValid = true := by
  obtain ⟨lexeme, hlexeme, -, hfit, -⟩ := T.exists_lexeme (le_of_token? h)
  obtain rfl := Option.some.inj (hlexeme.symm.trans h)
  exact hfit.isValid

/-- A note that is read is present and well formed. -/
theorem isWellFormed_of_yields {n : Note σ} (h : T.Yields (note σ) k n j) :
    n.isWellFormed = true ∧ n.isPresent = true := by
  obtain ⟨body, ht, rfl, -⟩ := h.of_gives (gives_note (h.le.trans h.le_length))
  refine ⟨?_, rfl⟩
  change Note.isBody (String.ofList body).toList = true
  rw [String.toList_ofList]
  exact isValid_of_token? ht

/-- A run has one note at least. -/
theorem passing_noteRun (σ : Sigil) : T.Passing (many1 (note σ)) :=
  (passing_note σ).many1 (kept_note σ)

/-- Every note in a run is present, since there is no run of absent ones. -/
theorem isWellFormed_of_noteRun {ns : List (Note σ)} (h : T.Yields (many1 (note σ)) k ns j) :
    ∀ n ∈ ns, n.isWellFormed = true ∧ n.isPresent = true := by
  obtain ⟨-, hseries⟩ := h.of_gives (Series.gives (kept_note σ) (h.le.trans h.le_length))
  intro n hn
  obtain ⟨i, i', hn⟩ := hseries.exists_yields n hn
  exact isWellFormed_of_yields hn

/-- A slot is filled by the next token, or it is empty because the next token is no such note. -/
theorem gives_noteSlot (hk : k ≤ T.length) : T.Gives (noteSlot σ) k fun n j =>
    (∃ body, T.token? k = some (.note σ body) ∧ n = .named (String.ofList body) ∧ j = k + 1) ∨
      n = .absent ∧ j = k ∧ ∀ body, T.token? k ≠ some (.note σ body) := by
  refine ((gives_note hk).optional (kept_note σ) hk).bind fun x j _ hj hx => ?_
  rcases hx with ⟨n, rfl, hn⟩ | ⟨rfl, rfl, hmiss⟩
  · exact .pure hj (.inl hn)
  · exact .pure hj (.inr ⟨rfl, rfl, fun body ht => (yields_note ht).not_misses hmiss⟩)

/-- What fills a slot is well formed, and so is an absent note. -/
theorem isWellFormed_of_noteSlot {n : Note σ} (h : T.Yields (noteSlot σ) k n j) :
    n.isWellFormed = true := by
  rcases h.of_gives (gives_noteSlot (h.le.trans h.le_length)) with ⟨body, ht, rfl, -⟩ | ⟨rfl, -⟩
  · exact (isWellFormed_of_yields (yields_note ht)).1
  · rfl

/-- Of two slots in a row the first is filled first. -/
theorem isFilledInOrder_noteSlots {v w : Note σ} (hv : T.Yields (noteSlot σ) k v j)
    (hw : T.Yields (noteSlot σ) j w l) : isFilledInOrder [v.isPresent, w.isPresent] = true := by
  rcases hv.of_gives (gives_noteSlot (hv.le.trans hv.le_length)) with ⟨body, -, rfl, -⟩ | ⟨rfl, rfl, hno⟩
  · cases w.isPresent <;> rfl
  · rcases hw.of_gives (gives_noteSlot (hw.le.trans hw.le_length)) with ⟨body, ht, -⟩ | ⟨rfl, -⟩
    · exact absurd ht (hno body)
    · rfl

/-! ## Groups -/

/-- What a slot does with its note does not matter for where the cursor stands. -/
theorem kept_member (s : NoteSlot) : T.Kept s.member := (kept_note _).slot _

theorem passing_member (s : NoteSlot) : T.Passing s.member := (passing_note _).slot (kept_note _) _

/-- A member fills its slot with a note that it has read. -/
theorem of_yields_member {s : NoteSlot} {u : Notes → Notes} (h : T.Yields s.member k u j) :
    ∃ n, u = s.put n ∧ T.Yields (note s.sigil) k n j :=
  h.of_gives (((kept_note _).gives (h.le.trans h.le_length)).slot s.put)

/-- **Groups of notes.** The notes of a group are well formed. -/
theorem gives_notes (slots : List NoteSlot) (hk : k ≤ T.length) :
    T.Gives (group (slots.map NoteSlot.member) {}) k fun notes _ => notes.IsWellFormed := by
  refine (Rounds.gives kept_member passing_member hk {}).mono fun notes j _ h => ?_
  obtain ⟨-, hwf⟩ := h.invariant (I := fun _ notes => notes.IsWellFormed) Notes.isWellFormed_empty
    fun before s after k u j notes _ _ hu hnotes => by
      obtain ⟨n, rfl, hn⟩ := of_yields_member hu
      exact hnotes.put (isWellFormed_of_yields hn).1
  exact hwf

/-- In front of the member for the second field slot stands the one for the first. -/
def FieldFirst (left : List NoteSlot) : Prop :=
  ∀ before after, left = before ++ .otherField :: after → .field ∈ before

/-- Other members may leave the group without a change to the order of the field slots. -/
theorem FieldFirst.remove {before after : List NoteSlot} {s : NoteSlot}
    (h : FieldFirst (before ++ s :: after)) (hs : .field ≠ s) : FieldFirst (before ++ after) := by
  intro front back heq
  rcases List.append_eq_append_iff.mp heq with ⟨mid, rfl, rfl⟩ | ⟨mid, rfl, hback⟩
  · have hmem := h (before ++ s :: mid) back (by rw [List.append_assoc, List.cons_append])
    simpa [hs] using hmem
  · cases mid with
    | nil =>
      obtain rfl : after = .otherField :: back := hback.symm
      have hmem := h (front ++ [s]) back (by simp)
      simpa [hs] using hmem
    | cons s' mid =>
      obtain ⟨rfl, rfl⟩ := List.cons.inj hback
      exact h front (mid ++ s :: after) (by simp)

/-- The second of two slots with the same sigil is filled after the first. -/
theorem gives_typeVarFieldsNotes (hk : k ≤ T.length) :
    T.Gives typeVarFieldsNotes k fun notes _ => notes.IsWellFormed ∧
      isFilledInOrder [notes.field.isPresent, notes.otherField.isPresent] = true := by
  rw [typeVarFieldsNotes_eq]
  refine (Rounds.gives kept_member passing_member hk {}).mono fun notes j _ h => ?_
  let I : List NoteSlot → Notes → Prop := fun left notes => notes.IsWellFormed ∧
    (notes.field.isPresent = true ∨ notes.otherField = .absent ∧ FieldFirst left)
  have hstart : FieldFirst [.type, .var, .field, .otherField] := by
    intro before after heq
    have hlen := congrArg List.length heq
    rcases before with _ | ⟨a, _ | ⟨b, _ | ⟨c, before⟩⟩⟩ <;> simp_all
  obtain ⟨left, hwf, horder⟩ := h.invariant (I := I) ⟨Notes.isWellFormed_empty, .inr ⟨rfl, hstart⟩⟩
    fun before s after k u j notes _ hbefore hu hnotes => by
      obtain ⟨n, rfl, hn⟩ := of_yields_member hu
      obtain ⟨hn', hpresent⟩ := isWellFormed_of_yields hn
      refine ⟨hnotes.1.put hn', ?_⟩
      cases s with
      | field => exact .inl hpresent
      | otherField =>
        rcases hnotes.2 with hfield | ⟨-, hfirst⟩
        · exact .inl hfield
        · -- the member for the first slot would have read the note
          have hmiss := hbefore .field (hfirst before after rfl)
          exact absurd hmiss fun hmiss => (hn.slot (NoteSlot.put .field)).not_misses hmiss
      | type | var => exact hnotes.2.imp_right (And.imp_right fun hfirst => hfirst.remove (by decide))
  refine ⟨hwf, ?_⟩
  rcases horder with hfield | ⟨hother, -⟩
  · rw [hfield]
    cases notes.otherField.isPresent <;> rfl
  · rw [hother]
    cases notes.field.isPresent <;> rfl

theorem kept_pairMember (s : PairSlot) : T.Kept s.member := by
  cases s with
  | type | var => exact (kept_note _).slot _
  | fields => exact (kept_noteRun _).slot _

/-- Every member passes a note. -/
theorem passing_pairMember (s : PairSlot) : T.Passing s.member := by
  cases s with
  | type | var => exact (passing_note _).slot (kept_note _) _
  | fields => exact (passing_noteRun _).slot (kept_noteRun _) _

/-- The notes of a macro that pairs up are well formed. -/
theorem gives_pairNotes (hk : k ≤ T.length) :
    T.Gives (group ([.type, .var, .fields].map PairSlot.member) {}) k fun notes _ =>
      notes.type.isWellFormed = true ∧ notes.var.isWellFormed = true ∧
        ∀ n ∈ notes.fields, n.isWellFormed = true ∧ n.isPresent = true := by
  refine (Rounds.gives kept_pairMember passing_pairMember hk {}).mono fun notes j _ h => ?_
  let I : List PairSlot → PairNotes → Prop := fun _ notes =>
    notes.type.isWellFormed = true ∧ notes.var.isWellFormed = true ∧
      ∀ n ∈ notes.fields, n.isWellFormed = true ∧ n.isPresent = true
  obtain ⟨_, hwf⟩ := h.invariant (I := I) ⟨rfl, rfl, fun n hn => absurd hn List.not_mem_nil⟩
    fun before s after k u j notes _ _ hu ⟨htype, hvar, hfields⟩ => by
      have hk := hu.le.trans hu.le_length
      cases s with
      | type =>
        obtain ⟨n, rfl, hn⟩ := hu.of_gives (((kept_note _).gives hk).slot _)
        exact ⟨(isWellFormed_of_yields hn).1, hvar, hfields⟩
      | var =>
        obtain ⟨n, rfl, hn⟩ := hu.of_gives (((kept_note _).gives hk).slot _)
        exact ⟨htype, (isWellFormed_of_yields hn).1, hfields⟩
      | fields =>
        obtain ⟨ns, rfl, hns⟩ := hu.of_gives (((kept_noteRun _).gives hk).slot _)
        exact ⟨htype, hvar, isWellFormed_of_noteRun hns⟩
  exact hwf

theorem kept_leafMember (s : LeafSlot) : T.Kept s.member := by
  cases s with
  | vars | fields => exact (kept_noteRun _).slot _

theorem passing_leafMember (s : LeafSlot) : T.Passing s.member := by
  cases s with
  | vars | fields => exact (passing_noteRun _).slot (kept_noteRun _) _

/-- The notes of a macro that takes a pair apart are well formed. -/
theorem gives_leafNotes (hk : k ≤ T.length) :
    T.Gives (group ([.vars, .fields].map LeafSlot.member) {}) k fun notes _ =>
      (∀ n ∈ notes.vars, n.isWellFormed = true ∧ n.isPresent = true) ∧
        ∀ n ∈ notes.fields, n.isWellFormed = true ∧ n.isPresent = true := by
  refine (Rounds.gives kept_leafMember passing_leafMember hk {}).mono fun notes j _ h => ?_
  let I : List LeafSlot → LeafNotes → Prop := fun _ notes =>
    (∀ n ∈ notes.vars, n.isWellFormed = true ∧ n.isPresent = true) ∧
      ∀ n ∈ notes.fields, n.isWellFormed = true ∧ n.isPresent = true
  have hempty {σ : Sigil} : ∀ n ∈ ([] : List (Note σ)), n.isWellFormed = true ∧ n.isPresent = true :=
    fun n hn => absurd hn List.not_mem_nil
  obtain ⟨_, hwf⟩ := h.invariant (I := I) ⟨hempty, hempty⟩
    fun before s after k u j notes _ _ hu ⟨hvars, hfields⟩ => by
      have hk := hu.le.trans hu.le_length
      cases s with
      | vars =>
        obtain ⟨ns, rfl, hns⟩ := hu.of_gives (((kept_noteRun _).gives hk).slot _)
        exact ⟨isWellFormed_of_noteRun hns, hfields⟩
      | fields =>
        obtain ⟨ns, rfl, hns⟩ := hu.of_gives (((kept_noteRun _).gives hk).slot _)
        exact ⟨hvars, isWellFormed_of_noteRun hns⟩
  exact hwf

end Track

end Michelson
