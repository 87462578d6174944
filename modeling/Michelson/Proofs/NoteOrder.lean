import Michelson.Proofs.Embedding
import Michelson.Proofs.Written.Notes

/-!
# The order of notes

The notes behind the word of a type or an instruction may come in any order. A group takes
them one after the other, as long as the next one has a slot left, and of two slots with
one sigil the first is filled first. So what a group takes is the longest run of notes in
which no sigil occurs more often than it has slots, and only the order among the notes
with one sigil has a meaning.

* `LaidNote.Stand` and `IsTaken` say what is in front of a group and how much of it the group
  takes; `AreHeld` says which note ends up in which slot.
* `Course` tells which notes are taken, one at a time. `Course.takes` says that the grammar
  follows it, and `Course.isTaken` and `Course.areHeld` say where it leads.
* `notes_in_any_order` is the statement about the groups of the grammar.
-/

namespace Michelson

open Rule Grammar

/-! ## Runs from a cursor -/

namespace Rule

variable {α β : Type} {r : Rule α} {q : α → Rule β} {a : α} {b : β} {c c' c'' : Cursor}

/-- From a cursor the rule reads a value and ends at another cursor, whatever the limit on
nesting is, and whatever else is in the state. -/
def Takes (r : Rule α) (c : Cursor) (a : α) (c' : Cursor) : Prop :=
  ∀ (limit : Option Nat) (s : State), s.cursor = c →
    ∃ t, r limit s = ⟨.ok a, t⟩ ∧ t.cursor = c'

/-- From a cursor the rule misses, whatever the limit is. -/
def Leaves (r : Rule α) (c : Cursor) : Prop :=
  ∀ (limit : Option Nat) (s : State), s.cursor = c → ∃ t, r limit s = ⟨.miss, t⟩

theorem takes_pure (a : α) (c : Cursor) : (pure a : Rule α).Takes c a c :=
  fun _ s hs => ⟨s, rfl, hs⟩

/-- What two rules take in a row is taken by their sequence. -/
theorem Takes.bind (h : r.Takes c a c') (hq : (q a).Takes c' b c'') : (r >>= q).Takes c b c'' := by
  intro limit s hs
  obtain ⟨t, hrun, ht⟩ := h limit s hs
  rw [bind_ok hrun]
  exact hq limit t ht

/-- What the first rule leaves, the sequence leaves. -/
theorem Leaves.bind (h : r.Leaves c) (q : α → Rule β) : (r >>= q).Leaves c := by
  intro limit s hs
  obtain ⟨t, hrun⟩ := h limit s hs
  exact ⟨t, bind_miss hrun⟩

/-- A member that has passed some text is taken. -/
theorem Takes.advancing (h : r.Takes c a c') (hlt : c.position.offset < c'.position.offset) :
    (advancing r).Takes c (some a) c' := by
  intro limit s hs
  obtain ⟨t, hrun, ht⟩ := h limit s hs
  refine ⟨t, ?_, ht⟩
  have hlt' : t.cursor.position.offset > s.cursor.position.offset := by rwa [ht, hs]
  rw [Rule.advancing, cursor_bind, optional_bind, hrun]
  dsimp only
  rw [cursor_bind, if_pos hlt']
  rfl

theorem Leaves.advancing (h : r.Leaves c) : (advancing r).Takes c none c := by
  intro limit s hs
  obtain ⟨t, hrun⟩ := h limit s hs
  refine ⟨{ t with cursor := s.cursor }, ?_, hs⟩
  rw [Rule.advancing, cursor_bind, optional_bind, hrun]
  rfl

section Members

variable {σ ι : Type} {member : ι → Rule (σ → σ)}

theorem takes_firstAdvancing_none {is : List ι} (h : ∀ i ∈ is, (member i).Leaves c) :
    (firstAdvancing (is.map member)).Takes c none c := by
  induction is with
  | nil => exact takes_pure _ c
  | cons i is ih =>
    obtain ⟨hi, his⟩ := List.forall_mem_cons.mp h
    exact hi.advancing.bind ((ih his).bind (takes_pure _ c))

/-- The members in front of the one that reads leave the text as it is. -/
theorem takes_firstAdvancing_some {before after : List ι} {i : ι} {u : σ → σ}
    (hbefore : ∀ i ∈ before, (member i).Leaves c) (h : (member i).Takes c u c')
    (hlt : c.position.offset < c'.position.offset) :
    (firstAdvancing ((before ++ i :: after).map member)).Takes c
      (some (u, (before ++ after).map member)) c' := by
  induction before with
  | nil => exact (h.advancing hlt).bind (takes_pure _ c')
  | cons b before ih =>
    obtain ⟨hb, hbefore⟩ := List.forall_mem_cons.mp hbefore
    exact hb.advancing.bind ((ih hbefore).bind (takes_pure _ c'))

end Members

end Rule

/-! ## Notes in a text -/

/-- A layout behind a token that is not empty ends the token. -/
theorem Lexeme.fits_of_fills {l : Lexeme} {rest : List Char} (hv : l.token.isValid = true)
    (hne : l.gap ≠ []) (hfills : Layout.Fills l.gap rest) : l.Fits rest := by
  refine ⟨hv, ?_, hfills⟩
  cases rest with
  | nil =>
    -- a comment at the end of the text is a layout with the line feed that it lacks
    have hends := Token.endsBefore_of_isLayout hv hfills.isLayout_append (by simp) []
    rw [List.append_nil, List.head?_append_of_ne_nil _ hne] at hends
    rwa [List.append_nil]
  | cons d rest =>
    have hlayout := hfills.isLayout (List.cons_ne_nil d rest)
    exact Token.endsBefore_of_isLayout hv hlayout hne (d :: rest)

/-- A note as it stands in a text, with the layout behind it. -/
structure LaidNote where
  sigil : Sigil
  body : List Char
  gap : List Char
  isBody : Note.isBody body = true
  gap_ne_nil : gap ≠ []

namespace LaidNote

variable {n : LaidNote} {ns : List LaidNote} {σ : Sigil} {rest : List Char} {c : Cursor}

/-- The lexeme that a note is. -/
def lexeme (n : LaidNote) : Lexeme := ⟨.note n.sigil n.body, n.gap⟩

/-- The characters of a run of notes. -/
def text (ns : List LaidNote) : List Char :=
  ns.flatMap fun n => n.sigil.char :: (n.body ++ n.gap)

/-- The texts of the notes with a sigil, in the order in which they stand. -/
def bodies (σ : Sigil) (ns : List LaidNote) : List String :=
  (ns.filter fun n => n.sigil = σ).map fun n => String.ofList n.body

/-- Behind each note of a run in front of the given text stands its layout, and no more. -/
def Stand : List LaidNote → List Char → Prop
  | [], _ => True
  | n :: ns, rest => Layout.Fills n.gap (text ns ++ rest) ∧ Stand ns rest

theorem text_cons (n : LaidNote) (ns : List LaidNote) : text (n :: ns) = n.lexeme.text ++ text ns :=
  rfl

theorem text_append (ns ms : List LaidNote) : text (ns ++ ms) = text ns ++ text ms :=
  List.flatMap_append

/-- A note with the sigil is the first of them. -/
theorem bodies_cons_of_eq (h : n.sigil = σ) (ns : List LaidNote) :
    bodies σ (n :: ns) = String.ofList n.body :: bodies σ ns := by
  simp [bodies, h]

theorem bodies_cons_of_ne (h : n.sigil ≠ σ) (ns : List LaidNote) :
    bodies σ (n :: ns) = bodies σ ns := by
  simp [bodies, h]

/-- Any layouts will do in front of a text in which no layout comes first. -/
theorem stand_of_isLayout (h : ∀ n ∈ ns, IsLayout n.gap) (hrest : Layout.Fills [] rest) :
    Stand ns rest := by
  induction ns with
  | nil => trivial
  | cons n ns ih =>
    obtain ⟨hn, hns⟩ := List.forall_mem_cons.mp h
    refine ⟨Layout.fills_of_isLayout hn ?_, ih hns⟩
    cases ns with
    | nil => exact hrest
    | cons m ns =>
      rw [text_cons, Lexeme.text, List.append_assoc, List.append_assoc]
      exact Token.fills_text (t := .note m.sigil m.body) m.isBody _

/-- A note is read by the rule for its sigil. -/
theorem takes_note (hstand : Stand (n :: ns) rest) (hσ : n.sigil = σ)
    (hc : c.rest = text (n :: ns) ++ rest) :
    (note σ).Takes c (.named (String.ofList n.body)) (c.skip n.lexeme.text.length) := by
  intro limit s hs
  rw [text_cons, List.append_assoc, ← hs] at hc
  have hfits := Lexeme.fits_of_fills (l := n.lexeme) n.isBody n.gap_ne_nil hstand.1
  have hends := (lexical_note σ).ends hfits hc limit
  have hread : readNote σ (some n.lexeme.token) = .taken (.named (String.ofList n.body)) :=
    if_pos hσ
  rw [hread, ← note_eq] at hends
  exact ⟨_, hends, congrArg (Cursor.skip _) hs⟩

/-- A note is left by the rule for another sigil. -/
theorem leaves_note (hstand : Stand (n :: ns) rest) (hσ : n.sigil ≠ σ)
    (hc : c.rest = text (n :: ns) ++ rest) : (note σ).Leaves c := by
  intro limit s hs
  rw [text_cons, List.append_assoc, ← hs] at hc
  have hfits := Lexeme.fits_of_fills (l := n.lexeme) n.isBody n.gap_ne_nil hstand.1
  have hends := (lexical_note σ).ends hfits hc limit
  have hread : readNote σ (some n.lexeme.token) = .refused (.note σ) := if_neg hσ
  rw [hread, ← note_eq] at hends
  exact ⟨_, hends⟩

/-- No note is read where its sigil does not come first. -/
theorem leaves_rest (hσ : rest.head? ≠ some σ.char) (hc : c.rest = rest) : (note σ).Leaves c := by
  intro limit s hs
  have hlook : lookNote σ s.cursor.rest = .refused 0 (.note σ) := by
    rw [hs, hc]
    cases rest with
    | nil => rfl
    | cons d rest => exact if_neg fun hd => hσ (congrArg some hd)
  rw [note_eq, lexical_run, hlook]
  exact ⟨s.expect (.note σ), rfl⟩

end LaidNote

/-! ## Slots and the notes in them -/

section Slots

variable {n : LaidNote} {ns ms front : List LaidNote} {slots before after : List NoteSlot}
  {s : NoteSlot} {σ : Sigil} {notes notes' : Notes}

/-- The slots with a sigil. -/
def NoteSlot.withSigil (σ : Sigil) (slots : List NoteSlot) : List NoteSlot :=
  slots.filter fun s => s.sigil = σ

/-- There is a slot for every note: no sigil occurs more often than it has slots. -/
def HaveRoom (slots : List NoteSlot) (ns : List LaidNote) : Prop :=
  ∀ σ, (LaidNote.bodies σ ns).length ≤ (NoteSlot.withSigil σ slots).length

/-- The longest run of notes in front for which there is room. -/
structure IsTaken (slots : List NoteSlot) (ns front : List LaidNote) : Prop where
  begins : front <+: ns
  room : HaveRoom slots front
  longest (more : List LaidNote) : more <+: ns → HaveRoom slots more → more <+: front

/-- The slots hold some notes: among the slots with one sigil each holds the note with the same
number among the notes with that sigil, and nothing if there are not so many. There is
nothing in any other slot. -/
structure AreHeld (slots : List NoteSlot) (ns : List LaidNote) (notes : Notes) : Prop where
  nth (s : NoteSlot) (i : Nat) : (NoteSlot.withSigil s.sigil slots)[i]? = some s →
    s.get notes = ⟨(LaidNote.bodies s.sigil ns)[i]?⟩
  other (s : NoteSlot) : s ∉ slots → s.get notes = .absent

/-- What the slots hold is settled by the notes with each sigil. -/
theorem AreHeld.unique (h : AreHeld slots ns notes) (h' : AreHeld slots ms notes')
    (hsame : ∀ σ, LaidNote.bodies σ ns = LaidNote.bodies σ ms) : notes = notes' := by
  refine Notes.ext_get fun s => ?_
  by_cases hs : s ∈ slots
  · have hmem : s ∈ NoteSlot.withSigil s.sigil slots := List.mem_filter.mpr ⟨hs, by simp⟩
    obtain ⟨i, hi⟩ := List.mem_iff_getElem?.mp hmem
    rw [h.nth s i hi, h'.nth s i hi, hsame]
  · rw [h.other s hs, h'.other s hs]

/-- Where there is room for all notes, all are taken. -/
theorem IsTaken.eq_of_room (h : IsTaken slots ns front) (hroom : HaveRoom slots ns) : front = ns :=
  h.begins.eq_of_length_le (h.longest ns (List.prefix_refl ns) hroom).length_le

namespace NoteSlot

/-- The first of the slots with a sigil is the one that is given away. -/
theorem withSigil_of_first (h : s.sigil = σ) (hbefore : ∀ b ∈ before, b.sigil ≠ σ) :
    withSigil σ (before ++ s :: after) = s :: withSigil σ (before ++ after) := by
  have hnone : before.filter (fun b => b.sigil = σ) = [] := by
    simpa [List.filter_eq_nil_iff] using hbefore
  simp [withSigil, hnone, h]

theorem withSigil_of_ne (h : s.sigil ≠ σ) :
    withSigil σ (before ++ s :: after) = withSigil σ (before ++ after) := by
  simp [withSigil, h]

theorem length_withSigil_of_eq (h : s.sigil = σ) :
    (withSigil σ (before ++ s :: after)).length = (withSigil σ (before ++ after)).length + 1 := by
  simp [withSigil, h, Nat.add_assoc]

end NoteSlot

/-- A note that has a slot leaves room for the others in the other slots. -/
theorem haveRoom_cons (hs : n.sigil = s.sigil) :
    HaveRoom (before ++ s :: after) (n :: ns) ↔ HaveRoom (before ++ after) ns := by
  refine forall_congr' fun σ => ?_
  by_cases hσ : s.sigil = σ
  · rw [NoteSlot.length_withSigil_of_eq hσ, LaidNote.bodies_cons_of_eq (hs.trans hσ),
      List.length_cons, Nat.add_le_add_iff_right]
  · rw [NoteSlot.withSigil_of_ne hσ, LaidNote.bodies_cons_of_ne (hs ▸ hσ)]

end Slots

/-! ## The course of a group -/

/-- Which notes a group takes, and what it gathers from them: the next note goes into the
first slot with its sigil, and where no such slot is left, the group ends. -/
inductive Course : List NoteSlot → List LaidNote → Notes → List LaidNote → Notes → Prop
  | stop {slots : List NoteSlot} {ns : List LaidNote} {x : Notes}
      (h : ∀ n ∈ ns.head?, ∀ s ∈ slots, n.sigil ≠ s.sigil) : Course slots ns x [] x
  | take {before after : List NoteSlot} {s : NoteSlot} {n : LaidNote} {ns front : List LaidNote}
      {x y : Notes} (hbefore : ∀ b ∈ before, n.sigil ≠ b.sigil) (hs : n.sigil = s.sigil)
      (hmore : Course (before ++ after) ns (s.put (.named (String.ofList n.body)) x) front y) :
      Course (before ++ s :: after) (n :: ns) x (n :: front) y

namespace Course

variable {slots : List NoteSlot} {ns front : List LaidNote} {x y : Notes} {s : NoteSlot}

/-- A group has a course wherever it begins. -/
theorem exists_course (slots : List NoteSlot) (ns : List LaidNote) (x : Notes) :
    ∃ front y, Course slots ns x front y := by
  induction ns generalizing slots x with
  | nil => exact ⟨[], x, .stop (by simp)⟩
  | cons n ns ih =>
    cases hfind : slots.find? fun s => n.sigil = s.sigil with
    | none =>
      refine ⟨[], x, .stop ?_⟩
      rintro _ ⟨⟩ s hs
      simpa using List.find?_eq_none.mp hfind s hs
    | some s =>
      obtain ⟨hs, before, after, rfl, hbefore⟩ := List.find?_eq_some_iff_append.mp hfind
      obtain ⟨front, y, hmore⟩ := ih (before ++ after) (s.put (.named (String.ofList n.body)) x)
      exact ⟨n :: front, y, .take (by simpa using hbefore) (by simpa using hs) hmore⟩

/-- **The grammar follows the course.** -/
theorem takes (h : Course slots ns x front y) {rest : List Char}
    (hrest : ∀ σ : Sigil, rest.head? ≠ some σ.char) :
    ∀ {c : Cursor} (rounds : Nat), LaidNote.Stand ns rest → slots.length ≤ rounds →
      c.rest = LaidNote.text ns ++ rest →
      (groupWithin rounds (slots.map NoteSlot.member) x).Takes c y
        (c.skip (LaidNote.text front).length) := by
  induction h with
  | @stop slots ns x h =>
    intro c rounds hstand _ hc
    cases rounds with
    | zero => exact takes_pure x c
    | succ rounds =>
      -- no slot that is left takes the next note, if there is one
      have hleaves : ∀ s ∈ slots, s.member.Leaves c := by
        intro s hs
        refine Leaves.bind ?_ _
        cases ns with
        | nil => exact LaidNote.leaves_rest (hrest s.sigil) hc
        | cons n ns => exact LaidNote.leaves_note hstand (h n rfl s hs) hc
      exact (takes_firstAdvancing_none hleaves).bind (takes_pure x c)
  | @take before after s n ns front x y hbefore hs _ ih =>
    intro c rounds hstand hrounds hc
    rw [List.length_append, List.length_cons] at hrounds
    obtain ⟨rounds, rfl⟩ : ∃ m, rounds = m + 1 := ⟨rounds - 1, by omega⟩
    have hleaves : ∀ b ∈ before, b.member.Leaves c := fun b hb =>
      (LaidNote.leaves_note hstand (hbefore b hb) hc).bind _
    have hmember : s.member.Takes c (s.put (.named (String.ofList n.body)))
        (c.skip n.lexeme.text.length) :=
      (LaidNote.takes_note hstand hs hc).bind (takes_pure _ _)
    have hc' := hc
    rw [LaidNote.text_cons, List.append_assoc] at hc'
    have hlt : c.position.offset < (c.skip n.lexeme.text.length).position.offset := by
      rw [Cursor.skip_eq, hc', List.take_left]
      exact Position.offset_lt_after _ (Lexeme.text_ne_nil n.isBody)
    have hmore := ih rounds hstand.2 (by rw [List.length_append]; omega) (Cursor.rest_skip hc')
    rw [LaidNote.text_cons, List.length_append, Cursor.skip_add]
    exact (takes_firstAdvancing_some hleaves hmember hlt).bind hmore

/-- What is taken is the longest run for which there is room. -/
theorem isTaken (h : Course slots ns x front y) : IsTaken slots ns front := by
  induction h with
  | @stop slots ns x h =>
    refine ⟨List.nil_prefix, fun σ => Nat.zero_le _, fun more hmore hroom => ?_⟩
    cases more with
    | nil => exact List.nil_prefix
    | cons n more =>
      obtain ⟨back, rfl⟩ := hmore
      have hnone : NoteSlot.withSigil n.sigil slots = [] :=
        List.filter_eq_nil_iff.mpr fun s hs => by simpa using (h n rfl s hs).symm
      have hlen := hroom n.sigil
      rw [LaidNote.bodies_cons_of_eq rfl, hnone] at hlen
      exact absurd hlen (Nat.not_succ_le_zero _)
  | @take before after s n ns front x y _ hs _ ih =>
    refine ⟨List.cons_prefix_cons.mpr ⟨rfl, ih.begins⟩, (haveRoom_cons hs).mpr ih.room,
      fun more hmore hroom => ?_⟩
    cases more with
    | nil => exact List.nil_prefix
    | cons m more =>
      obtain ⟨rfl, hprefix⟩ := List.cons_prefix_cons.mp hmore
      have hlongest := ih.longest more hprefix ((haveRoom_cons hs).mp hroom)
      exact List.cons_prefix_cons.mpr ⟨rfl, hlongest⟩

/-- What is not a slot of the group is left alone. -/
theorem get_of_not_mem (h : Course slots ns x front y) (hs : s ∉ slots) : s.get y = s.get x := by
  induction h with
  | stop h => rfl
  | @take before after t n ns front x y _ _ _ ih =>
    have hsub : before ++ after ⊆ before ++ t :: after := by simp
    rw [ih fun hmem => hs (hsub hmem), NoteSlot.get_put_of_ne fun heq => hs (by simp [heq])]

/-- The slot with a number among those with its sigil is filled by the note with that number. -/
theorem get_nth (h : Course slots ns x front y) (hnodup : slots.Nodup) {i : Nat}
    (hi : (NoteSlot.withSigil s.sigil slots)[i]? = some s) :
    s.get y = ((LaidNote.bodies s.sigil front)[i]?).elim (s.get x) .named := by
  induction h generalizing i with
  | stop h => rfl
  | @take before after t n ns front x y hbefore ht hmore ih =>
    obtain ⟨hout, hnodup⟩ := List.nodup_cons.mp (List.perm_middle.nodup_iff.mp hnodup)
    by_cases hσ : t.sigil = s.sigil
    · have hfirst : ∀ b ∈ before, b.sigil ≠ s.sigil := fun b hb heq =>
        hbefore b hb (ht.trans (hσ.trans heq.symm))
      rw [NoteSlot.withSigil_of_first hσ hfirst] at hi
      rw [LaidNote.bodies_cons_of_eq (ht.trans hσ)]
      cases i with
      | zero =>
        obtain rfl : t = s := Option.some.inj hi
        rw [hmore.get_of_not_mem hout, NoteSlot.get_put]
        rfl
      | succ i =>
        rw [List.getElem?_cons_succ] at hi ⊢
        have hmem : s ∈ before ++ after := List.mem_of_mem_filter (List.mem_of_getElem? hi)
        have hne : s ≠ t := fun heq => hout (heq ▸ hmem)
        rw [ih hnodup hi, NoteSlot.get_put_of_ne hne]
    · have hne : s ≠ t := fun heq => hσ (congrArg NoteSlot.sigil heq.symm)
      rw [NoteSlot.withSigil_of_ne hσ] at hi
      rw [LaidNote.bodies_cons_of_ne (ht ▸ hσ), ih hnodup hi, NoteSlot.get_put_of_ne hne]

/-- The slots hold what is taken. -/
theorem areHeld (h : Course slots ns {} front y) (hnodup : slots.Nodup) :
    AreHeld slots front y where
  nth s i hi := by
    rw [h.get_nth hnodup hi]
    cases s <;> cases (LaidNote.bodies _ front)[i]? <;> rfl
  other s hs := by
    rw [h.get_of_not_mem hs]
    cases s <;> rfl

end Course

/-! ## The groups of the grammar -/

/-- The groups of notes with a fixed number of slots. -/
inductive NoteGroup where
  | typeVar
  | varField
  | typeVarField
  | typeVarFields
  | component

namespace NoteGroup

/-- The slots of a group. -/
def slots : NoteGroup → List NoteSlot
  | typeVar => [.type, .var]
  | varField => [.var, .field]
  | typeVarField => [.type, .var, .field]
  | typeVarFields => [.type, .var, .field, .otherField]
  | component => [.field, .type]

/-- The rule for a group. -/
def rule : NoteGroup → Rule Notes
  | typeVar => typeVarNotes
  | varField => varFieldNotes
  | typeVarField => typeVarFieldNotes
  | typeVarFields => typeVarFieldsNotes
  | component => nodeNotes true

theorem rule_eq (G : NoteGroup) : G.rule = group (G.slots.map NoteSlot.member) {} := by
  cases G <;> rfl

/-- No slot is there twice. -/
theorem nodup_slots (G : NoteGroup) : G.slots.Nodup := by
  cases G <;> decide

/-- What a group does in front of notes. -/
theorem exists_takes (G : NoteGroup) {ns : List LaidNote} {rest : List Char} {c : Cursor}
    (hrest : ∀ σ : Sigil, rest.head? ≠ some σ.char) (hstand : LaidNote.Stand ns rest)
    (hc : c.rest = LaidNote.text ns ++ rest) :
    ∃ front notes, IsTaken G.slots ns front ∧ AreHeld G.slots front notes ∧
      G.rule.Takes c notes (c.skip (LaidNote.text front).length) := by
  obtain ⟨front, notes, hcourse⟩ := Course.exists_course G.slots ns {}
  refine ⟨front, notes, hcourse.isTaken, hcourse.areHeld G.nodup_slots, ?_⟩
  rw [rule_eq, group, List.length_map]
  exact hcourse.takes hrest _ hstand (Nat.le_refl _) hc

end NoteGroup

/-- **Notes in any order.** In front of notes with layout behind each of them, and of a text
in which no sigil comes first, a group takes the longest run of notes in which no sigil
occurs more often than it has slots. It puts the notes with one sigil into the slots with
that sigil in the order in which they stand, leaves the other slots empty, and stops at the
first note that it did not take. So where there are slots for all the notes, two
arrangements that agree in the order among the notes with each sigil give the same notes,
and leave the same text. -/
theorem notes_in_any_order (G : NoteGroup) {rest : List Char}
    (hrest : ∀ σ : Sigil, rest.head? ≠ some σ.char) :
    (∀ ns c, LaidNote.Stand ns rest → c.rest = LaidNote.text ns ++ rest →
      ∃ front back notes c', ns = front ++ back ∧ IsTaken G.slots ns front ∧
        AreHeld G.slots front notes ∧ G.rule.Takes c notes c' ∧
        c' = c.skip (LaidNote.text front).length ∧ c'.rest = LaidNote.text back ++ rest) ∧
    ∀ ns ms c d, LaidNote.Stand ns rest → LaidNote.Stand ms rest →
      c.rest = LaidNote.text ns ++ rest → d.rest = LaidNote.text ms ++ rest →
      HaveRoom G.slots ns → (∀ σ, LaidNote.bodies σ ns = LaidNote.bodies σ ms) →
      ∃ notes c' d', G.rule.Takes c notes c' ∧ G.rule.Takes d notes d' ∧
        c'.rest = rest ∧ d'.rest = rest := by
  refine ⟨fun ns c hstand hc => ?_, fun ns ms c d hns hms hc hd hroom hsame => ?_⟩
  · obtain ⟨front, notes, htaken, hheld, htakes⟩ := G.exists_takes hrest hstand hc
    obtain ⟨back, rfl⟩ := htaken.begins
    refine ⟨front, back, notes, _, rfl, htaken, hheld, htakes, rfl, Cursor.rest_skip ?_⟩
    rw [hc, LaidNote.text_append, List.append_assoc]
  · obtain ⟨front, notes, htaken, hheld, htakes⟩ := G.exists_takes hrest hns hc
    obtain ⟨front', notes', htaken', hheld', htakes'⟩ := G.exists_takes hrest hms hd
    have hroom' : HaveRoom G.slots ms := fun σ => hsame σ ▸ hroom σ
    obtain rfl := htaken.eq_of_room hroom
    obtain rfl := htaken'.eq_of_room hroom'
    obtain rfl := hheld.unique hheld' hsame
    exact ⟨notes, _, _, htakes, htakes', Cursor.rest_skip hc, Cursor.rest_skip hd⟩

/-- Two field notes around a variable note, in front of a brace. -/
theorem notes_in_any_order_of_three :
    (∀ σ : Sigil, ['}'].head? ≠ some σ.char) ∧
      ∃ notes c', typeVarFieldsNotes.Takes ⟨"%a @v %b \x7d".toList, .start⟩ notes c' ∧
        notes.field = .named "a" ∧ notes.otherField = .named "b" ∧ notes.var = .named "v" ∧
        notes.type = .absent ∧ c'.rest = ['}'] := by
  have hrest : ∀ σ : Sigil, ['}'].head? ≠ some σ.char := by
    intro σ
    cases σ <;> decide
  let ns : List LaidNote := [⟨.field, ['a'], [' '], by decide, by decide⟩,
    ⟨.var, ['v'], [' '], by decide, by decide⟩, ⟨.field, ['b'], [' '], by decide, by decide⟩]
  have hstand : LaidNote.Stand ns ['}'] := by
    have hbrace := Layout.fills_nil_cons (c := '}') (by decide) (by decide) (by decide) []
    have hgap : ∀ n ∈ ns, n.gap = [' '] := by simp [ns]
    exact LaidNote.stand_of_isLayout (fun n hn => hgap n hn ▸ .blank rfl .empty) hbrace
  obtain ⟨front, back, notes, c', heq, htaken, hheld, htakes, -, hc'⟩ :=
    (notes_in_any_order .typeVarFields hrest).1 ns ⟨"%a @v %b \x7d".toList, .start⟩ hstand
      (by decide)
  have hroom : HaveRoom NoteGroup.typeVarFields.slots ns := by
    intro σ
    cases σ <;> decide
  obtain rfl := htaken.eq_of_room hroom
  obtain rfl : back = [] := by simpa using heq
  refine ⟨hrest, notes, c', htakes, ?_, ?_, ?_, ?_, hc'⟩
  · exact hheld.nth .field 0 rfl
  · exact hheld.nth .otherField 1 rfl
  · exact hheld.nth .var 0 rfl
  · exact hheld.nth .type 0 rfl

end Michelson
