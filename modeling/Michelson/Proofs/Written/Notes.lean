import Michelson.Proofs.NoteGroups
import Michelson.Proofs.PairTrees
import Michelson.Proofs.Written

/-!
# Written notes

Notes are written in the order of their slots, and those that are absent are left out.
They are read back if no further note follows.

* `written_notes` is the general statement for a group of notes. The lemmas behind it
  are its cases in the grammar.
* `written_pairNotes` and `written_leafNotes` deal with the runs of notes of the macros
  on pairs.
-/

namespace Michelson

open Rule Grammar

variable {σ : Sigil}

/-! ## Single notes -/

namespace Note

/-- The absent note is the one that has nothing written for it. -/
theorem tokens_eq_nil_iff {n : Note σ} : n.tokens = [] ↔ n = .absent := by
  obtain ⟨_ | body⟩ := n
  · exact ⟨fun _ => rfl, fun _ => rfl⟩
  · exact ⟨fun h => (nomatch h), fun h => (nomatch h)⟩

theorem isPresent_iff {n : Note σ} : n.isPresent = true ↔ n.tokens ≠ [] := by
  obtain ⟨_ | body⟩ := n
  · exact ⟨fun h => (nomatch h), fun h => absurd rfl h⟩
  · exact ⟨fun _ h => (nomatch h), fun _ => rfl⟩

/-- A note is present or it is the absent one. -/
theorem eq_absent_of_not_isPresent {n : Note σ} (h : n.isPresent = false) : n = .absent := by
  obtain ⟨_ | body⟩ := n
  · rfl
  · cases h

/-- What is written for a note keeps no rule for another sigil from stopping. -/
theorem noNote_head? (n : Note σ) {τ : Sigil} (h : τ ≠ σ) (next : Option Token) (hn : NoNote τ next) :
    NoNote τ (n.tokens.head?.or next) := by
  obtain ⟨_ | body⟩ := n
  · exact hn
  · intro body' heq
    obtain ⟨rfl, -⟩ := Token.note.inj (Option.some.inj heq)
    exact h rfl

/-- What is written for one sigil begins no note of another. -/
theorem noNote_tokens (n : Note σ) {τ : Sigil} (h : τ ≠ σ) : NoNote τ n.tokens.head? := by
  have hfree := n.noNote_head? h none fun _ hnone => nomatch hnone
  rwa [Option.or_none] at hfree

end Note

/-- A note that has something written for it is read back. -/
theorem written_note {n : Note σ} (hn : n.isWellFormed = true) (hne : n.tokens ≠ []) :
    Written Any (note σ) n.tokens n := by
  obtain ⟨_ | body⟩ := n
  · exact absurd rfl hne
  · refine ⟨List.forall_mem_singleton.mpr hn, fun hat _ => ⟨_, ?_, hat.succ⟩⟩
    have hread := Track.yields_note hat.token?
    rwa [String.ofList_toList] at hread

/-- A slot is read as it is written, if it is filled or no note of its kind follows. -/
theorem written_noteSlot {n : Note σ} (hn : n.isWellFormed = true) :
    Written (fun next => n.tokens = [] → NoNote σ next) (noteSlot σ) n.tokens n := by
  by_cases hne : n.tokens = []
  · obtain rfl := Note.tokens_eq_nil_iff.mp hne
    refine ⟨fun _ h => absurd h List.not_mem_nil, fun {T k rest} hat hnext => ⟨k, ?_, hat⟩⟩
    have hmiss : T.Misses (note σ) k := Track.misses_note hat.le (hat.token? ▸ hnext rfl)
    exact (hmiss.optional hat.le).bind (Track.yields_pure hat.le _)
  · refine Written.mono (F := Any) ?_ fun _ _ => trivial
    exact (written_note hn hne).optional.last (written_pure n)

/-- In a place where no note follows, a slot is read back whether or not it is filled. -/
theorem written_quietSlot {n : Note σ} (hn : n.isWellFormed = true) :
    Written Quiet (noteSlot σ) n.tokens n :=
  (written_noteSlot hn).mono fun _ hnext _ => hnext σ

/-- Two slots of one kind, of which the first is filled first, and what follows them. -/
theorem written_twoSlots {v w : Note σ} (hv : v.isWellFormed = true) (hw : w.isWellFormed = true)
    (horder : isFilledInOrder [v.isPresent, w.isPresent] = true) {α : Type} {F : Option Token → Prop}
    {q : Note σ → Note σ → Rule α} {ts : List Token} {a : α} (hq : Written F (q v w) ts a)
    (hF : ∀ next, F next → Quiet (ts.head?.or next)) :
    Written F (do let v ← noteSlot σ; let w ← noteSlot σ; q v w) (v.tokens ++ w.tokens ++ ts) a := by
  rw [List.append_assoc]
  have hsecond := (written_quietSlot hw).bind (q := q v) hq hF
  refine (written_noteSlot hv).bind hsecond fun next hnext hnil => ?_
  -- a note in the second slot alone would be read into the first
  have hgone : w = .absent := by
    obtain rfl := Note.tokens_eq_nil_iff.mp hnil
    refine Note.eq_absent_of_not_isPresent ?_
    revert horder
    cases w.isPresent
    · exact fun _ => rfl
    · rintro ⟨⟩
  rw [hgone]
  exact hF next hnext σ

/-! ## Groups of notes -/

theorem Notes.ext_get {notes notes' : Notes} (h : ∀ s : NoteSlot, s.get notes = s.get notes') :
    notes = notes' := by
  obtain ⟨t, v, f, g⟩ := notes
  obtain ⟨t', v', f', g'⟩ := notes'
  obtain rfl : t = t' := h .type
  obtain rfl : v = v' := h .var
  obtain rfl : f = f' := h .field
  obtain rfl : g = g' := h .otherField
  rfl

/-- What has been gathered is what was written, slot by slot. -/
theorem NoteSlot.get_gathered (s : NoteSlot) (notes : Notes) (slots : List NoteSlot) (x : Notes) :
    s.get (gathered (fun s => (s.get notes).tokens) (fun s => s.put (s.get notes)) slots x) =
      if s ∈ slots ∧ (s.get notes).tokens ≠ [] then s.get notes else s.get x := by
  induction slots generalizing x with
  | nil => exact (if_neg fun h => absurd h.1 List.not_mem_nil).symm
  | cons s' slots ih =>
    rw [gathered, List.foldl_cons, ← gathered, ih]
    by_cases hs : s = s'
    · subst hs
      by_cases hnil : (s.get notes).tokens = []
      · simp [hnil]
      · simp [hnil, get_put]
    · by_cases hnil : (s'.get notes).tokens = []
      · simp [hnil, hs]
      · simp [hnil, hs, get_put_of_ne hs]

/-- **Groups of notes.** The notes of a group are read back, if of two slots with one sigil
the first is filled first. -/
theorem written_notes (slots : List NoteSlot) {notes : Notes} {ts : List Token}
    (hts : slots.flatMap (fun s => (s.get notes).tokens) = ts) (hnotes : notes.IsWellFormed)
    (habsent : ∀ s, s ∈ slots ∨ s.get notes = .absent)
    (horder : slots.Pairwise fun s s' => s.sigil = s'.sigil → (s'.get notes).isPresent = true →
      (s.get notes).isPresent = true) :
    Written Quiet (group (slots.map NoteSlot.member) {}) ts notes := by
  have hin : InOrder NoteSlot.member (fun s => (s.get notes).tokens) (fun s => s.put (s.get notes))
      (fun s => NoNote s.sigil) (fun _ => Any) slots := by
    refine ⟨⟨fun s hk hfree => (Track.misses_note hk hfree).slot _,
      fun s hne => (written_note (hnotes s) hne).map s.put⟩, horder.imp ?_⟩
    intro s s' hs hne
    refine ⟨fun hnil body heq => ?_, trivial⟩
    -- a note of the same sigil would stand in the first slot
    obtain ⟨body', hbody⟩ : ∃ body, (s'.get notes).body? = some body :=
      Option.isSome_iff_exists.mp (Note.isPresent_iff.mpr hne)
    rw [Note.tokens, hbody] at heq
    obtain ⟨hσ, -⟩ := Token.note.inj (Option.some.inj heq)
    exact Note.isPresent_iff.mp (hs hσ.symm (Note.isPresent_iff.mpr hne)) hnil
  have hread := written_arranged hin.toMembers hin.arranged (fun T s => Track.passing_member s)
    (F := Quiet)
    (fun next hnext s => ⟨hnext s.sigil, trivial⟩) {}
  have heq : gathered (fun s => (s.get notes).tokens) (fun s => s.put (s.get notes)) slots {} =
      notes := by
    refine Notes.ext_get fun s => ?_
    rw [NoteSlot.get_gathered]
    split
    · rfl
    · rename_i hs
      have hgone : s.get notes = .absent := (habsent s).elim
        (fun hmem => Note.tokens_eq_nil_iff.mp (not_not.mp fun hne => hs ⟨hmem, hne⟩)) id
      rw [hgone]
      cases s <;> rfl
  rwa [heq, hts] at hread

section Groups

variable {t : Note .type} {v : Note .var} {f g : Note .field}

theorem Notes.isWellFormed_mk (ht : t.isWellFormed = true) (hv : v.isWellFormed = true)
    (hf : f.isWellFormed = true) (hg : g.isWellFormed = true) : Notes.IsWellFormed ⟨t, v, f, g⟩ := by
  intro s
  cases s
  exacts [ht, hv, hf, hg]

/-- The groups are cases of `written_notes`, each with its own slots. -/
theorem written_typeVarNotes (ht : t.isWellFormed = true) (hv : v.isWellFormed = true) :
    Written Quiet typeVarNotes (t.tokens ++ v.tokens) { type := t, var := v } :=
  written_notes [.type, .var] (by simp [NoteSlot.get]; rfl) (Notes.isWellFormed_mk ht hv rfl rfl)
    (by rintro ⟨⟩ <;> simp [NoteSlot.get] <;> rfl) (by simp [NoteSlot.sigil])

theorem written_varFieldNotes (hv : v.isWellFormed = true) (hf : f.isWellFormed = true) :
    Written Quiet varFieldNotes (v.tokens ++ f.tokens) { var := v, field := f } :=
  written_notes [.var, .field] (by simp [NoteSlot.get]; rfl) (Notes.isWellFormed_mk rfl hv hf rfl)
    (by rintro ⟨⟩ <;> simp [NoteSlot.get] <;> rfl) (by simp [NoteSlot.sigil])

theorem written_componentNotes (hf : f.isWellFormed = true) (ht : t.isWellFormed = true) :
    Written Quiet componentNotes (f.tokens ++ t.tokens) { type := t, field := f } :=
  written_notes [.field, .type] (by simp [NoteSlot.get]; rfl) (Notes.isWellFormed_mk ht rfl hf rfl)
    (by rintro ⟨⟩ <;> simp [NoteSlot.get] <;> rfl) (by simp [NoteSlot.sigil])

theorem written_typeVarFieldNotes (ht : t.isWellFormed = true) (hv : v.isWellFormed = true)
    (hf : f.isWellFormed = true) :
    Written Quiet typeVarFieldNotes (t.tokens ++ v.tokens ++ f.tokens)
      { type := t, var := v, field := f } :=
  written_notes [.type, .var, .field] (by simp [NoteSlot.get]; rfl) (Notes.isWellFormed_mk ht hv hf rfl)
    (by rintro ⟨⟩ <;> simp [NoteSlot.get]; rfl) (by simp [NoteSlot.sigil])

/-- Of the two slots with one sigil, the first is written first. -/
theorem written_typeVarFieldsNotes (ht : t.isWellFormed = true) (hv : v.isWellFormed = true)
    (hf : f.isWellFormed = true) (hg : g.isWellFormed = true)
    (horder : isFilledInOrder [f.isPresent, g.isPresent] = true) :
    Written Quiet typeVarFieldsNotes (t.tokens ++ v.tokens ++ f.tokens ++ g.tokens)
      { type := t, var := v, field := f, otherField := g } := by
  have hfirst : g.isPresent = true → f.isPresent = true := by
    revert horder
    cases f.isPresent <;> cases g.isPresent <;> simp [isFilledInOrder]
  exact written_notes [.type, .var, .field, .otherField] (by simp [NoteSlot.get]; rfl)
    (Notes.isWellFormed_mk ht hv hf hg) (by rintro ⟨⟩ <;> simp)
    (by simpa [NoteSlot.sigil, NoteSlot.get] using hfirst)

end Groups

/-! ## Runs of notes -/

theorem Track.At.exists_series {T : Track} {ns : List (Note σ)} {rest : List Token}
    (hns : ∀ n ∈ ns, n.isWellFormed = true ∧ n.isPresent = true) (hnext : NoNote σ rest.head?) :
    ∀ {k : Nat}, T.At k (ns.flatMap Note.tokens ++ rest) →
      ∃ j, T.Series (note σ) k ns j ∧ T.At j rest := by
  -- each note is one token
  induction ns with
  | nil => exact fun {k} hat => ⟨k, .stop (misses_note hat.le (hat.token? ▸ hnext)), hat⟩
  | cons n ns ih =>
    intro k hat
    obtain ⟨⟨hwf, hpresent⟩, hns⟩ := List.forall_mem_cons.mp hns
    rw [List.flatMap_cons, List.append_assoc] at hat
    obtain ⟨i, hi, hat⟩ := (written_note hwf (Note.isPresent_iff.mp hpresent)).reads hat trivial
    obtain ⟨j, hj, hend⟩ := ih hns hat
    exact ⟨j, .more hi hj, hend⟩

/-- The tokens of notes are valid if their bodies are. -/
theorem valid_flatMap_tokens {ns : List (Note σ)}
    (hns : ∀ n ∈ ns, n.isWellFormed = true ∧ n.isPresent = true) :
    ∀ t ∈ ns.flatMap Note.tokens, t.isValid = true := by
  intro t ht
  obtain ⟨n, hn, htn⟩ := List.mem_flatMap.mp ht
  exact (written_note (hns n hn).1 (List.ne_nil_of_mem htn)).valid t htn

theorem Track.misses_noteRun {T : Track} {k : Nat} (hk : k ≤ T.length)
    (h : NoNote σ (T.token? k)) : T.Misses (many1 (note σ)) k :=
  (misses_note hk h).attempt.bind _

/-- A run of notes of one sigil is read to its end. -/
theorem written_noteRun {ns : List (Note σ)}
    (hns : ∀ n ∈ ns, n.isWellFormed = true ∧ n.isPresent = true)
    (hne : ns.flatMap Note.tokens ≠ []) :
    Written (NoNote σ) (many1 (note σ)) (ns.flatMap Note.tokens) ns where
  valid := valid_flatMap_tokens hns
  reads := by
    intro T k rest hat hnext
    obtain ⟨j, hj, hend⟩ := hat.exists_series hns hnext
    cases ns with
    | nil => exact absurd rfl hne
    | cons n ns => exact ⟨j, hj.yields (Track.passing_note σ), hend⟩

/-- A run of notes that are present has something written for it. -/
theorem flatMap_tokens_eq_nil {ns : List (Note σ)}
    (hns : ∀ n ∈ ns, n.isWellFormed = true ∧ n.isPresent = true)
    (h : ns.flatMap Note.tokens = []) : ns = [] := by
  cases ns with
  | nil => rfl
  | cons n ns =>
    have hn := Note.isPresent_iff.mp (hns n List.mem_cons_self).2
    exact absurd (List.append_eq_nil_iff.mp h).1 hn

/-- A run of notes begins with a note of its sigil. -/
theorem noNote_flatMap (ns : List (Note σ)) {τ : Sigil} (h : τ ≠ σ) :
    NoNote τ (ns.flatMap Note.tokens).head? := by
  induction ns with
  | nil => exact fun _ hnone => nomatch hnone
  | cons n ns ih =>
    rw [List.flatMap_cons, List.head?_append]
    exact n.noNote_head? h _ ih

/-- Members for notes of different sigils do not read what is written for one another. -/
theorem Apart.of_sigils {ι β : Type} {member : ι → Rule (β → β)} {tokens : ι → List Token}
    {update : ι → β → β} {sigil : ι → Sigil} (hinj : Function.Injective sigil)
    (h : Members member tokens update (fun i => NoNote (sigil i)) fun i => NoNote (sigil i))
    (htokens : ∀ i, ∀ τ ≠ sigil i, NoNote τ (tokens i).head?) :
    Apart member tokens update (fun i => NoNote (sigil i)) fun i => NoNote (sigil i) where
  toMembers := h
  apart i i' hne _ :=
    have hfree := htokens i' (sigil i) fun heq => hne (hinj heq)
    ⟨hfree, hfree⟩

namespace LeafSlot

/-- The sigil of the notes in a slot. -/
def sigil : LeafSlot → Sigil
  | vars => .var
  | fields => .field

/-- What is written for a slot. -/
def tokens (n : LeafNotes) : LeafSlot → List Token
  | vars => n.vars.flatMap Note.tokens
  | fields => n.fields.flatMap Note.tokens

/-- Fills a slot. -/
def put (n : LeafNotes) : LeafSlot → LeafNotes → LeafNotes
  | vars, x => { x with vars := n.vars }
  | fields, x => { x with fields := n.fields }

end LeafSlot

section LeafNotes

variable {n : LeafNotes} (hvars : ∀ v ∈ n.vars, v.isWellFormed = true ∧ v.isPresent = true)
  (hfields : ∀ f ∈ n.fields, f.isWellFormed = true ∧ f.isPresent = true)

include hvars hfields

/-- The two runs have different sigils, so neither is taken for the other. -/
theorem LeafSlot.apart : Apart member (tokens n) (put n) (fun s => NoNote s.sigil)
    (fun s => NoNote s.sigil) := by
  refine .of_sigils (fun s s' h => ?_) ⟨fun s hk hfree => ?_, fun s hne => ?_⟩ fun s τ hτ => ?_
  · cases s <;> cases s' <;> first | rfl | cases h
  · cases s with
    | vars | fields => exact (Track.misses_noteRun hk hfree).slot _
  · cases s with
    | vars => exact (written_noteRun hvars hne).map _
    | fields => exact (written_noteRun hfields hne).map _
  · cases s with
    | vars => exact noNote_flatMap n.vars hτ
    | fields => exact noNote_flatMap n.fields hτ

theorem LeafSlot.gathered_notes {is : List LeafSlot} (his : is.Perm [.vars, .fields]) :
    gathered (tokens n) (put n) is {} = n := by
  have hvars' : tokens n .vars = [] → n.vars = [] := flatMap_tokens_eq_nil hvars
  have hfields' : tokens n .fields = [] → n.fields = [] := flatMap_tokens_eq_nil hfields
  rw [gathered_perm (fun s s' x => by cases s <;> cases s' <;> rfl) his, gathered, List.foldl_cons,
    List.foldl_cons, List.foldl_nil]
  obtain ⟨vs, fs⟩ := n
  split <;> split <;> simp_all [put]

/-- The notes of a macro that takes a pair apart are read back, with either run in front. -/
theorem written_leafNotes {is : List LeafSlot} (his : is.Perm [.vars, .fields]) :
    Written Quiet (group ([.vars, .fields].map LeafSlot.member) {}) (is.flatMap (LeafSlot.tokens n))
      n := by
  have happart := LeafSlot.apart hvars hfields
  have horder : Arranged (LeafSlot.tokens n) _ _ [.vars, .fields] is :=
    happart.arranged (his.nodup_iff.mpr (by simp)) (by simp) his.subset
  have hread := written_arranged happart.toMembers horder (fun T s => Track.passing_leafMember s)
    (F := Quiet) (fun next hnext s => ⟨hnext s.sigil, hnext s.sigil⟩) {}
  rwa [LeafSlot.gathered_notes hvars hfields his] at hread

end LeafNotes

namespace PairSlot

/-- The sigil of the notes in a slot. -/
def sigil : PairSlot → Sigil
  | type => .type
  | var => .var
  | fields => .field

/-- What is written for a slot. -/
def tokens (n : PairNotes) : PairSlot → List Token
  | type => n.type.tokens
  | var => n.var.tokens
  | fields => n.fields.flatMap Note.tokens

/-- Fills a slot. -/
def put (n : PairNotes) : PairSlot → PairNotes → PairNotes
  | type, x => { x with type := n.type }
  | var, x => { x with var := n.var }
  | fields, x => { x with fields := n.fields }

end PairSlot

section PairNotes

variable {n : PairNotes} (htype : n.type.isWellFormed = true) (hvar : n.var.isWellFormed = true)
  (hfields : ∀ f ∈ n.fields, f.isWellFormed = true ∧ f.isPresent = true)

include htype hvar hfields in
/-- The notes in the three slots have different sigils, so none is taken for another. -/
theorem PairSlot.apart : Apart member (tokens n) (put n) (fun s => NoNote s.sigil)
    (fun s => NoNote s.sigil) := by
  refine .of_sigils (fun s s' h => ?_) ⟨fun s hk hfree => ?_, fun s hne => ?_⟩ fun s τ hτ => ?_
  · cases s <;> cases s' <;> first | rfl | cases h
  · cases s with
    | type | var => exact (Track.misses_note hk hfree).slot _
    | fields => exact (Track.misses_noteRun hk hfree).slot _
  · cases s with
    | type => exact ((written_note htype hne).map _).mono fun _ _ => trivial
    | var => exact ((written_note hvar hne).map _).mono fun _ _ => trivial
    | fields => exact (written_noteRun hfields hne).map _
  · cases s with
    | type => exact n.type.noNote_tokens hτ
    | var => exact n.var.noNote_tokens hτ
    | fields => exact noNote_flatMap n.fields hτ

include hfields in
theorem PairSlot.gathered_notes {is : List PairSlot} (his : is.Perm [.type, .var, .fields]) :
    gathered (tokens n) (put n) is {} = n := by
  have htype : tokens n .type = [] → n.type = .absent := Note.tokens_eq_nil_iff.mp
  have hvar : tokens n .var = [] → n.var = .absent := Note.tokens_eq_nil_iff.mp
  have hfields' : tokens n .fields = [] → n.fields = [] := flatMap_tokens_eq_nil hfields
  rw [gathered_perm (fun s s' x => by cases s <;> cases s' <;> rfl) his, gathered, List.foldl_cons,
    List.foldl_cons, List.foldl_cons, List.foldl_nil]
  obtain ⟨t, v, fs⟩ := n
  split <;> split <;> split <;> simp_all [put]

include htype hvar hfields in
/-- The notes of a macro that pairs up are read back, in whatever order the type note, the
variable note and the run of field notes are written. -/
theorem written_pairNotes {is : List PairSlot} (his : is.Perm [.type, .var, .fields]) :
    Written Quiet (group ([.type, .var, .fields].map PairSlot.member) {})
      (is.flatMap (PairSlot.tokens n)) n := by
  have happart := PairSlot.apart htype hvar hfields
  have horder : Arranged (PairSlot.tokens n) _ _ [.type, .var, .fields] is :=
    happart.arranged (his.nodup_iff.mpr (by simp)) (by simp) his.subset
  have hread := written_arranged happart.toMembers horder (fun T s => Track.passing_pairMember s)
    (F := Quiet) (fun next hnext s => ⟨hnext s.sigil, hnext s.sigil⟩) {}
  rwa [PairSlot.gathered_notes hfields his] at hread

end PairNotes

/-! ## Notes of pair trees -/

/-- Notes that are absent at the end of a list are not written. -/
theorem flatMap_tokens_append {α : Type} (g : α → Note σ) {filled empty : List α}
    (hempty : ∀ a ∈ empty, g a = .absent) :
    (filled ++ empty).flatMap (fun a => (g a).tokens) = (filled.map g).flatMap Note.tokens := by
  have hnil : empty.flatMap (fun a => (g a).tokens) = [] :=
    List.flatMap_eq_nil_iff.mpr fun a ha => Note.tokens_eq_nil_iff.mpr (hempty a ha)
  rw [List.flatMap_append, hnil, List.append_nil, List.flatMap_map]

namespace PairTree

variable {t : PairTree}

/-- A tree that can be paired up is made of its shape and of a run of field notes. -/
theorem exists_fields (h : t.isWellFormedForPairing = true) : ∃ fields : List (Note .field),
    (∀ f ∈ fields, f.isWellFormed = true ∧ f.isPresent = true) ∧
      t.leaves.flatMap (fun leaf => leaf.1.tokens) = [] ∧
      t.leaves.flatMap (fun leaf => leaf.2.tokens) = fields.flatMap Note.tokens ∧
      t.stripped.withLeafNotes (fields.map fun f => (.absent, f)) = t := by
  simp only [isWellFormedForPairing, hasWellFormedNotes, Bool.and_eq_true, List.all_eq_true,
    Bool.not_eq_true'] at h
  obtain ⟨⟨⟨hnotes, -⟩, hvars⟩, horder⟩ := h
  obtain ⟨filled, empty, hleaves, hfilled, hempty⟩ := exists_of_isFilledInOrder horder
  rw [hleaves] at hnotes hvars ⊢
  have hvar : ∀ leaf ∈ filled ++ empty, leaf.1 = .absent := fun leaf hleaf =>
    Note.eq_absent_of_not_isPresent (hvars leaf hleaf)
  have hnone : ∀ leaf ∈ empty, leaf.2 = .absent := fun leaf hleaf =>
    Note.eq_absent_of_not_isPresent (hempty leaf hleaf)
  refine ⟨filled.map Prod.snd, List.forall_mem_map.mpr fun leaf hleaf => ?_, ?_,
    flatMap_tokens_append Prod.snd hnone, ?_⟩
  · exact ⟨(hnotes leaf (List.mem_append_left _ hleaf)).2, hfilled leaf hleaf⟩
  · exact List.flatMap_eq_nil_iff.mpr fun leaf hleaf => Note.tokens_eq_nil_iff.mpr (hvar leaf hleaf)
  · have hpairs : (filled.map Prod.snd).map (fun f => ((.absent : Note .var), f)) = filled := by
      rw [List.map_map]
      refine (List.map_congr_left fun leaf hleaf => ?_).trans (List.map_id filled)
      exact Prod.ext (hvar leaf (List.mem_append_left _ hleaf)).symm rfl
    rw [hpairs]
    refine stripped_withLeafNotes_filled hleaves fun leaf hleaf => ?_
    exact Prod.ext (hvar leaf (List.mem_append_right _ hleaf)) (hnone leaf hleaf)

/-- A tree that can be taken apart is made of its shape and of two runs of notes. -/
theorem exists_notes (h : t.isWellFormedForUnpairing = true) :
    ∃ (vars : List (Note .var)) (fields : List (Note .field)),
      (∀ v ∈ vars, v.isWellFormed = true ∧ v.isPresent = true) ∧
      (∀ f ∈ fields, f.isWellFormed = true ∧ f.isPresent = true) ∧
      t.leaves.flatMap (fun leaf => leaf.1.tokens) = vars.flatMap Note.tokens ∧
      t.leaves.flatMap (fun leaf => leaf.2.tokens) = fields.flatMap Note.tokens ∧
      t.stripped.withLeafNotes (vars.zip fields) = t := by
  simp only [isWellFormedForUnpairing, hasWellFormedNotes, Bool.and_eq_true, List.all_eq_true,
    beq_iff_eq] at h
  obtain ⟨⟨⟨hnotes, -⟩, hboth⟩, horder⟩ := h
  obtain ⟨filled, empty, hleaves, hfilled, hempty⟩ := exists_of_isFilledInOrder horder
  rw [hleaves] at hnotes hboth ⊢
  have hfield : ∀ leaf ∈ empty, leaf.2 = .absent := fun leaf hleaf =>
    Note.eq_absent_of_not_isPresent (hempty leaf hleaf)
  have hvar : ∀ leaf ∈ empty, leaf.1 = .absent := fun leaf hleaf =>
    Note.eq_absent_of_not_isPresent
      ((hboth leaf (List.mem_append_right _ hleaf)).trans (hempty leaf hleaf))
  refine ⟨filled.map Prod.fst, filled.map Prod.snd, List.forall_mem_map.mpr fun leaf hleaf => ?_,
    List.forall_mem_map.mpr fun leaf hleaf => ?_, flatMap_tokens_append Prod.fst hvar,
    flatMap_tokens_append Prod.snd hfield, ?_⟩
  · have hmem := List.mem_append_left empty hleaf
    exact ⟨(hnotes leaf hmem).1, (hboth leaf hmem).trans (hfilled leaf hleaf)⟩
  · exact ⟨(hnotes leaf (List.mem_append_left _ hleaf)).2, hfilled leaf hleaf⟩
  · rw [← List.zip_of_prod rfl rfl]
    exact stripped_withLeafNotes_filled hleaves fun leaf hleaf =>
      Prod.ext (hvar leaf hleaf) (hfield leaf hleaf)

end PairTree

end Michelson
