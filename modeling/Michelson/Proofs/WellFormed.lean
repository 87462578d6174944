import Michelson.Proofs.BlockValue
import Michelson.Proofs.NoteGroups
import Michelson.Proofs.PairTrees
import Michelson.Proofs.Sections
import Michelson.Proofs.Whole

/-!
# What is read is well formed

Every tree that is read from a text is well formed, all of its parts included. Most of it
is said by the rules one by one. Three things take more: a slot for a second note is
filled after the first, since the rule for the first has seen the same token; a pair of
two leaves is no macro, since an instruction has its name; and a block that stands for a
value has a step of its own, since otherwise it had been read as a sequence.

* `Track.wellFormed_code` is the statement about values and blocks on a track.
* `parse_isWellFormed` is the statement about texts.
-/

namespace Michelson

open Rule Grammar

/-! ## Lists of parts -/

/-- A list of values is well formed if its items are. -/
theorem areWellFormedItems_iff {ds : List Data} :
    areWellFormedItems ds = true ↔ ∀ d ∈ ds, d.isWellFormed = true := by
  induction ds with
  | nil => simp [areWellFormedItems]
  | cons d ds ih => simp [areWellFormedItems, ih]

theorem areWellFormedEntries_iff {es : List Entry} :
    areWellFormedEntries es = true ↔ ∀ e ∈ es, e.isWellFormed = true := by
  induction es with
  | nil => simp [areWellFormedEntries]
  | cons e es ih => simp [areWellFormedEntries, ih]

theorem areWellFormedSteps_iff {os : List Op} :
    areWellFormedSteps os = true ↔ ∀ o ∈ os, o.isWellFormed = true := by
  induction os with
  | nil => simp [areWellFormedSteps]
  | cons o os ih => simp [areWellFormedSteps, ih]

/-- Whether what stands in a section is well formed. -/
def Part.isWellFormed : (part : Part) → part.Value → Bool
  | parameter => Ty.isWellFormed
  | storage => Ty.isWellFormed
  | code => Block.isWellFormed

/-- The word for two leaves is that of the instruction. -/
theorem MacroName.Spelled.three_le_leafCount {t : PairTree} {w : List Char}
    (h : (pairUp t).Spelled w) (hw : w ≠ "PAIR".toList) : 3 ≤ t.leafCount := by
  obtain ⟨hshape, rfl⟩ := h
  by_contra hlt
  rw [letters, PairTree.rightName_of_leafCount hshape (by omega)] at hw
  exact hw rfl

namespace Track

variable {T : Track} {k j : Nat}

/-- The word of the instruction for pairs never leaves a track to the macros. -/
theorem not_misses_pair (ht : T.token? k = some (.word "PAIR".toList)) :
    ¬T.Misses (instruction Knot.full) k := by
  intro hmiss
  rw [instruction_eq, mnemonicWord_eq] at hmiss
  have hword : Instr.Head.ofMnemonic? (String.ofList "PAIR".toList) = some .pair := by decide
  obtain ⟨s, t, hrun⟩ := hmiss.of_attempt.of_bind (yields_word ht hword)
  exact ((NeverMisses.groupWithin _ _ _).bind fun _ => .pure _) none s (congrArg Reply.verdict hrun)

/-! ## Types -/

/-- All that a rule reads from a place is well formed. -/
theorem wellFormed_comparable : ∀ k ≤ T.length,
    T.Gives Knot.full.comparable k fun c _ => c.isWellFormed = true := by
  refine places_induction fun k hk ih => ?_
  refine wraps_comparable.gives_of_later kept_comparable hk ih ?_
  rw [headWord_eq]
  refine (gives_word hk).bind fun base i _ hi _ => ?_
  exact ((kept_noteSlot _).gives hi).bind fun n j _ hj hn => .pure hj (isWellFormed_of_noteSlot hn)

/-- Notes that are read are well formed, and so are absent ones. -/
theorem wellFormed_nodeNotes (withField : Bool) (hk : k ≤ T.length) :
    T.Gives (nodeNotes withField) k fun notes _ =>
      notes.type.isWellFormed = true ∧ notes.field.isWellFormed = true := by
  cases withField with
  | true =>
    change T.Gives componentNotes k _
    rw [componentNotes_eq]
    exact (gives_notes _ hk).mono fun notes _ _ h => ⟨h .type, h .field⟩
  | false =>
    exact ((kept_noteSlot _).gives hk).bind fun n j _ hj hn =>
      .pure hj ⟨isWellFormed_of_noteSlot hn, rfl⟩

/-- The parts of a type are read in places behind its word, so they are well formed before the type
is. -/
theorem wellFormed_components {n : Note .type} (hn : n.isWellFormed = true) (head : Ty.Head)
    (hk : k ≤ T.length) (htype : ∀ i, k ≤ i → i ≤ T.length → ∀ b,
      T.Gives (Knot.full.type b) i fun x _ => x.1.isWellFormed = true ∧ x.2.isWellFormed = true) :
    T.Gives (components Knot.full n head) k fun t _ => t.isWellFormed = true := by
  have hplain : ∀ i, k ≤ i → i ≤ T.length →
      T.Gives Knot.full.plainType i fun t _ => t.isWellFormed = true := fun i hki hi =>
    (htype i hki hi false).bind fun _ j _ hj hx => .pure hj hx.2
  cases head with
  | atom a => exact .pure hk hn
  | option =>
    refine (htype k le_rfl hk true).bind fun x j _ hj hx => ?_
    exact .pure hj (by simp [Ty.isWellFormed, hn, hx.1, hx.2])
  | wrapped w =>
    refine (hplain k le_rfl hk).bind fun t j _ hj ht => ?_
    exact .pure hj (by simp [Ty.isWellFormed, hn, ht])
  | set =>
    refine (wellFormed_comparable k hk).bind fun c j _ hj hc => ?_
    exact .pure hj (by simp [Ty.isWellFormed, hn, hc])
  | joint j =>
    refine (htype k le_rfl hk true).bind fun x i hki hi hx => ?_
    refine (htype i hki hi true).bind fun y j _ hj hy => ?_
    exact .pure hj (by simp [Ty.isWellFormed, hn, hx.1, hx.2, hy.1, hy.2])
  | lambda =>
    refine (hplain k le_rfl hk).bind fun d i hki hi hd => ?_
    refine (hplain i hki hi).bind fun c j _ hj hc => ?_
    exact .pure hj (by simp [Ty.isWellFormed, hn, hd, hc])
  | table t =>
    refine (wellFormed_comparable k hk).bind fun c i hki hi hc => ?_
    refine (hplain i hki hi).bind fun v j _ hj hv => ?_
    exact .pure hj (by simp [Ty.isWellFormed, hn, hc, hv])

/-- A type that is read anywhere on the track is well formed, and so is its field note. -/
theorem wellFormed_type : ∀ k ≤ T.length, ∀ withField, T.Gives (Knot.full.type withField) k
    fun x _ => x.1.isWellFormed = true ∧ x.2.isWellFormed = true := by
  -- the places behind are settled first
  refine places_induction fun k hk ih withField => ?_
  refine (wraps_type withField).gives_of_later (kept_type withField) hk
    (Q := fun x => x.1.isWellFormed = true ∧ x.2.isWellFormed = true)
    (fun i hki hi => ih i hki hi withField) ?_
  rw [headWord_eq]
  refine (gives_word hk).bind fun head i _ hi hw => ?_
  obtain ⟨-, -, -, rfl⟩ := hw
  refine (wellFormed_nodeNotes withField hi).bind fun notes i' hii' hi' hnotes => ?_
  refine (wellFormed_components hnotes.1 head hi' fun i'' h hi'' => ih i'' (by omega) hi'').bind
    fun t j _ hj ht => .pure hj ⟨hnotes.2, ht⟩

theorem wellFormed_plainType (hk : k ≤ T.length) :
    T.Gives Knot.full.plainType k fun t _ => t.isWellFormed = true :=
  (wellFormed_type k hk false).bind fun _ _ _ hj hx => .pure hj hx.2

/-! ## Values and code -/

section Code

/-- From a place on, all values and blocks that are read are well formed. -/
structure WellFormedFrom (T : Track) (k : Nat) : Prop where
  value (i : Nat) : k ≤ i → i ≤ T.length →
    T.Gives Knot.full.value i fun d _ => d.isWellFormed = true
  block (i : Nat) : k ≤ i → i ≤ T.length →
    T.Gives Knot.full.block i fun b _ => areWellFormedSteps b = true

/-- What holds from a place on holds from the places behind it. -/
theorem WellFormedFrom.mono (h : T.WellFormedFrom k) (hkj : k ≤ j) : T.WellFormedFrom j where
  value i hji := h.value i (hkj.trans hji)
  block i hji := h.block i (hkj.trans hji)

theorem wellFormed_noteSlot {σ : Sigil} (hk : k ≤ T.length) :
    T.Gives (noteSlot σ) k fun n _ => n.isWellFormed = true :=
  ((kept_noteSlot σ).gives hk).mono fun _ _ _ hn => isWellFormed_of_noteSlot hn

theorem wellFormed_noteSlots {σ : Sigil} {α : Type} {q : Note σ → Note σ → Rule α}
    {P : α → Nat → Prop} (hk : k ≤ T.length)
    (hq : ∀ v w j, k ≤ j → j ≤ T.length → v.isWellFormed = true → w.isWellFormed = true →
      isFilledInOrder [v.isPresent, w.isPresent] = true → T.Gives (q v w) j P) :
    T.Gives (do
      let v ← noteSlot σ
      let w ← noteSlot σ
      q v w) k P := by
  refine ((kept_noteSlot σ).gives hk).bind fun v i hki hi hv => ?_
  refine ((kept_noteSlot σ).gives hi).bind fun w j hij hj hw => ?_
  exact hq v w j (hki.trans hij) hj (isWellFormed_of_noteSlot hv) (isWellFormed_of_noteSlot hw)
    (isFilledInOrder_noteSlots hv hw)

/-- The fragment of a section is well formed. -/
theorem wellFormed_fragment (h : T.WellFormedFrom k) (hk : k ≤ T.length) (part : Part) :
    T.Gives (fragmentRule Knot.full part) k fun v _ => part.isWellFormed v = true := by
  cases part with
  | parameter | storage => exact wellFormed_plainType hk
  | code => exact h.block k le_rfl hk

/-- The sections of a contract are well formed. -/
theorem wellFormed_contractRule (h : T.WellFormedFrom k) (hk : k ≤ T.length) :
    T.Gives (contractRule Knot.full) k fun c _ => c.isWellFormed = true := by
  refine (gives_contractRule hk).mono fun c j _ hc => ?_
  obtain ⟨s, hrounds, hget⟩ := hc
  let I : List Part → Sections → Prop := fun _ s =>
    ∀ (part : Part) (v : part.Value), s.get part = some v → part.isWellFormed v = true
  have hempty : I [.parameter, .storage, .code] {} := by
    intro part v hv
    cases part <;> cases hv
  obtain ⟨_, hwf⟩ := hrounds.invariant (I := I) hempty
    fun before part after p u q s hp _ hu hs => by
      obtain ⟨v, rfl, hv⟩ :=
        hu.of_gives (((kept_sectionRule part).gives (hu.le.trans hu.le_length)).slot _)
      obtain ⟨-, i, hv, -⟩ := hv.of_gives (gives_sectionRule (hv.le.trans hv.le_length))
      have hi := hv.le.trans hv.le_length
      have hgood := hv.of_gives (wellFormed_fragment (h.mono (hp.trans (Nat.le_succ p))) hi part)
      intro part' w hw
      by_cases hpart : part' = part
      · subst hpart
        rw [Sections.get_put] at hw
        exact Option.some.inj hw ▸ hgood
      · rw [Sections.get_put_of_ne s hpart] at hw
        exact hs part' w hw
  have hall (part : Part) : part.isWellFormed (c.get part) = true := hwf part _ (hget part)
  rw [Contract.isWellFormed, Bool.and_eq_true, Bool.and_eq_true]
  exact ⟨⟨hall .parameter, hall .storage⟩, hall .code⟩

theorem kept_enclosedContract : T.Kept (enclosed (contractRule Knot.full)) :=
  kept_of_respected (R := fun g => enclosed (contractRule g))
    fun _ _ _ C _ _ _ h => C.enclosed (C.contractRule h.type h.block)

theorem wellFormed_bracedContract (h : T.WellFormedFrom k) (hk : k ≤ T.length) :
    T.Gives (bracedContract Knot.full) k fun x _ => ∀ c, x = some c → c.isWellFormed = true := by
  have hcontract : T.Gives (enclosed (contractRule Knot.full)) k fun c _ => c.isWellFormed = true := by
    refine (gives_symbol (by decide) hk).bind fun _ i hki hi _ => ?_
    refine (wellFormed_contractRule (h.mono hki) hi).bind fun c i' _ hi' hc => ?_
    exact (gives_symbol (by decide) hi').bind fun _ j _ hj _ => .pure hj hc
  rw [bracedContract_eq]
  refine (hcontract.optional kept_enclosedContract hk).mono fun x j _ hx => ?_
  rintro c rfl
  rcases hx with ⟨c', heq, hc⟩ | ⟨hnone, -⟩
  · exact Option.some.inj heq ▸ hc
  · cases hnone

theorem wellFormed_twoBlocks (h : T.WellFormedFrom k) (hk : k ≤ T.length) :
    T.Gives (twoBlocks Knot.full) k fun b _ =>
      areWellFormedSteps b.1 = true ∧ areWellFormedSteps b.2 = true := by
  refine (h.block k le_rfl hk).bind fun yes i hki hi hyes => ?_
  exact (h.block i hki hi).bind fun no j _ hj hno => .pure hj ⟨hyes, hno⟩

/-- Instructions, by their mnemonics. -/
theorem wellFormed_arguments (h : T.WellFormedFrom k) (hk : k ≤ T.length) (head : Instr.Head) :
    T.Gives (arguments Knot.full head) k fun i _ => i.isWellFormed = true := by
  cases head with
  | plain name => exact .pure hk rfl
  | noted name => exact (wellFormed_noteSlot hk).bind fun v j _ hj hv => .pure hj hv
  | typed name =>
    refine (wellFormed_noteSlot hk).bind fun v i _ hi hv => ?_
    refine (wellFormed_plainType hi).bind fun t j _ hj ht => ?_
    exact .pure hj (by simp [Instr.isWellFormed, hv, ht])
  | branch name =>
    refine (wellFormed_twoBlocks h hk).bind fun b j _ hj hb => ?_
    exact .pure hj (by simp [Instr.isWellFormed, hb.1, hb.2])
  | enclosing name => exact (h.block k le_rfl hk).bind fun b j _ hj hb => .pure hj hb
  | traversal name =>
    refine (wellFormed_noteSlot hk).bind fun v i hki hi hv => ?_
    refine (h.block i hki hi).bind fun b j _ hj hb => ?_
    exact .pure hj (by simp [Instr.isWellFormed, hv, hb])
  | project side =>
    rw [arguments, varFieldNotes_eq]
    refine (gives_notes _ hk).bind fun n j _ hj hn => .pure hj ?_
    simp only [Instr.isWellFormed, Bool.and_eq_true]
    exact ⟨hn .var, hn .field⟩
  | inject side =>
    refine (gives_typeVarFieldsNotes hk).bind fun n i _ hi hn => ?_
    obtain ⟨hn, horder⟩ := hn
    refine (wellFormed_plainType hi).bind fun t j _ hj ht => .pure hj ?_
    simp only [Instr.isWellFormed, Bool.and_eq_true]
    exact ⟨⟨⟨⟨⟨hn .type, hn .var⟩, hn .field⟩, hn .otherField⟩, horder⟩, ht⟩
  | push =>
    refine (wellFormed_noteSlot hk).bind fun v i hki hi hv => ?_
    refine (wellFormed_plainType hi).bind fun t i' hii' hi' ht => ?_
    refine (h.value i' (hki.trans hii') hi').bind fun d j _ hj hd => ?_
    exact .pure hj (by simp [Instr.isWellFormed, hv, ht, hd])
  | some =>
    rw [arguments, typeVarFieldNotes_eq]
    refine (gives_notes _ hk).bind fun n j _ hj hn => .pure hj ?_
    simp only [Instr.isWellFormed, Bool.and_eq_true]
    exact ⟨⟨hn .type, hn .var⟩, hn .field⟩
  | none =>
    rw [arguments, typeVarFieldNotes_eq]
    refine (gives_notes _ hk).bind fun n i _ hi hn => ?_
    refine (wellFormed_plainType hi).bind fun t j _ hj ht => .pure hj ?_
    simp only [Instr.isWellFormed, Bool.and_eq_true]
    exact ⟨⟨⟨hn .type, hn .var⟩, hn .field⟩, ht⟩
  | unit =>
    rw [arguments, typeVarNotes_eq]
    refine (gives_notes _ hk).bind fun n j _ hj hn => .pure hj ?_
    simp only [Instr.isWellFormed, Bool.and_eq_true]
    exact ⟨hn .type, hn .var⟩
  | pair =>
    refine (gives_typeVarFieldsNotes hk).bind fun n j _ hj hn => .pure hj ?_
    obtain ⟨hn, horder⟩ := hn
    simp only [Instr.isWellFormed, Bool.and_eq_true]
    exact ⟨⟨⟨⟨hn .type, hn .var⟩, hn .field⟩, hn .otherField⟩, horder⟩
  | nil =>
    rw [arguments, typeVarNotes_eq]
    refine (gives_notes _ hk).bind fun n i _ hi hn => ?_
    refine (wellFormed_plainType hi).bind fun t j _ hj ht => .pure hj ?_
    simp only [Instr.isWellFormed, Bool.and_eq_true]
    exact ⟨⟨hn .type, hn .var⟩, ht⟩
  | emptySet =>
    rw [arguments, typeVarNotes_eq]
    refine (gives_notes _ hk).bind fun n i _ hi hn => ?_
    refine (wellFormed_comparable i hi).bind fun c j _ hj hc => .pure hj ?_
    simp only [Instr.isWellFormed, Bool.and_eq_true]
    exact ⟨⟨hn .type, hn .var⟩, hc⟩
  | emptyMap =>
    rw [arguments, typeVarNotes_eq]
    refine (gives_notes _ hk).bind fun n i _ hi hn => ?_
    refine (wellFormed_comparable i hi).bind fun c i' _ hi' hc => ?_
    refine (wellFormed_plainType hi').bind fun t j _ hj ht => .pure hj ?_
    simp only [Instr.isWellFormed, Bool.and_eq_true]
    exact ⟨⟨⟨hn .type, hn .var⟩, hc⟩, ht⟩
  | lambda =>
    refine (wellFormed_noteSlot hk).bind fun v i hki hi hv => ?_
    refine (wellFormed_plainType hi).bind fun d i' hii' hi' hd => ?_
    refine (wellFormed_plainType hi').bind fun c l hil hl hc => ?_
    refine (h.block l (hki.trans (hii'.trans hil)) hl).bind fun b j _ hj hb => ?_
    exact .pure hj (by simp [Instr.isWellFormed, hv, hd, hc, hb])
  | createAccount =>
    refine wellFormed_noteSlots hk fun v w j _ hj hv hw horder => .pure hj ?_
    simp only [Instr.isWellFormed, Bool.and_eq_true]
    exact ⟨⟨hv, hw⟩, horder⟩
  | createContract =>
    refine wellFormed_noteSlots hk fun v w i hki hi hv hw horder => ?_
    refine (wellFormed_bracedContract (h.mono hki) hi).bind fun x j _ hj hx => ?_
    cases x with
    | none =>
      refine .pure hj ?_
      simp only [Instr.isWellFormed, Bool.and_eq_true]
      exact ⟨⟨hv, hw⟩, horder⟩
    | some c =>
      refine .pure hj ?_
      have hc := hx c rfl
      simp only [Contract.isWellFormed, Block.isWellFormed, Bool.and_eq_true] at hc
      simp only [Instr.isWellFormed, Bool.and_eq_true]
      exact ⟨⟨⟨⟨⟨hv, hw⟩, horder⟩, hc.1.1⟩, hc.1.2⟩, hc.2⟩

/-- Macros, by their names. -/
theorem wellFormed_macroArguments (h : T.WellFormedFrom k) (hk : k ≤ T.length) {n : MacroName}
    {w : List Char} (hn : n.Spelled w) (hpair : w ≠ "PAIR".toList) :
    T.Gives (macroArguments Knot.full n) k fun m _ => m.isWellFormed = true := by
  cases n with
  | fixed name => exact .pure hk rfl
  | compare c => exact (wellFormed_noteSlot hk).bind fun v j _ hj hv => .pure hj hv
  | ifCompared c =>
    refine (wellFormed_twoBlocks h hk).bind fun b j _ hj hb => ?_
    exact .pure hj (by simp [Macro.isWellFormed, hb.1, hb.2])
  | ifCompare c =>
    refine (wellFormed_noteSlot hk).bind fun v i hki hi hv => ?_
    refine (wellFormed_twoBlocks (h.mono hki) hi).bind fun b j _ hj hb => ?_
    exact .pure hj (by simp [Macro.isWellFormed, hv, hb.1, hb.2])
  | ifSome =>
    refine (wellFormed_twoBlocks h hk).bind fun b j _ hj hb => ?_
    exact .pure hj (by simp [Macro.isWellFormed, hb.1, hb.2])
  | assertCompared c => exact .pure hk rfl
  | assertCompare c => exact .pure hk rfl
  | dipDeep depth =>
    obtain ⟨v, ⟨count, -, hdepth, -⟩, -⟩ := hn
    refine (h.block k le_rfl hk).bind fun b j _ hj hb => ?_
    exact .pure hj (by simp [Macro.isWellFormed, hdepth, hb])
  | dupDeep depth =>
    obtain ⟨v, ⟨count, -, hdepth, -⟩, -⟩ := hn
    refine (wellFormed_noteSlot hk).bind fun v j _ hj hv => ?_
    exact .pure hj (by simp [Macro.isWellFormed, hdepth, hv])
  | pairUp shape =>
    have hcount := hn.three_le_leafCount hpair
    obtain ⟨hshape, rfl⟩ := hn
    refine (gives_pairNotes hk).bind fun notes j _ hj hnotes => .pure hj ?_
    obtain ⟨htype, hvar, hfields⟩ := hnotes
    have htree := PairTree.isWellFormedForPairing_withLeafNotes hshape.1 hcount hfields
    simp only [Macro.isWellFormed, Bool.and_eq_true]
    exact ⟨⟨htree, htype⟩, hvar⟩
  | unpair shape =>
    obtain ⟨hshape, rfl⟩ := hn
    refine (gives_leafNotes hk).bind fun notes j _ hj hnotes => .pure hj ?_
    exact PairTree.isWellFormedForUnpairing_withLeafNotes hshape.1 hshape.2 hnotes.1 hnotes.2
  | getPath path =>
    rw [macroArguments, varFieldNotes_eq]
    refine (gives_notes _ hk).bind fun notes j _ hj hnotes => .pure hj ?_
    simp only [Macro.isWellFormed, Bool.and_eq_true, decide_eq_true_eq]
    exact ⟨⟨hn.1, hnotes .var⟩, hnotes .field⟩
  | setPath path =>
    rw [macroArguments, varFieldNotes_eq]
    refine (gives_notes _ hk).bind fun notes j _ hj hnotes => .pure hj ?_
    simp only [Macro.isWellFormed, Bool.and_eq_true, decide_eq_true_eq]
    exact ⟨⟨hn.1, hnotes .var⟩, hnotes .field⟩
  | mapPath path =>
    rw [macroArguments, varFieldNotes_eq]
    refine (gives_notes _ hk).bind fun notes i hki hi hnotes => ?_
    refine (h.block i hki hi).bind fun b j _ hj hb => .pure hj ?_
    simp only [Macro.isWellFormed, Bool.and_eq_true, decide_eq_true_eq]
    exact ⟨⟨⟨hn.1, hnotes .var⟩, hnotes .field⟩, hb⟩

/-- A step that is read is well formed, if what stands in it is. -/
theorem wellFormed_step (h : T.WellFormedFrom (k + 1)) (hk : k ≤ T.length)
    (hblock : T.Gives Knot.full.block k fun b _ => areWellFormedSteps b = true) :
    T.Gives (step Knot.full) k fun o _ => o.isWellFormed = true := by
  refine (gives_step hk).mono fun o j _ ho => ?_
  cases ho with
  | prim ht _ hi => exact hi.of_gives (wellFormed_arguments h (le_of_token? ht) _)
  | mac ht hn hm hmiss =>
    refine hm.of_gives (wellFormed_macroArguments h (le_of_token? ht) hn ?_)
    rintro rfl
    exact not_misses_pair ht hmiss
  | seq hb => exact hb.of_gives hblock

/-- A block is well formed if all that is read behind its brace is. -/
theorem wellFormed_block (h : T.WellFormedFrom (k + 1)) (hk : k ≤ T.length) :
    T.Gives Knot.full.block k fun b _ => areWellFormedSteps b = true := by
  refine (gives_block hk).mono fun b j _ hb => areWellFormedSteps_iff.mpr fun o ho => ?_
  obtain ⟨i, i', hki, ho⟩ := hb.exists_yields o ho
  have hi := ho.le.trans ho.le_length
  exact ho.of_gives (wellFormed_step (h.mono (by omega)) hi (h.block i hki hi))

theorem wellFormed_dataParts (h : T.WellFormedFrom k) (hk : k ≤ T.length) (head : Data.Head) :
    T.Gives (dataParts Knot.full head) k fun d _ => d.isWellFormed = true := by
  cases head with
  | constant c => exact .pure hk (by rw [Data.isWellFormed])
  | wrapped w =>
    refine (h.value k le_rfl hk).bind fun d j _ hj hd => ?_
    exact .pure hj (by rw [Data.isWellFormed, hd])
  | pair =>
    refine (h.value k le_rfl hk).bind fun l i hki hi hl => ?_
    refine (h.value i hki hi).bind fun r j _ hj hr => ?_
    exact .pure hj (by rw [Data.isWellFormed, hl, hr, Bool.and_true])

theorem wellFormed_entry (h : T.WellFormedFrom k) (hk : k ≤ T.length) :
    T.Gives (entry Knot.full) k fun e _ => e.isWellFormed = true := by
  refine (gives_keyword hk).bind fun _ i hki hi _ => ?_
  refine (h.value i hki hi).bind fun key i' hii' hi' hkey => ?_
  refine (h.value i' (hki.trans hii') hi').bind fun value j _ hj hvalue => ?_
  exact .pure hj (by rw [Entry.isWellFormed, hkey, hvalue, Bool.and_true])

/-- A value of one token is well formed as it is. -/
theorem wellFormed_literal {t : Token} {d : Data} (h : readInteger (some t) = .taken d ∨
    readString (some t) = .taken d ∨ readBytes (some t) = .taken d) : d.isWellFormed = true := by
  rcases h with h | h | h
  · cases t with
    | integer negative digits =>
      obtain rfl := Reading.taken.inj h
      rw [Data.isWellFormed]
    | _ => cases h
  · cases t with
    | string written =>
      rw [readString] at h
      split at h
      · obtain rfl := Reading.taken.inj h
        rw [Data.isWellFormed]
      · cases h
    | _ => cases h
  · cases t with
    | bytes digits =>
      rw [readBytes] at h
      split at h
      · obtain rfl := Reading.taken.inj h
        rw [Data.isWellFormed]
      · cases h
    | _ => cases h

/-- A value is well formed if all that is read behind its first token is, and blocks that
are read at it are. -/
theorem wellFormed_value (h : T.WellFormedFrom (k + 1)) (hk : k ≤ T.length)
    (hblock : T.Gives Knot.full.block k fun b _ => areWellFormedSteps b = true) :
    T.Gives Knot.full.value k fun d _ => d.isWellFormed = true := by
  refine (kept_value.gives hk).mono fun d j _ hd => ?_
  rcases hd.of_gives (wraps_value.gives kept_value hk (gives_plainValue hk)) with
    ⟨i, hopen, hinner, -⟩ | ⟨-, hplain⟩
  · exact hinner.of_gives (h.value _ le_rfl (le_of_token? hopen))
  cases hplain with
  | literal _ ht => exact wellFormed_literal ht
  | word ht _ hparts => exact hparts.of_gives (wellFormed_dataParts h (le_of_token? ht) _)
  | @map es _ hne hes =>
    rw [Data.isWellFormed, Bool.and_eq_true, areWellFormedEntries_iff]
    refine ⟨by simpa using hne, fun e he => ?_⟩
    obtain ⟨i, i', hki, he⟩ := hes.exists_yields e he
    exact he.of_gives (wellFormed_entry (h.mono hki) (he.le.trans he.le_length))
  | seq hds =>
    rw [Data.isWellFormed, areWellFormedItems_iff]
    intro d hd
    obtain ⟨i, i', hki, hd⟩ := hds.exists_yields d hd
    exact hd.of_gives (h.value i hki (hd.le.trans hd.le_length))
  | code hb =>
    rw [Data.isWellFormed, Bool.and_eq_true]
    exact ⟨hasOwnStep_of_yields hb hd, hb.of_gives hblock⟩

/-- **Values and code** that are read on a track are well formed. -/
theorem wellFormed_code (T : Track) : T.WellFormedFrom 0 := by
  have hall : ∀ k ≤ T.length, (T.Gives Knot.full.value k fun d _ => d.isWellFormed = true) ∧
      T.Gives Knot.full.block k fun b _ => areWellFormedSteps b = true := by
    refine places_induction fun k hk ih => ?_
    have hfrom : T.WellFormedFrom (k + 1) :=
      ⟨fun i hki hi => (ih i hki hi).1, fun i hki hi => (ih i hki hi).2⟩
    have hblock := wellFormed_block hfrom hk
    exact ⟨wellFormed_value hfrom hk hblock, hblock⟩
  exact ⟨fun i _ hi => (hall i hi).1, fun i _ hi => (hall i hi).2⟩

end Code

end Track

/-! ## Texts -/

/-- What a rule reads from a text is as said if it is on all tracks. -/
theorem run_invariant {α : Type} {R : Knot → Rule α} (hr : Respected R) {P : α → Prop}
    (h : ∀ T : Track, T.Gives (R Knot.full) 0 fun a _ => P a) {limit : Option Nat}
    {text : List Char} {a : α} (hrun : (run R limit text).result = .ok a) : P a := by
  obtain ⟨_, T, -, -, -, ha⟩ := (run_ok_iff hr).mp (run_ok_of_limit hr hrun)
  exact ha.of_gives (h T)

/-- **What is read is well formed.** Whatever the limit on nesting is, each contract, type,
value or block that is read from a text is well formed, with all that is in it. -/
theorem parse_isWellFormed :
    (∀ limit text c, Contract.parseWithin limit text = .ok c → c.isWellFormed = true) ∧
      (∀ text t, Ty.parse text = .ok t → t.isWellFormed = true) ∧
      (∀ text d, Data.parse text = .ok d → d.isWellFormed = true) ∧
      ∀ text b, Block.parse text = .ok b → Block.isWellFormed b = true := by
  refine ⟨fun limit text c h => ?_, fun text t h => ?_, fun text d h => ?_, fun text b h => ?_⟩
  · exact run_invariant respected_contractRule
      (fun T => Track.wellFormed_contractRule T.wellFormed_code (Nat.zero_le _)) h
  · exact run_invariant respected_plainType (fun T => Track.wellFormed_plainType (Nat.zero_le _)) h
  · exact run_invariant respected_value
      (fun T => T.wellFormed_code.value 0 le_rfl (Nat.zero_le _)) h
  · exact run_invariant respected_block
      (fun T => T.wellFormed_code.block 0 le_rfl (Nat.zero_le _)) h

theorem exists_of_isOk {ε α : Type} {x : Except ε α} (h : x.isOk = true) : ∃ a, x = .ok a := by
  cases x with
  | ok a => exact ⟨a, rfl⟩
  | error e => cases h

/-- A contract with a macro for three leaves, and one text of each other kind. -/
theorem parse_isWellFormed_papair :
    (∃ c, Contract.parseWithin (some 9) "parameter unit;storage unit;code \x7bPAPAIR %a\x7d" = .ok c ∧
        c.isWellFormed = true) ∧
      (∃ t, Ty.parse "or (int %a) nat" = .ok t ∧ t.isWellFormed = true) ∧
      (∃ d, Data.parse "\x7bElt 1 \x7b\x7b\x7d;DROP\x7d\x7d" = .ok d ∧ d.isWellFormed = true) ∧
      ∃ b, Block.parse "\x7bUNPAPAIR @x %x\x7d" = .ok b ∧ Block.isWellFormed b = true := by
  obtain ⟨c, hc⟩ : ∃ c, Contract.parseWithin (some 9)
      "parameter unit;storage unit;code \x7bPAPAIR %a\x7d" = .ok c := exists_of_isOk (by decide +kernel)
  obtain ⟨t, ht⟩ : ∃ t, Ty.parse "or (int %a) nat" = .ok t := exists_of_isOk (by decide +kernel)
  obtain ⟨d, hd⟩ : ∃ d, Data.parse "\x7bElt 1 \x7b\x7b\x7d;DROP\x7d\x7d" = .ok d :=
    exists_of_isOk (by decide +kernel)
  obtain ⟨b, hb⟩ : ∃ b, Block.parse "\x7bUNPAPAIR @x %x\x7d" = .ok b :=
    exists_of_isOk (by decide +kernel)
  exact ⟨⟨c, hc, parse_isWellFormed.1 _ _ c hc⟩, ⟨t, ht, parse_isWellFormed.2.1 _ t ht⟩,
    ⟨d, hd, parse_isWellFormed.2.2.1 _ d hd⟩, ⟨b, hb, parse_isWellFormed.2.2.2 _ b hb⟩⟩

end Michelson
