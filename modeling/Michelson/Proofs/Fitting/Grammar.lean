import Michelson.Proofs.Fitting.Names
import Michelson.Proofs.WellFormed

/-!
# Levels of the grammar

The rules for types, values, blocks and steps need the levels that are counted for what
they read, if no parenthesis opens. Parentheses are read by the rules themselves, and each
pair takes levels that no tree shows.

The alternatives that are tried in vain do not need more, though some of them nest: a block
that stands for a value is tried as a sequence before, whose values have fewer levels than
the steps that they are read from.

* `Track.Sized` is the judgement about a rule and the levels of what it reads.
* `Track.sized_type` is the statement about types, and `Track.Bare.sizedFrom` the one about
  values and blocks.
* `Track.sized_contractRule` is the statement about contracts.
-/

namespace Michelson

open Rule Grammar

/-! ## Counting -/

/-- A type has a level of its own. -/
theorem Ty.nesting_pos (t : Ty) : 1 ≤ t.nesting := by
  cases t <;> simp only [Ty.nesting] <;> omega

theorem Data.levels_pos (path : Nat) (d : Data) : 1 ≤ d.levels path := by
  cases d <;> simp only [Data.levels] <;> omega

theorem Op.levels_pos (path : Nat) (o : Op) : 1 ≤ o.levels path := by
  cases o <;> simp only [Op.levels] <;> omega

mutual

/-- A step that is no block is no item; a block is one, with its own levels. -/
theorem itemLevels_nestedValue (path : Nat) (o : Op) :
    itemLevels path (nestedValue o) ≤ o.levels path := by
  cases o with
  | seq b =>
    have hb := itemLevels_nestedValues path b
    rw [nestedValue]
    split <;> simp only [itemLevels, Data.levels, Op.levels] <;> omega
  | prim i | mac m => exact Nat.zero_le _

theorem itemLevels_nestedValues (path : Nat) (b : List Op) :
    itemLevels path (nestedValues b) ≤ stepLevels path b := by
  cases b with
  | nil => exact le_rfl
  | cons o os =>
    have ho := itemLevels_nestedValue path o
    have hos := itemLevels_nestedValues path os
    rw [nestedValues, stepLevels, itemLevels_le, List.forall_mem_append]
    exact ⟨itemLevels_le.mp (ho.trans (le_max_left _ _)),
      itemLevels_le.mp (hos.trans (le_max_right _ _))⟩

end

/-- A block has no more levels as a value than as a nested block. -/
theorem Data.levels_ofBlock_le (path : Nat) (b : Block) :
    (Data.ofBlock b).levels path ≤ (Op.seq b).levels path := by
  have hb := itemLevels_nestedValues path b
  rw [Data.ofBlock]
  split <;> simp only [Data.levels, Op.levels] <;> omega

/-- The levels of the fragment of a section. -/
def Part.levels : (part : Part) → part.Value → Nat
  | parameter, t => t.nesting
  | storage, t => t.nesting
  | code, b => Block.levels 1 b

/-- No section has more levels than the contract. -/
theorem Contract.part_levels_le (c : Contract) (part : Part) :
    part.levels (c.get part) ≤ c.levels 1 := by
  cases part <;> simp only [Part.levels, get, levels] <;> omega

namespace Track

variable {T : Track} {α : Type} {k j n : Nat}

/-- No parenthesis opens on the track. -/
def Bare (T : Track) : Prop := ∀ k, T.token? k ≠ some (.mark '(')

/-- What the rule reads at the place, it reads with the levels that are counted for it. -/
def Sized (T : Track) (r : Rule α) (levels : α → Nat) (k : Nat) : Prop :=
  T.Gives r k fun a _ => T.Fits r k (levels a)

/-- What the rule reads at the place, it reads with the levels that are counted for it,
unless a brace follows. -/
def SizedUnlessOpen (T : Track) (r : Rule α) (levels : α → Nat) (k : Nat) : Prop :=
  T.Gives r k fun a j => T.token? j ≠ some (.mark '{') → T.Fits r k (levels a)

theorem Sized.unlessOpen {r : Rule α} {levels : α → Nat} (h : T.Sized r levels k) :
    T.SizedUnlessOpen r levels k :=
  h.mono fun _ _ _ hfits _ => hfits

/-- A list in braces needs the most of what its items do. -/
theorem Braced.fits_of_sized {r : Rule α} {levels : α → Nat} {as : List α} (h : T.Braced r k as j)
    (hr : ∀ i, k < i → i ≤ T.length → T.SizedUnlessOpen r levels i)
    (hn : ∀ a ∈ as, levels a ≤ n) : T.Fits (braced r) k n := by
  refine h.fits fun a ha i i' hki hread hclose => ⟨?_, .inr ⟨a, hread⟩⟩
  have hnext : T.token? i' ≠ some (.mark '{') := by
    rcases hclose with heq | heq <;> rw [heq] <;> decide
  have hfits := hread.of_gives (hr i hki (hread.le.trans hread.le_length)) hnext
  exact hfits.mono (hn a ha)

/-- A rule that does not nest needs no levels. -/
theorem sized_of_flat {r : Rule α} {levels : α → Nat} (h : Flat r) (hr : T.Kept r)
    (hk : k ≤ T.length) : T.Sized r levels k :=
  (hr.gives hk).mono fun _ _ _ _ => fits_of_flat h k _

namespace Sized

variable {β γ : Type} {r : Rule α} {r' : Rule β} {q : α → Rule β} {levels : α → Nat}
  {levels' : β → Nat} {whole : γ → Nat}

/-- Behind notes the parts need what they need. -/
theorem after (hr : Flat r) (h : T.Kept r) (hk : k ≤ T.length)
    (hq : ∀ a i, k ≤ i → i ≤ T.length → T.Sized (q a) levels' i) : T.Sized (r >>= q) levels' k := by
  refine (h.gives hk).bind fun a i hki hi ha => (hq a i hki hi).mono fun b j _ hb => ?_
  exact (fits_of_flat hr k _).bind ha hb

/-- What is made of one part needs what the part does. -/
theorem map (hr : T.Sized r levels k) (h : T.Kept r) (hk : k ≤ T.length) (f : α → β)
    (hf : ∀ a, levels a ≤ levels' (f a)) : T.Sized (r >>= fun a => pure (f a)) levels' k := by
  refine (h.gives hk).bind fun a j _ hj ha => .pure hj ?_
  exact ((ha.of_gives hr).mono (hf a)).map f

/-- What is made of two parts needs what the parts do. -/
theorem both (hr : T.Sized r levels k) (h : T.Kept r) (hk : k ≤ T.length)
    (hr' : ∀ i, k ≤ i → i ≤ T.length → T.Sized r' levels' i) (h' : T.Kept r') (f : α → β → γ)
    (hf : ∀ a b, max (levels a) (levels' b) ≤ whole (f a b)) :
    T.Sized (do
      let a ← r
      let b ← r'
      pure (f a b)) whole k := by
  refine (h.gives hk).bind fun a i hki hi ha => (h'.gives hi).bind fun b j _ hj hb => .pure hj ?_
  have hfirst := (ha.of_gives hr).mono ((le_max_left _ _).trans (hf a b))
  have hsecond := (hb.of_gives (hr' i hki hi)).mono ((le_max_right _ _).trans (hf a b))
  exact hfirst.bind ha (hsecond.map (f a))

end Sized

/-! ## Types -/

theorem sized_comparable (hT : T.Bare) (hk : k ≤ T.length) :
    T.Sized Knot.full.comparable (fun _ => 1) k := by
  have H := handedFlat_flat
  refine (kept_comparable.gives hk).mono fun _ _ _ _ => ?_
  refine wraps_comparable.fits hk (hT k) (fits_of_flat ?_ k 0)
  exact H.next (H.headWord _ rfl) fun _ => H.next (H.noteSlot _) fun _ => H.pure _

/-- The parts of a type need a level less than the type. -/
theorem sized_components {note : Note .type} (head : Ty.Head) (hT : T.Bare) (hk : k ≤ T.length)
    (htype : ∀ i, k ≤ i → i ≤ T.length → ∀ b,
      T.Sized (Knot.full.type b) (fun x => x.2.nesting) i) :
    T.Sized (components Knot.full note head) (fun t => t.nesting - 1) k := by
  have hplain : ∀ i, k ≤ i → i ≤ T.length → T.Sized Knot.full.plainType Ty.nesting i :=
    fun i hki hi => (htype i hki hi false).map (kept_type false) hi _ fun _ => le_rfl
  have hfirst := hplain k le_rfl hk
  have hfield := htype k le_rfl hk true
  cases head with
  | atom a => exact .pure hk (fits_of_flat (handedFlat_flat.pure _) _ _)
  | option => exact hfield.map (kept_type true) hk _ fun _ => le_rfl
  | wrapped w => exact hfirst.map kept_plainType hk _ fun _ => le_rfl
  | set => exact (sized_comparable hT hk).map kept_comparable hk _ fun _ => le_rfl
  | joint side =>
    exact hfield.both (kept_type true) hk (fun i hki hi => htype i hki hi true) (kept_type true) _
      fun _ _ => le_rfl
  | lambda => exact hfirst.both kept_plainType hk hplain kept_plainType _ fun _ _ => le_rfl
  | table kind =>
    exact (sized_comparable hT hk).both kept_comparable hk hplain kept_plainType _ fun _ _ => le_rfl

theorem kept_nodeNotes (withField : Bool) : T.Kept (nodeNotes withField) :=
  kept_of_respected (R := fun _ => nodeNotes withField) fun _ _ _ C _ _ _ _ => C.nodeNotes withField

theorem kept_components (note : Note .type) (head : Ty.Head) :
    T.Kept (components Knot.full note head) :=
  kept_of_respected (R := fun g => components g note head) fun _ _ _ C _ _ _ h =>
    C.components h.type h.comparable note head

/-- What may stand in parentheses takes one level more than what stands there. -/
theorem Wraps.sized {r plain : Rule α} {levels : α → Nat} (h : Wraps r plain) (hr : T.Kept r)
    (hk : k ≤ T.length) (hopen : T.token? k ≠ some (.mark '(')) (hlevels : ∀ a, 1 ≤ levels a)
    (hplain : T.Sized plain (fun a => levels a - 1) k) : T.Sized r levels k := by
  refine (h.gives hr hk hplain).mono fun a j _ ha => ?_
  rcases ha with ⟨i, hopen', -⟩ | ⟨-, ha⟩
  · exact absurd hopen' hopen
  · exact (h.fits hk hopen ha).mono (Nat.sub_add_cancel (hlevels a)).le

/-- **Types** need as many levels as they nest. -/
theorem sized_type (hT : T.Bare) : ∀ k ≤ T.length, ∀ withField,
    T.Sized (Knot.full.type withField) (fun x => x.2.nesting) k := by
  have H := handedFlat_flat
  refine places_induction fun k hk ih withField => ?_
  refine (wraps_type withField).sized (kept_type withField) hk (hT k) (fun x => x.2.nesting_pos) ?_
  rw [headWord_eq]
  refine (gives_word hk).bind fun head i hki hi hw => ?_
  obtain ⟨w, ht, hw, rfl⟩ := hw
  refine ((kept_nodeNotes withField).gives hi).bind fun notes i' hii' hi' hnotes => ?_
  refine ((kept_components _ head).gives hi').bind fun t j _ hj hcomponents => .pure hj ?_
  have hfits := hcomponents.of_gives
    (sized_components head hT hi' fun i'' h hi'' => ih i'' (by omega) hi'')
  refine fits_word rfl ht hw ((fits_of_flat (H.nodeNotes withField) _ _).bind hnotes ?_)
  exact hfits.map _

/-- Leaving out the field note changes no levels. -/
theorem sized_plainType (hT : T.Bare) (hk : k ≤ T.length) :
    T.Sized Knot.full.plainType Ty.nesting k :=
  (sized_type hT k hk false).map (kept_type false) hk _ fun _ => le_rfl

/-! ## Values -/

/-- Values and blocks that are read from a place on need the levels that are counted for
them. -/
structure SizedFrom (T : Track) (k : Nat) : Prop where
  value (i : Nat) : k ≤ i → i ≤ T.length → T.Sized Knot.full.value (Data.levels 1) i
  block (i : Nat) : k ≤ i → i ≤ T.length → T.Sized Knot.full.block (Block.levels 1) i

/-- What holds from a place on holds from the places behind it. -/
theorem SizedFrom.mono (h : T.SizedFrom k) (hkj : k ≤ j) : T.SizedFrom j where
  value i hji := h.value i (hkj.trans hji)
  block i hji := h.block i (hkj.trans hji)

/-- The parts of a value stand behind its word. -/
theorem sized_dataParts (h : T.SizedFrom k) (hk : k ≤ T.length) (head : Data.Head) :
    T.Sized (dataParts Knot.full head) (fun d => d.levels 1 - 1) k := by
  have hfirst := h.value k le_rfl hk
  cases head with
  | constant c => exact .pure hk (fits_of_flat (handedFlat_flat.pure _) _ _)
  | wrapped w => exact hfirst.map kept_value hk _ fun _ => le_rfl
  | pair => exact hfirst.both kept_value hk h.value kept_value _ fun _ _ => le_rfl

theorem sized_entry (h : T.SizedFrom k) (hk : k ≤ T.length) :
    T.Sized (entry Knot.full) (Entry.levels 1) k := by
  refine (gives_keyword hk).bind fun _ i hki hi hword => ?_
  obtain ⟨ht, rfl⟩ := hword
  have hparts : T.Sized _ (Entry.levels 1) (k + 1) := (h.value (k + 1) hki hi).both kept_value hi
    (h.mono hki).value kept_value Entry.mk fun _ _ => le_rfl
  refine hparts.mono fun e j _ hfits => ?_
  exact (fits_of_flat (handedFlat_flat.keyword rfl) k _).bind (yields_keyword ht) hfits

/-- Where no entry begins, the rule for maps does not nest. -/
theorem fits_mapLiteral (hopen : T.token? k = some (.mark '{'))
    (hentry : T.token? (k + 1) ≠ some (.word "Elt".toList)) :
    T.Fits (mapLiteral Knot.full) k n := by
  have H := handedFlat_flat
  by_cases hend : T.token? (k + 1) = some (.mark '}')
  · have hempty : T.Braced (entry Knot.full) k [] (k + 2) := ⟨hopen, .inl ⟨rfl, hend, rfl⟩⟩
    refine (hempty.fits fun _ ha => absurd ha List.not_mem_nil).bind hempty.yields ?_
    exact fits_of_flat H.miss _ _
  · have hmiss := (misses_keyword (le_of_token? hopen) hentry)
    refine Fits.then_flat (fits_braced_of_item hopen hend (hmiss.bind _) ?_) fun es => ?_
    · exact (fits_of_flat (H.keyword rfl) _ n).bind_misses hmiss _
    · cases es with
      | nil => exact H.miss
      | cons e es => exact H.pure _

theorem fits_past_literals {t : Token} (ht : T.token? k = some t)
    (hi : ∃ what, readInteger (some t) = .refused what)
    (hs : ∃ what, readString (some t) = .refused what)
    (hb : ∃ what, readBytes (some t) = .refused what)
    (h : T.Fits (firstOf (codeLiteral Knot.full)
      [dataWord Knot.full, mapLiteral Knot.full, sequenceLiteral Knot.full]) k n) :
    T.Fits (plainValue Knot.full) k n := by
  have H := handedFlat_flat
  have hk : k ≤ T.length := (Nat.le_succ k).trans (le_of_token? ht)
  obtain ⟨hinteger, hstring, hbytes⟩ := misses_literals ht hi hs hb
  refine (fits_of_flat H.integerLiteral k n).firstOf_misses hinteger hk ?_
  refine (fits_of_flat H.stringLiteral k n).firstOf_misses hstring hk ?_
  exact (fits_of_flat H.bytesLiteral k n).firstOf_misses hbytes hk h

theorem fits_dataWord_of_misses (hk : k ≤ T.length) (h : ∀ w, T.token? k = some (.word w) →
    Data.Head.ofKeyword? (String.ofList w) = none) :
    T.Fits (dataWord Knot.full) k n ∧ T.Misses (dataWord Knot.full) k := by
  refine ⟨?_, misses_dataWord hk h⟩
  rw [dataWord_eq, headWord_eq]
  exact fits_word_of_misses rfl hk h

/-- Where no brace opens, one level is enough to find out that there is no block. -/
theorem fits_block_of_misses (hk : k ≤ T.length) (hopen : T.token? k ≠ some (.mark '{')) :
    T.Fits Knot.full.block k 1 := by
  rw [← blockRule_full, blockRule_eq]
  refine Fits.nested ((fits_of_flat (handedFlat_flat.marking fun _ => rfl) k 0).bind
    (yields_marking hk _) ?_)
  exact fits_braced hk hopen

/-- Where a word stands that begins no value, two levels are enough to find out: a value may
be a block. -/
theorem fits_value_of_word {w : List Char} (ht : T.token? k = some (.word w))
    (hw : Data.Head.ofKeyword? (String.ofList w) = none) : T.Fits Knot.full.value k 2 := by
  have hk : k ≤ T.length := (Nat.le_succ k).trans (le_of_token? ht)
  have hopen : T.token? k ≠ some (.mark '{') := by
    rw [ht]
    exact fun h => nomatch h
  obtain ⟨hfits, hmiss⟩ := fits_dataWord_of_misses (n := 1) hk fun w' ht' => by
    obtain rfl : w = w' := by simpa using ht.symm.trans ht'
    exact hw
  have H := handedFlat_flat
  have hmap : T.Fits (mapLiteral Knot.full) k 1 := (fits_braced hk hopen).bind_misses
    (misses_braced hk hopen) _
  have hsequence : T.Fits (sequenceLiteral Knot.full) k 1 := (fits_braced hk hopen).bind_misses
    (misses_braced hk hopen) _
  have hcode : T.Fits (codeLiteral Knot.full) k 1 :=
    (fits_block_of_misses hk hopen).map _
  refine wraps_value.fits hk (by rw [ht]; exact fun h => nomatch h) ?_
  refine fits_past_literals ht ⟨_, rfl⟩ ⟨_, rfl⟩ ⟨_, rfl⟩ (hfits.firstOf_misses hmiss hk ?_)
  refine hmap.firstOf_misses ((misses_braced hk hopen).bind _) hk ?_
  exact hsequence.firstOf_misses ((misses_braced hk hopen).bind _) hk hcode

/-- A literal does not nest. -/
theorem fits_literal {t : Token} {d : Data} (ht : T.token? k = some t)
    (hd : readInteger (some t) = .taken d ∨ readString (some t) = .taken d ∨
      readBytes (some t) = .taken d) : T.Fits (plainValue Knot.full) k n := by
  have H := handedFlat_flat
  have hk : k ≤ T.length := (Nat.le_succ k).trans (le_of_token? ht)
  have hmissInteger (h : ∃ what, readInteger (some t) = .refused what) :
      T.Misses integerLiteral k := by
    rw [integerLiteral_eq]
    exact misses_lexical lexical_integer hk (.inr (ht ▸ h))
  have hmissString (h : ∃ what, readString (some t) = .refused what) :
      T.Misses stringLiteral k := by
    rw [stringLiteral_eq]
    exact misses_lexical lexical_string hk (.inr (ht ▸ h))
  rcases hd with hd | hd | hd
  · have hread : T.Yields integerLiteral k d (k + 1) := by
      rw [integerLiteral_eq]
      exact yields_lexical lexical_integer ht hd
    exact (fits_of_flat H.integerLiteral k n).firstOf hread _ _
  · have hread : T.Yields stringLiteral k d (k + 1) := by
      rw [stringLiteral_eq]
      exact yields_lexical lexical_string ht hd
    -- the rules are tried in order, so the ones in front have to miss
    have hmiss : T.Misses integerLiteral k := by
      cases t with
      | string written => exact hmissInteger ⟨_, rfl⟩
      | _ => cases hd
    refine (fits_of_flat H.integerLiteral k n).firstOf_misses hmiss hk ?_
    exact (fits_of_flat H.stringLiteral k n).firstOf hread _ _
  · have hread : T.Yields bytesLiteral k d (k + 1) := by
      rw [bytesLiteral_eq]
      exact yields_lexical lexical_bytes ht hd
    have hmiss : T.Misses integerLiteral k ∧ T.Misses stringLiteral k := by
      cases t with
      | bytes digits => exact ⟨hmissInteger ⟨_, rfl⟩, hmissString ⟨_, rfl⟩⟩
      | _ => cases hd
    refine (fits_of_flat H.integerLiteral k n).firstOf_misses hmiss.1 hk ?_
    refine (fits_of_flat H.stringLiteral k n).firstOf_misses hmiss.2 hk ?_
    exact (fits_of_flat H.bytesLiteral k n).firstOf hread _ _

/-- No entry of a map begins where the first value of a sequence does. -/
theorem no_entry_of_sequence {ds : List Data} (h : T.Braced Knot.full.value k ds j) :
    T.token? (k + 1) ≠ some (.word "Elt".toList) := by
  intro ht
  obtain ⟨-, ⟨-, hend, -⟩ | ⟨-, hitems⟩⟩ := h
  · cases ht.symm.trans hend
  · have hfirst : ∃ d i, T.Yields Knot.full.value (k + 1) d i := by
      cases hitems with
      | last h _ | lastSemicolon h _ _ | more h _ _ _ => exact ⟨_, _, h⟩
    obtain ⟨d, i, hd⟩ := hfirst
    exact hd.not_misses (misses_value_of_word ht (by decide))

/-- A block needs what it has levels, if its steps do. -/
theorem fits_sequence_of_block (h : T.SizedFrom (k + 1)) {b : Block}
    (hb : T.Braced (step Knot.full) k b j) :
    T.Fits (braced Knot.full.value) k (stepLevels 1 b + 1) := by
  refine hb.fits fun o ho i i' hki hstep hclose => ?_
  have hle : o.levels 1 ≤ stepLevels 1 b := stepLevels_le.mp le_rfl o ho
  have hi := hstep.le.trans hstep.le_length
  rcases (hstep.of_gives (gives_step hi)).cases with ⟨b', rfl, hb'⟩ | ⟨-, w, ht, hw, -⟩
  · have hvalue := yields_value_of_block hb'
    have hlevels := Data.levels_ofBlock_le 1 b'
    exact ⟨(hvalue.of_gives (h.value i hki hi)).mono (by omega), .inr ⟨_, hvalue⟩⟩
  · have hpos := o.levels_pos 1
    exact ⟨(fits_value_of_word ht hw).mono (by omega), .inl (misses_value_of_word ht hw)⟩

theorem kept_plainValue : T.Kept (plainValue Knot.full) :=
  kept_of_respected fun _ _ _ C _ _ _ h => C.plainValue (C.later h.value) h.block

/-- Where a brace opens, no literal and no word is read. -/
theorem fits_plainValue_of_braces (hopen : T.token? k = some (.mark '{'))
    (h : T.Fits (firstOf (codeLiteral Knot.full)
      [mapLiteral Knot.full, sequenceLiteral Knot.full]) k n) :
    T.Fits (plainValue Knot.full) k n := by
  have hk : k ≤ T.length := (Nat.le_succ k).trans (le_of_token? hopen)
  obtain ⟨hfits, hmiss⟩ := fits_dataWord_of_misses (n := n) hk fun w ht => by
    cases hopen.symm.trans ht
  exact fits_past_literals hopen ⟨_, rfl⟩ ⟨_, rfl⟩ ⟨_, rfl⟩ (hfits.firstOf_misses hmiss hk h)

/-- Where no entry begins, the rule for maps is tried in vain. -/
theorem fits_plainValue_past_maps (hopen : T.token? k = some (.mark '{'))
    (hentry : T.token? (k + 1) ≠ some (.word "Elt".toList))
    (h : T.Fits (firstOf (codeLiteral Knot.full) [sequenceLiteral Knot.full]) k n) :
    T.Fits (plainValue Knot.full) k n := by
  have hk : k ≤ T.length := (Nat.le_succ k).trans (le_of_token? hopen)
  exact fits_plainValue_of_braces hopen
    ((fits_mapLiteral hopen hentry).firstOf_misses (misses_mapLiteral hopen hentry) hk h)

/-- Entries of a map are tried after literals and words, which need no levels in front of a brace.
-/
theorem fits_plainValue_of_entries (h : T.SizedFrom (k + 1)) {es : List Entry} (hne : es ≠ [])
    (hes : T.Braced (entry Knot.full) k es j) :
    T.Fits (plainValue Knot.full) k (entryLevels 1 es) := by
  have hbraced : T.Fits (braced (entry Knot.full)) k (entryLevels 1 es) :=
    hes.fits_of_sized (fun i hki hi => (sized_entry (h.mono hki) hi).unlessOpen)
      (entryLevels_le.mp le_rfl)
  have hfits : T.Fits (mapLiteral Knot.full) k (entryLevels 1 es) := by
    refine hbraced.then_flat fun es => ?_
    cases es with
    | nil => exact handedFlat_flat.miss
    | cons e es => exact handedFlat_flat.pure _
  have hread : T.Yields (mapLiteral Knot.full) k (.map es) j := by
    refine hes.yields.bind ?_
    cases es with
    | nil => exact absurd rfl hne
    | cons e es => exact yields_pure hes.yields.le_length _
  exact fits_plainValue_of_braces hes.1 (hfits.firstOf hread _ _)

theorem fits_plainValue_of_values (h : T.SizedFrom (k + 1)) {ds : List Data}
    (hds : T.Braced Knot.full.value k ds j) :
    T.Fits (plainValue Knot.full) k (itemLevels 1 ds) := by
  have hbraced : T.Fits (braced Knot.full.value) k (itemLevels 1 ds) :=
    hds.fits_of_sized (fun i hki hi => (h.value i hki hi).unlessOpen) (itemLevels_le.mp le_rfl)
  have hread : T.Yields (sequenceLiteral Knot.full) k (.seq ds) j := hds.yields.map _
  exact fits_plainValue_past_maps hds.1 (no_entry_of_sequence hds)
    (Fits.firstOf (hbraced.map _) hread _ _)

/-- A block that stands for a value is tried as a sequence before, and in vain. -/
theorem fits_plainValue_of_block (h : T.SizedFrom (k + 1)) {b : Block}
    (hown : Block.hasOwnStep b = true) (hb : T.Braced (step Knot.full) k b j)
    (hfits : T.Fits Knot.full.block k (Block.levels 1 b)) :
    T.Fits (plainValue Knot.full) k (Block.levels 1 b) := by
  have hmiss := misses_sequence_of_block hb hown fun _ _ _ _ hb => yields_value_of_block hb
  have hk : k ≤ T.length := (Nat.le_succ k).trans (le_of_token? hb.1)
  exact fits_plainValue_past_maps hb.1 (no_entry_of_block hb)
    (Fits.firstOf_misses ((fits_sequence_of_block h hb).map _) (hmiss.bind _) hk (hfits.map _))

/-- A value without parentheses needs a level less than the value. -/
theorem sized_plainValue (hT : T.Bare) (h : T.SizedFrom (k + 1)) (hk : k ≤ T.length)
    (hblock : T.Sized Knot.full.block (Block.levels 1) k) :
    T.Sized (plainValue Knot.full) (fun d => d.levels 1 - 1) k := by
  refine (kept_plainValue.gives hk).mono fun d j _ hd => ?_
  cases hd.of_gives (gives_plainValue hk) with
  | literal ht htaken => exact fits_literal ht htaken
  | @word w head _ _ ht hw hparts =>
    have hfits := hparts.of_gives (sized_dataParts h (le_of_token? ht) head)
    refine fits_past_literals ht ⟨_, rfl⟩ ⟨_, rfl⟩ ⟨_, rfl⟩ ?_
    rw [dataWord_eq, headWord_eq]
    exact (fits_word rfl ht hw hfits).firstOf ((yields_word ht hw).bind hparts) _ _
  | map hne hes => exact fits_plainValue_of_entries h hne hes
  | seq hds => exact fits_plainValue_of_values h hds
  | @code b _ hb =>
    have hown := hasOwnStep_of_yields hb (wraps_value.yields (hT k) hd)
    exact fits_plainValue_of_block h hown (hb.of_gives (gives_block hk)) (hb.of_gives hblock)

theorem sized_value (hT : T.Bare) (h : T.SizedFrom (k + 1)) (hk : k ≤ T.length)
    (hblock : T.Sized Knot.full.block (Block.levels 1) k) :
    T.Sized Knot.full.value (Data.levels 1) k :=
  wraps_value.sized kept_value hk (hT k) (Data.levels_pos 1) (sized_plainValue hT h hk hblock)

/-! ## Contracts -/

theorem sized_fragmentRule (hT : T.Bare) (h : T.SizedFrom k) (hk : k ≤ T.length) (part : Part) :
    T.Sized (fragmentRule Knot.full part) part.levels k := by
  cases part with
  | parameter | storage => exact sized_plainType hT hk
  | code => exact h.block k le_rfl hk

/-- A section needs what its fragment does. -/
theorem sized_sectionRule (hT : T.Bare) (h : T.SizedFrom k) (hk : k ≤ T.length) (part : Part) :
    T.Sized (sectionRule Knot.full part) part.levels k := by
  have H := handedFlat_flat
  refine (gives_sectionRule hk).mono fun v j _ hv => ?_
  obtain ⟨hkey, i, hi, -⟩ := hv
  have hk' := le_of_token? hkey
  have hfragment := hi.of_gives (sized_fragmentRule hT (h.mono (Nat.le_succ k)) hk' part)
  have hkeyword {m : Nat} : T.Fits (Rule.keyword part.keyword) k m :=
    fits_of_flat (H.keyword (isOfGrammar_keyword part)) k m
  have hmark {m : Nat} : T.Fits (Rule.marking (.part part)) (k + 1) m :=
    fits_of_flat (H.marking fun _ => rfl) (k + 1) m
  cases part with
  | parameter | storage =>
    rw [sectionRule, typeSection_eq]
    refine hkeyword.bind (yields_keyword hkey) (hmark.bind (yields_marking hk' _) ?_)
    exact hfragment.then_flat fun _ => H.next (H.symbol rfl) fun _ => H.pure _
  | code =>
    rw [sectionRule, codeSection_eq]
    refine hkeyword.bind (yields_keyword hkey) (hmark.bind (yields_marking hk' _) ?_)
    exact hfragment.then_flat fun _ => H.next (H.optional (H.symbol rfl)) fun _ => H.pure _

/-- Where the keyword of a section does not stand, its rule does not nest. -/
theorem fits_sectionRule_of_misses (hk : k ≤ T.length) {part : Part}
    (h : T.token? k ≠ some (.word part.keyword.toList)) :
    T.Fits (sectionRule Knot.full part) k n := by
  have hkeyword : T.Fits (Rule.keyword part.keyword) k n :=
    fits_of_flat (handedFlat_flat.keyword (isOfGrammar_keyword part)) k n
  cases part with
  | parameter | storage | code => exact hkeyword.bind_misses (misses_keyword hk h) _

/-- If a group reads all sections, it needs what their fragments do. -/
theorem Rounds.fits_sections {is : List Part} {x y : Sections} {levels : Nat}
    (h : T.Rounds (sectionMember Knot.full) is k x y j) (hT : T.Bare) (hfrom : T.SizedFrom k)
    (hk : k ≤ T.length) (his : is.Nodup) (hx : ∀ part ∈ is, x.get part = none)
    (hy : ∀ part, ∃ v, y.get part = some v ∧ part.levels v ≤ levels) :
    ∀ rounds, is.length ≤ rounds →
      T.Fits (groupWithin rounds (is.map (sectionMember Knot.full)) x) k levels := by
  have H := handedFlat_flat
  induction h with
  | @stop is k x _ =>
    intro rounds _
    -- no section is left over, for all have been read
    obtain rfl : is = [] := List.eq_nil_iff_forall_not_mem.mpr fun part hpart => by
      obtain ⟨v, hv, -⟩ := hy part
      cases (hx part hpart).symm.trans hv
    exact fits_of_flat (H.groupWithin rounds (fun _ h => absurd h List.not_mem_nil) x) k _
  | @round before after part k p j u x y hbefore hread hmore ih =>
    intro rounds hrounds
    rw [List.length_append, List.length_cons] at hrounds
    obtain ⟨rounds, rfl⟩ : ∃ n, rounds = n + 1 := ⟨rounds - 1, by omega⟩
    have hpass := passing_sectionMember part _ _ _ hread
    obtain ⟨v, rfl, hv⟩ := hread.of_gives (((kept_sectionRule part).gives hk).slot _)
    obtain ⟨hpart, his⟩ : part ∉ before ++ after ∧ (before ++ after).Nodup := by
      simpa using (List.perm_middle.nodup_iff.mp his)
    have hlevels : part.levels v ≤ levels := by
      obtain ⟨v', hv', hle⟩ := hy part
      rw [hmore.get_eq hpart, Sections.get_put] at hv'
      exact Option.some.inj hv' ▸ hle
    have hkey := (hv.of_gives (gives_sectionRule hk)).1
    have hmembers : ∀ b ∈ before, T.Misses (sectionMember Knot.full b) k ∧
        T.Fits (sectionMember Knot.full b) k levels := by
      intro b hb
      refine ⟨hbefore b hb, Fits.then_flat (fits_sectionRule_of_misses hk fun hother => ?_)
        fun _ => H.pure _⟩
      have hne : b ≠ part := fun heq => hpart (List.mem_append_left after (heq ▸ hb))
      have hword := hkey.symm.trans hother
      revert hne hword
      cases b <;> cases part <;> decide
    have hfits := (hv.of_gives (sized_sectionRule hT hfrom hk part)).mono hlevels
    refine (fits_firstAdvancing hpass hmembers hread (hfits.map _)).bind
      (yields_firstAdvancing_some hpass hbefore hread) ?_
    refine ih (hfrom.mono hpass.le) hread.le_length his (fun b hb => ?_) hy rounds ?_
    · have hne : b ≠ part := fun heq => hpart (heq ▸ hb)
      rw [Sections.get_put_of_ne x hne]
      refine hx b ?_
      rcases List.mem_append.mp hb with hb | hb
      · exact List.mem_append_left _ hb
      · exact List.mem_append_right _ (List.mem_cons_of_mem _ hb)
    · rw [List.length_append]
      omega

/-- **Contracts** need what their sections do. -/
theorem sized_contractRule (hT : T.Bare) (h : T.SizedFrom k) (hk : k ≤ T.length) :
    T.Sized (contractRule Knot.full) (Contract.levels 1) k := by
  have H := handedFlat_flat
  refine (gives_contractRule hk).mono fun c j _ hc => ?_
  obtain ⟨s, hrounds, hget⟩ := hc
  have hfits := hrounds.fits_sections hT h hk (by decide) (fun part _ => by cases part <;> rfl)
    (fun part => ⟨_, hget part, c.part_levels_le part⟩) 3 le_rfl
  rw [contractRule_eq]
  refine Fits.then_flat hfits fun s => ?_
  have hrequire {α : Type} (part : Part) (a? : Option α) : Flat (require part a?) := by
    cases a? with
    | some a => exact H.pure a
    | none => exact H.fail (isOfGrammar_keyword part)
  exact H.next (hrequire _ _) fun _ => H.next (hrequire _ _) fun _ => H.next (hrequire _ _) fun _ =>
    H.pure _

/-! ## Code -/

theorem kept_varFieldNotes : T.Kept varFieldNotes :=
  kept_of_respected (R := fun _ => varFieldNotes) fun _ _ _ C _ _ _ _ => C.varFieldNotes

theorem kept_typeVarNotes : T.Kept typeVarNotes :=
  kept_of_respected (R := fun _ => typeVarNotes) fun _ _ _ C _ _ _ _ => C.typeVarNotes

theorem kept_typeVarFieldNotes : T.Kept typeVarFieldNotes :=
  kept_of_respected (R := fun _ => typeVarFieldNotes) fun _ _ _ C _ _ _ _ => C.typeVarFieldNotes

theorem kept_typeVarFieldsNotes : T.Kept typeVarFieldsNotes :=
  kept_of_respected (R := fun _ => typeVarFieldsNotes) fun _ _ _ C _ _ _ _ => C.typeVarFieldsNotes

theorem kept_contractRule : T.Kept (contractRule Knot.full) :=
  kept_of_respected respected_contractRule

theorem kept_twoBlocks : T.Kept (twoBlocks Knot.full) :=
  kept_of_respected fun _ _ _ C _ _ _ h => C.twoBlocks h.block

theorem sized_twoBlocks (h : T.SizedFrom k) (hk : k ≤ T.length) :
    T.Sized (twoBlocks Knot.full) (fun b => max (Block.levels 1 b.1) (Block.levels 1 b.2)) k :=
  (h.block k le_rfl hk).both kept_block hk h.block kept_block Prod.mk fun _ _ => le_rfl

theorem sized_enclosedContract (hT : T.Bare) (h : T.SizedFrom k) (hk : k ≤ T.length) :
    T.Sized (enclosed (contractRule Knot.full)) (Contract.levels 1) k := by
  have H := handedFlat_flat
  refine Sized.after (H.symbol rfl) (kept_symbol (by decide)) hk fun _ i hki hi => ?_
  refine (kept_contractRule.gives hi).bind fun c i' _ hi' hc => ?_
  refine ((kept_symbol (by decide)).gives hi').bind fun _ j _ hj _ => .pure hj ?_
  have hfits := hc.of_gives (sized_contractRule hT (h.mono hki) hi)
  exact hfits.then_flat fun _ => H.next (H.symbol rfl) fun _ => H.pure _

/-- A contract in braces needs what the contract does. Where a brace opens something else,
the contract is tried in vain, and then the brace is left to what follows. -/
theorem sizedUnlessOpen_bracedContract (hT : T.Bare) (h : T.SizedFrom k) (hk : k ≤ T.length) :
    T.SizedUnlessOpen (bracedContract Knot.full)
      (fun c? => (c?.map (Contract.levels 1)).getD 0) k := by
  refine ((kept_enclosedContract.gives hk).optional kept_enclosedContract hk).mono
    fun c? j _ hc hnext => Fits.optional ?_
  rcases hc with ⟨c, rfl, hread⟩ | ⟨rfl, rfl, -⟩
  · exact hread.of_gives (sized_enclosedContract hT h hk)
  · have hflat : T.Fits (symbol '{') j 0 := fits_of_flat (handedFlat_flat.symbol rfl) j 0
    exact hflat.bind_misses (misses_symbol (by decide) hk hnext) _

/-- Instructions that originate no contract need what their parts do. -/
theorem sized_arguments (hT : T.Bare) (h : T.SizedFrom k) (hk : k ≤ T.length) {head : Instr.Head}
    (hhead : head ≠ .createContract) :
    T.Sized (arguments Knot.full head) (Instr.levels 1) k := by
  have H := handedFlat_flat
  have hflat (hr : Flat (arguments Knot.full head)) :
      T.Sized (arguments Knot.full head) (Instr.levels 1) k :=
    sized_of_flat hr (kept_arguments head) hk
  have hslot {σ : Sigil} {q : Note σ → Rule Instr} (hq : ∀ n i, k ≤ i → i ≤ T.length →
      T.Sized (q n) (Instr.levels 1) i) : T.Sized (noteSlot σ >>= q) (Instr.levels 1) k :=
    .after (H.noteSlot σ) (kept_noteSlot σ) hk hq
  -- one type behind notes
  have htype {i : Nat} (hi : i ≤ T.length) (f : Ty → Instr)
      (hf : ∀ t, t.nesting ≤ (f t).levels 1) :
      T.Sized (Knot.full.plainType >>= fun t => pure (f t)) (Instr.levels 1) i :=
    (sized_plainType hT hi).map kept_plainType hi f hf
  cases head with
  | plain name => exact hflat (H.pure _)
  | noted name => exact hflat (H.next (H.noteSlot _) fun _ => H.pure _)
  | typed name => exact hslot fun v i _ hi => htype hi _ fun _ => le_rfl
  | branch name => exact (sized_twoBlocks h hk).map kept_twoBlocks hk _ fun _ => le_rfl
  | enclosing name => exact (h.block k le_rfl hk).map kept_block hk _ fun _ => le_rfl
  | traversal name =>
    exact hslot fun v i hki hi => (h.block i hki hi).map kept_block hi _ fun _ => le_rfl
  | project side => exact hflat (H.next H.varFieldNotes fun _ => H.pure _)
  | inject side =>
    exact .after H.typeVarFieldsNotes kept_typeVarFieldsNotes hk fun n i _ hi =>
      htype hi _ fun _ => le_rfl
  | push =>
    exact hslot fun v i hki hi => (sized_plainType hT hi).both kept_plainType hi
      (h.mono hki).value kept_value _ fun _ _ => le_rfl
  | some => exact hflat (H.next H.typeVarFieldNotes fun _ => H.pure _)
  | none =>
    exact .after H.typeVarFieldNotes kept_typeVarFieldNotes hk fun n i _ hi =>
      htype hi _ fun _ => le_rfl
  | unit => exact hflat (H.next H.typeVarNotes fun _ => H.pure _)
  | pair => exact hflat (H.next H.typeVarFieldsNotes fun _ => H.pure _)
  | nil =>
    exact .after H.typeVarNotes kept_typeVarNotes hk fun n i _ hi => htype hi _ fun _ => le_rfl
  | emptySet =>
    exact .after H.typeVarNotes kept_typeVarNotes hk fun n i _ hi =>
      (sized_comparable hT hi).map kept_comparable hi _ fun _ => le_rfl
  | emptyMap =>
    exact .after H.typeVarNotes kept_typeVarNotes hk fun n i _ hi =>
      (sized_comparable hT hi).both kept_comparable hi (fun _ _ => sized_plainType hT)
        kept_plainType _ fun _ _ => le_rfl
  | lambda =>
    refine hslot fun v i hki hi => ?_
    refine (kept_plainType.gives hi).bind fun d i' hii' hi' hd => ?_
    refine (kept_plainType.gives hi').bind fun c l hil hl hc => ?_
    refine (kept_block.gives hl).bind fun b j _ hj hb => .pure hj ?_
    have hd' := hd.of_gives (sized_plainType hT hi)
    have hc' := hc.of_gives (sized_plainType hT hi')
    have hb' := hb.of_gives (h.block l (by omega) hl)
    refine (hd'.mono ?_).bind hd ((hc'.mono ?_).bind hc ((hb'.mono ?_).map _)) <;>
      (simp only [Instr.levels, Block.levels]; omega)
  | createAccount =>
    exact hflat (H.next (H.noteSlot _) fun _ => H.next (H.noteSlot _) fun _ => H.pure _)
  | createContract => exact absurd rfl hhead

/-- **Instructions** need what their parts do, unless a brace follows. -/
theorem sizedUnlessOpen_arguments (hT : T.Bare) (h : T.SizedFrom k) (hk : k ≤ T.length)
    (head : Instr.Head) : T.SizedUnlessOpen (arguments Knot.full head) (Instr.levels 1) k := by
  have H := handedFlat_flat
  by_cases hhead : head ≠ .createContract
  · exact (sized_arguments hT h hk hhead).unlessOpen
  obtain rfl := not_not.mp hhead
  refine ((kept_noteSlot .var).gives hk).bind fun v i hki hi hv => ?_
  refine ((kept_noteSlot .var).gives hi).bind fun w i' hii' hi' hw => ?_
  have hslots {m : Nat} {q : Note .var → Note .var → Rule Instr} (hq : T.Fits (q v w) i' m) :
      T.Fits (noteSlot .var >>= fun v => noteSlot .var >>= q v) k m :=
    (fits_of_flat (H.noteSlot _) k m).bind hv ((fits_of_flat (H.noteSlot _) i m).bind hw hq)
  have hcontract := sizedUnlessOpen_bracedContract hT (h.mono (hki.trans hii')) hi'
  refine hcontract.bind fun c? j _ hj hfits => ?_
  cases c? with
  | none | some c =>
    refine .pure hj fun hnext => hslots ((hfits hnext).then_flat fun c? => ?_)
    cases c? <;> exact H.pure _

/-- A macro has the levels of its name. -/
theorem gives_nameLevels (n : MacroName) (hk : k ≤ T.length) :
    T.Gives (macroArguments Knot.full n) k fun m _ => n.levels 1 ≤ m.levels 1 := by
  cases n with
  | pairUp shape =>
    refine (gives_pairNotes hk).bind fun notes j _ hj _ => .pure hj ?_
    exact (PairTree.height_withLeafNotes _ _).ge
  | unpair shape =>
    refine (gives_leafNotes hk).bind fun notes j _ hj _ => .pure hj ?_
    exact (PairTree.height_withLeafNotes _ _).ge
  | getPath path | setPath path =>
    exact (kept_varFieldNotes.gives hk).bind fun notes j _ hj _ => .pure hj le_rfl
  | mapPath path =>
    refine (kept_varFieldNotes.gives hk).bind fun notes i _ hi _ => ?_
    exact (kept_block.gives hi).bind fun b j _ hj _ => .pure hj (le_max_left _ _)
  | _ => exact ((kept_macroArguments _).gives hk).mono fun m j _ _ => Nat.zero_le _

/-- Macros need what their parts do. -/
theorem sized_macroArguments (h : T.SizedFrom k) (hk : k ≤ T.length) (n : MacroName) :
    T.Sized (macroArguments Knot.full n) (Macro.levels 1) k := by
  have H := handedFlat_flat
  have hflat (hr : Flat (macroArguments Knot.full n)) :
      T.Sized (macroArguments Knot.full n) (Macro.levels 1) k :=
    sized_of_flat hr (kept_macroArguments n) hk
  have hblocks {i : Nat} (hki : k ≤ i) (hi : i ≤ T.length) (f : Block × Block → Macro)
      (hf : ∀ b, max (Block.levels 1 b.1) (Block.levels 1 b.2) ≤ (f b).levels 1) :
      T.Sized (twoBlocks Knot.full >>= fun b => pure (f b)) (Macro.levels 1) i :=
    (sized_twoBlocks (h.mono hki) hi).map kept_twoBlocks hi f hf
  cases n with
  | fixed name => exact hflat (H.pure _)
  | compare c => exact hflat (H.next (H.noteSlot _) fun _ => H.pure _)
  | ifCompared c => exact hblocks le_rfl hk _ fun _ => le_rfl
  | ifCompare c =>
    exact .after (H.noteSlot _) (kept_noteSlot _) hk fun v i hki hi =>
      hblocks hki hi _ fun _ => le_rfl
  | ifSome => exact hblocks le_rfl hk _ fun _ => le_rfl
  | assertCompared c => exact hflat (H.pure _)
  | assertCompare c => exact hflat (H.pure _)
  | dipDeep depth => exact (h.block k le_rfl hk).map kept_block hk _ fun _ => le_rfl
  | dupDeep depth => exact hflat (H.next (H.noteSlot _) fun _ => H.pure _)
  | pairUp shape => exact hflat (H.next H.pairNotes fun _ => H.pure _)
  | unpair shape => exact hflat (H.next H.leafNotes fun _ => H.pure _)
  | getPath path | setPath path => exact hflat (H.next H.varFieldNotes fun _ => H.pure _)
  | mapPath path =>
    exact .after H.varFieldNotes kept_varFieldNotes hk fun notes i hki hi =>
      (h.block i hki hi).map kept_block hi _ fun _ => le_max_right _ _

/-! ## Steps and blocks -/

/-- What is left to the macros is the mnemonic of no instruction. -/
theorem ofMnemonic?_of_misses {w : List Char} {n : MacroName} (ht : T.token? k = some (.word w))
    (hn : n.Spelled w) (hmiss : T.Misses (instruction Knot.full) k) (w' : List Char)
    (ht' : T.token? k = some (.word w')) : Instr.Head.ofMnemonic? (String.ofList w') = none := by
  obtain rfl : w = w' := by simpa using ht.symm.trans ht'
  refine hn.ofMnemonic?_eq_none fun t heq => ?_
  subst heq
  refine hn.three_le_leafCount ?_
  rintro rfl
  exact not_misses_pair ht hmiss

/-- Where the mnemonic of no instruction stands, the rule for instructions does not nest. -/
theorem fits_instructionStep_of_misses (hk : k ≤ T.length) (h : ∀ w, T.token? k = some (.word w) →
    Instr.Head.ofMnemonic? (String.ofList w) = none) : T.Fits (instructionStep Knot.full) k n := by
  have hfits : T.Fits (instruction Knot.full) k n := by
    rw [instruction_eq, mnemonicWord_eq]
    exact (fits_word_of_misses rfl hk h).attempt
  exact hfits.map _

/-- **Steps** need what they have levels, unless a brace follows. -/
theorem sizedUnlessOpen_step (hT : T.Bare) (h : T.SizedFrom (k + 1)) (hk : k ≤ T.length)
    (hblock : T.Sized Knot.full.block (Block.levels 1) k) :
    T.SizedUnlessOpen (step Knot.full) (Op.levels 1) k := by
  refine (gives_step hk).mono fun o j _ ho hnext => ?_
  cases ho with
  | @prim w head i _ ht hw harguments =>
    have hi := le_of_token? ht
    have hparts := harguments.of_gives (sizedUnlessOpen_arguments hT h hi head) hnext
    have hfits : T.Fits (instruction Knot.full) k (i.levels 1) := by
      rw [instruction_eq, mnemonicWord_eq]
      exact (fits_word rfl ht hw hparts).attempt
    have hread : T.Yields (instruction Knot.full) k i j := by
      rw [instruction_eq, mnemonicWord_eq]
      exact ((yields_word ht hw).bind harguments).attempt
    exact ((hfits.map _).firstOf (hread.map _) _ _).nested
  | @mac w n m _ ht hn harguments hmiss =>
    have hi := le_of_token? ht
    have hfits : T.Fits (macroRule Knot.full) k (m.levels 1) :=
      fits_macroRule ht hn (harguments.of_gives (gives_nameLevels n hi)) harguments
        (harguments.of_gives (sized_macroArguments h hi n))
    -- no mnemonic stands there, so the rule for instructions passes nothing
    have hinstruction := fits_instructionStep_of_misses hk (n := m.levels 1)
      (ofMnemonic?_of_misses ht hn hmiss)
    refine Fits.nested (hinstruction.firstOf_misses (hmiss.bind _) hk ?_)
    exact (hfits.map _).firstOf ((yields_macroRule ht hn harguments).map _) _ _
  | @seq b _ hb =>
    have hopen := (hb.of_gives (gives_block hk)).1
    -- the two rules in front of the one for blocks want a word
    have hno : ∀ w, T.token? k ≠ some (.word w) := fun w ht => nomatch hopen.symm.trans ht
    have hinstruction := fits_instructionStep_of_misses hk (n := Block.levels 1 b)
      fun w ht => absurd ht (hno w)
    have hnames := (fits_macroRule_of_mark hopen).mono (Nat.le_add_left 1 (stepLevels 1 b))
    refine Fits.nested (hinstruction.firstOf_misses
      ((misses_instruction hk fun w ht => absurd ht (hno w)).bind _) hk ?_)
    refine (hnames.map _).firstOf_misses ((misses_macroRule hk hno).bind _) hk ?_
    exact (hb.of_gives hblock).map _

/-- **Blocks** need what they have levels, if their steps do. -/
theorem sized_block (hT : T.Bare) (h : T.SizedFrom (k + 1)) (hk : k ≤ T.length) :
    T.Sized Knot.full.block (Block.levels 1) k := by
  refine (gives_block hk).mono fun b j _ hb => ?_
  have hsteps : T.Fits (braced (step Knot.full)) k (stepLevels 1 b) :=
    hb.fits_of_sized (fun i hki hi => sizedUnlessOpen_step hT (h.mono (by omega)) hi
      (h.block i hki hi)) (stepLevels_le.mp le_rfl)
  rw [← blockRule_full, blockRule_eq]
  exact Fits.nested ((fits_of_flat (handedFlat_flat.marking fun _ => rfl) k _).bind
    (yields_marking hk _) hsteps)

/-- **Values and code** need what they have levels, all of it. -/
theorem Bare.sizedFrom (hT : T.Bare) : T.SizedFrom 0 := by
  have hall : ∀ k ≤ T.length, T.Sized Knot.full.value (Data.levels 1) k ∧
      T.Sized Knot.full.block (Block.levels 1) k := by
    refine places_induction fun k hk ih => ?_
    have hfrom : T.SizedFrom (k + 1) :=
      ⟨fun i hki hi => (ih i hki hi).1, fun i hki hi => (ih i hki hi).2⟩
    have hblock := sized_block hT hfrom hk
    exact ⟨sized_value hT hfrom hk hblock, hblock⟩
  exact ⟨fun i _ hi => (hall i hi).1, fun i _ hi => (hall i hi).2⟩

end Track

end Michelson
