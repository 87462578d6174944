import Michelson.Proofs.Written.Code

/-!
# Written trees

Values and code nest in each other, and so do the statements that they are read back:
`written_data`, `written_op` and those about their parts. From them follows
`written_contract`, for what is written for a contract.
-/

namespace Michelson

open Rule Grammar

/-! ## Beginnings -/

/-- A written value begins with a token that cannot continue a note or a word in front of it. -/
theorem Data.opens_tokens (d : Data) {s : Style} : Opens (d.tokens s) := by
  cases d <;> exact .around rfl _ s

theorem Entry.opens_tokens (e : Entry) {s : Style} : Opens (e.tokens s) := by
  cases e
  exact ⟨_, _, rfl, rfl⟩

theorem Instr.opens_tokens (i : Instr) {s : Style} : Opens (i.tokens s) := by
  cases i <;> exact ⟨_, _, rfl, rfl⟩

theorem Macro.opens_tokens (m : Macro) {s : Style} : Opens (m.tokens s) := by
  cases m <;> exact ⟨_, _, rfl, rfl⟩

/-- A written step begins with its word or its brace. -/
theorem Op.opens_tokens (o : Op) {s : Style} : Opens (o.tokens s) := by
  cases o with
  | prim i => exact i.opens_tokens
  | mac m => exact m.opens_tokens
  | seq b => exact .braced s _

/-- With or without parentheses, what is written begins with its own word or a parenthesis. -/
theorem Style.head?_around_ne {s : Style} {t : Token} {name : String} (ht : t ≠ .ofWord name)
    (ts : List Token) : (s.around (t :: ts)).head? ≠ some (.ofWord name) := by
  rw [around]
  cases s.parentheses [] with
  | zero => exact fun h => ht (Option.some.inj h)
  | succ n => rintro ⟨⟩

/-- No value begins like an entry of a map. -/
theorem Data.head?_tokens_ne (d : Data) {s : Style} :
    (d.tokens s).head? ≠ some (.ofWord "Elt") := by
  cases d with
  | constant c => exact Style.head?_around_ne (by cases c <;> decide) _
  | wrapped w d => exact Style.head?_around_ne (by cases w <;> decide) _
  | pair l r => exact Style.head?_around_ne (by decide) _
  | int | string | bytes | seq | map | code => exact Style.head?_around_ne (by rintro ⟨⟩) _

/-- So the items of a sequence are not taken for the entries of a map. -/
theorem head?_itemTokens_ne (ds : List Data) {s : Style} :
    ∀ ts ∈ itemTokens s ds, ts.head? ≠ some (.ofWord "Elt") := by
  induction ds generalizing s with
  | nil => exact fun _ h => absurd h List.not_mem_nil
  | cons d ds ih => exact List.forall_mem_cons.mpr ⟨d.head?_tokens_ne, ih⟩

/-! ## Values and code

One induction goes over all kinds of trees. Each part has a style of its own, so the
statements are about every style. -/

mutual

/-- Every value is read back, by its kind. -/
theorem written_data (d : Data) {s : Style} (h : d.isWellFormed = true) :
    Written Quiet Knot.full.value (d.tokens s) d := by
  cases d with
  | int z => exact written_int z
  | string t => exact written_string t
  | bytes bs => exact written_bytes bs
  | constant c => exact written_dataWord (.constant c) (written_pure _)
  | wrapped w d => exact written_dataWord (.wrapped w) ((written_data d h).map _)
  | pair l r =>
    simp only [Data.isWellFormed, Bool.and_eq_true] at h
    refine written_dataWord .pair ((written_data l h.1).part r.opens_tokens ?_)
    exact (written_data r h.2).map _
  | seq ds => exact written_seq (areWritten_items ds h) (head?_itemTokens_ne ds)
  | map es =>
    simp only [Data.isWellFormed, Bool.and_eq_true] at h
    exact written_map (areWritten_entries es h.2) (by simpa using h.1)
  | code b =>
    simp only [Data.isWellFormed, Bool.and_eq_true] at h
    exact written_code (areWritten_steps b h.2) h.1

/-- The items of a sequence are read back one by one. -/
theorem areWritten_items (ds : List Data) {s : Style} (h : areWellFormedItems ds = true) :
    AreWritten Knot.full.value (itemTokens s ds) ds := by
  cases ds with
  | nil => exact .nil
  | cons d ds =>
    simp only [areWellFormedItems, Bool.and_eq_true] at h
    exact .cons ⟨d.opens_tokens, (written_data d h.1).closes⟩ (areWritten_items ds h.2)

/-- An entry is its keyword, the key and the value. -/
theorem written_entry (e : Entry) {s : Style} (h : e.isWellFormed = true) :
    Written Quiet (entry Knot.full) (e.tokens s) e := by
  cases e with
  | mk k v =>
    simp only [Entry.isWellFormed, Bool.and_eq_true] at h
    refine (written_keyword (by decide)).before ((written_data k h.1).part v.opens_tokens ?_)
    exact (written_data v h.2).map _

/-- The entries of a map are read back one by one. -/
theorem areWritten_entries (es : List Entry) {s : Style} (h : areWellFormedEntries es = true) :
    AreWritten (entry Knot.full) (entryTokens s es) es := by
  cases es with
  | nil => exact .nil
  | cons e es =>
    simp only [areWellFormedEntries, Bool.and_eq_true] at h
    exact .cons ⟨e.opens_tokens, (written_entry e h.1).closes⟩ (areWritten_entries es h.2)

/-- A step is read back as the kind of step that it is. -/
theorem written_op (o : Op) {s : Style} (h : o.isWellFormed = true) :
    Written Closes (step Knot.full) (o.tokens s) o := by
  cases o with
  | prim i => exact written_instr i h
  | mac m => exact written_macro m h
  | seq b => exact written_nestedBlock (areWritten_steps b h)

/-- The steps of a block are read back one by one. -/
theorem areWritten_steps (b : List Op) {s : Style} (h : areWellFormedSteps b = true) :
    AreWritten (step Knot.full) (stepTokens s b) b := by
  cases b with
  | nil => exact .nil
  | cons o b =>
    simp only [areWellFormedSteps, Bool.and_eq_true] at h
    exact .cons ⟨o.opens_tokens, written_op o h.1⟩ (areWritten_steps b h.2)

/-- **Instructions.** Each is read back from its mnemonic, its notes and its arguments. -/
theorem written_instr (i : Instr) {s : Style} (h : i.isWellFormed = true) :
    Written Closes (step Knot.full) (i.tokens s) (.prim i) := by
  cases i with
  | plain name => exact written_prim (.plain name) (written_pure _)
  | noted name v => exact written_prim (.noted name) ((written_quietSlot h).map _).closes
  | typed name v t =>
    simp only [Instr.isWellFormed, Bool.and_eq_true] at h
    refine written_prim (.typed name) ((written_quietSlot h.1).part t.opens_tokens ?_)
    exact ((written_type h.2).map _).closes
  | branch name yes no =>
    simp only [Instr.isWellFormed, Bool.and_eq_true] at h
    refine written_prim (.branch name) ?_
    exact ((written_twoBlocks (areWritten_steps yes h.1) (areWritten_steps no h.2)).map
      fun x : Block × Block => Instr.branch name x.1 x.2).always
  | enclosing name body =>
    refine written_prim (.enclosing name) ?_
    exact (((areWritten_steps body h).block _).map (Instr.enclosing name)).always
  | traversal name v body =>
    simp only [Instr.isWellFormed, Bool.and_eq_true] at h
    refine written_prim (.traversal name) ((written_quietSlot h.1).part (.braced _ _) ?_)
    exact (((areWritten_steps body h.2).block _).map (Instr.traversal name v)).always
  | project side v f =>
    simp only [Instr.isWellFormed, Bool.and_eq_true] at h
    refine written_prim (.project side) ?_
    exact ((written_varFieldNotes h.1 h.2).map fun n : Notes => Instr.project side n.var n.field).closes
  | inject side t v lf rf ty =>
    simp only [Instr.isWellFormed, Bool.and_eq_true] at h
    obtain ⟨⟨⟨⟨⟨ht, hv⟩, hlf⟩, hrf⟩, horder⟩, hty⟩ := h
    refine written_prim (.inject side) ?_
    refine (written_typeVarFieldsNotes ht hv hlf hrf horder).part ty.opens_tokens ?_
    exact ((written_type hty).map _).closes
  | push v t d =>
    simp only [Instr.isWellFormed, Bool.and_eq_true] at h
    obtain ⟨⟨hv, ht⟩, hd⟩ := h
    rw [Instr.tokens, List.append_assoc]
    refine written_prim .push ((written_quietSlot hv).part (t.opens_tokens.append _) ?_)
    refine (written_type ht).part d.opens_tokens ?_
    exact ((written_data d hd).map _).closes
  | some t v f =>
    simp only [Instr.isWellFormed, Bool.and_eq_true] at h
    obtain ⟨⟨ht, hv⟩, hf⟩ := h
    refine written_prim .some ?_
    exact ((written_typeVarFieldNotes ht hv hf).map
      fun n : Notes => Instr.some n.type n.var n.field).closes
  | none t v f ty =>
    simp only [Instr.isWellFormed, Bool.and_eq_true] at h
    obtain ⟨⟨⟨ht, hv⟩, hf⟩, hty⟩ := h
    refine written_prim .none ((written_typeVarFieldNotes ht hv hf).part ty.opens_tokens ?_)
    exact ((written_type hty).map _).closes
  | unit t v =>
    simp only [Instr.isWellFormed, Bool.and_eq_true] at h
    refine written_prim .unit ?_
    exact ((written_typeVarNotes h.1 h.2).map fun n : Notes => Instr.unit n.type n.var).closes
  | pair t v lf rf =>
    simp only [Instr.isWellFormed, Bool.and_eq_true] at h
    obtain ⟨⟨⟨⟨ht, hv⟩, hlf⟩, hrf⟩, horder⟩ := h
    refine written_prim .pair ?_
    exact ((written_typeVarFieldsNotes ht hv hlf hrf horder).map
      fun n : Notes => Instr.pair n.type n.var n.field n.otherField).closes
  | nil t v ty =>
    simp only [Instr.isWellFormed, Bool.and_eq_true] at h
    obtain ⟨⟨ht, hv⟩, hty⟩ := h
    refine written_prim .nil ((written_typeVarNotes ht hv).part ty.opens_tokens ?_)
    exact ((written_type hty).map _).closes
  | emptySet t v c =>
    simp only [Instr.isWellFormed, Bool.and_eq_true] at h
    obtain ⟨⟨ht, hv⟩, hc⟩ := h
    refine written_prim .emptySet ((written_typeVarNotes ht hv).part c.opens_tokens ?_)
    exact ((written_comparable hc).map _).closes
  | emptyMap t v c ty =>
    simp only [Instr.isWellFormed, Bool.and_eq_true] at h
    obtain ⟨⟨⟨ht, hv⟩, hc⟩, hty⟩ := h
    rw [Instr.tokens, List.append_assoc]
    refine written_prim .emptyMap ((written_typeVarNotes ht hv).part (c.opens_tokens.append _) ?_)
    refine (written_comparable hc).part ty.opens_tokens ?_
    exact ((written_type hty).map _).closes
  | lambda v d c body =>
    simp only [Instr.isWellFormed, Bool.and_eq_true] at h
    obtain ⟨⟨⟨hv, hd⟩, hc⟩, hbody⟩ := h
    rw [Instr.tokens, List.append_assoc, List.append_assoc]
    refine written_prim .lambda ((written_quietSlot hv).part (d.opens_tokens.append _) ?_)
    refine (written_type hd).part (c.opens_tokens.append _) ?_
    refine (written_type hc).part (.braced _ _) ?_
    exact (((areWritten_steps body hbody).block _).map (Instr.lambda v d c)).always
  | createAccount v w =>
    simp only [Instr.isWellFormed, Bool.and_eq_true] at h
    obtain ⟨⟨hv, hw⟩, horder⟩ := h
    refine written_prim .createAccount ?_
    rw [← List.append_nil (v.tokens ++ w.tokens)]
    exact written_twoSlots hv hw horder (written_pure _) fun _ hnext => hnext.quiet
  | createContract v w =>
    simp only [Instr.isWellFormed, Bool.and_eq_true] at h
    obtain ⟨⟨hv, hw⟩, horder⟩ := h
    refine written_prim .createContract ?_
    rw [← List.append_nil (v.tokens ++ w.tokens)]
    refine written_twoSlots hv hw horder ?_ fun _ hnext => hnext.quiet
    exact written_noContract.last (written_pure _)
  | originate v w parameter storage code =>
    simp only [Instr.isWellFormed, Bool.and_eq_true] at h
    obtain ⟨⟨⟨⟨⟨hv, hw⟩, horder⟩, hp⟩, hs⟩, hcode⟩ := h
    refine written_prim .createContract ?_
    refine written_twoSlots hv hw horder ?_ fun _ _ => by rintro _ _ ⟨⟩
    have hsections : Written _ (contractRule Knot.full)
        (Contract.tokens s ⟨parameter, storage, code⟩) _ :=
      written_sections hp hs (areWritten_steps code hcode)
    exact Written.always ((written_bracedContract hsections).last (written_pure _))

/-- **Macros.** Each is read back from its name, its notes and its arguments. -/
theorem written_macro (m : Macro) {s : Style} (h : m.isWellFormed = true) :
    Written Closes (step Knot.full) (m.tokens s) (.mac m) := by
  cases m with
  | fixed name => exact written_mac h (written_pure _)
  | compare c v => exact written_mac h ((written_quietSlot h).map _)
  | ifCompared c yes no =>
    have hwf := h
    simp only [Macro.isWellFormed, Bool.and_eq_true] at h
    refine written_mac hwf ?_
    exact ((written_twoBlocks (areWritten_steps yes h.1) (areWritten_steps no h.2)).map
      fun x : Block × Block => Macro.ifCompared c x.1 x.2).always
  | ifCompare c v yes no =>
    have hwf := h
    simp only [Macro.isWellFormed, Bool.and_eq_true] at h
    obtain ⟨⟨hv, hyes⟩, hno⟩ := h
    rw [Macro.tokens, List.append_assoc]
    refine written_mac hwf ((written_quietSlot hv).part ((Opens.braced _ _).append _) ?_)
    exact ((written_twoBlocks (areWritten_steps yes hyes) (areWritten_steps no hno)).map
      fun x : Block × Block => Macro.ifCompare c v x.1 x.2).always
  | ifSome yes no =>
    have hwf := h
    simp only [Macro.isWellFormed, Bool.and_eq_true] at h
    refine written_mac hwf ?_
    exact ((written_twoBlocks (areWritten_steps yes h.1) (areWritten_steps no h.2)).map
      fun x : Block × Block => Macro.ifSome x.1 x.2).always
  | assertCompared c => exact written_mac h (written_pure _)
  | assertCompare c => exact written_mac h (written_pure _)
  | dipDeep depth body =>
    have hwf := h
    simp only [Macro.isWellFormed, Bool.and_eq_true] at h
    refine written_mac hwf ?_
    exact (((areWritten_steps body h.2).block _).map (Macro.dipDeep depth)).always
  | dupDeep depth v =>
    have hwf := h
    simp only [Macro.isWellFormed, Bool.and_eq_true] at h
    exact written_mac hwf ((written_quietSlot h.2).map _)
  | pairUp shape t v => exact written_pairUp h
  | unpair shape => exact written_unpair h
  | getPath path v f =>
    have hwf := h
    simp only [Macro.isWellFormed, Bool.and_eq_true] at h
    refine written_mac hwf ?_
    exact (written_varFieldNotes h.1.2 h.2).map fun n : Notes => Macro.getPath path n.var n.field
  | setPath path v f =>
    have hwf := h
    simp only [Macro.isWellFormed, Bool.and_eq_true] at h
    refine written_mac hwf ?_
    exact (written_varFieldNotes h.1.2 h.2).map fun n : Notes => Macro.setPath path n.var n.field
  | mapPath path v f body =>
    have hwf := h
    simp only [Macro.isWellFormed, Bool.and_eq_true] at h
    obtain ⟨⟨⟨-, hv⟩, hf⟩, hbody⟩ := h
    refine written_mac hwf ((written_varFieldNotes hv hf).part (.braced _ _) ?_)
    exact (((areWritten_steps body hbody).block _).map (Macro.mapPath path v f)).always

end

/-- **Contracts.** The tokens of a well-formed contract are read as the contract. -/
theorem written_contract {c : Contract} (h : c.isWellFormed = true) (s : Style) :
    Written (fun next => ∀ part : Part, next ≠ some (.ofWord part.keyword)) (contractRule Knot.full)
      (c.tokens s) c := by
  simp only [Contract.isWellFormed, Bool.and_eq_true] at h
  obtain ⟨⟨hp, hs⟩, hcode⟩ := h
  exact written_sections hp hs (areWritten_steps c.code hcode)

end Michelson
