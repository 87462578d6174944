import Michelson.Proofs.Sections
import Michelson.Proofs.Written.Names
import Michelson.Proofs.Written.Values

/-!
# Written code

The tokens of instructions, macros and sections are read back, if those of their parts
are.
-/

namespace Michelson

open Rule Grammar

variable {s : Style}

theorem Written.closes {α : Type} {r : Rule α} {ts : List Token} {a : α}
    (h : Written Quiet r ts a) : Written Closes r ts a := h.mono fun _ hnext => hnext.quiet

/-- What is read whatever follows is read where less may follow. -/
theorem Written.always {α : Type} {F : Option Token → Prop} {r : Rule α} {ts : List Token} {a : α}
    (h : Written Any r ts a) : Written F r ts a := h.mono fun _ _ => trivial

/-! ## Steps -/

theorem Instr.Head.isValid_mnemonic (head : Instr.Head) :
    (Token.ofWord head.mnemonic).isValid = true := by
  have hall : ∀ head ∈ all, (Token.ofWord head.mnemonic).isValid = true := by decide +kernel
  exact hall head head.mem_all

/-- An instruction as a step. -/
theorem written_prim (head : Instr.Head) {ts : List Token} {i : Instr}
    (h : Written Closes (arguments Knot.full head) ts i) :
    Written Closes (step Knot.full) (.ofWord head.mnemonic :: ts) (.prim i) := by
  have hinstr : Written Closes (instruction Knot.full) (.ofWord head.mnemonic :: ts) i := by
    rw [instruction_eq, mnemonicWord_eq]
    refine Written.attempt (Written.before ?_ h)
    refine written_word head.isValid_mnemonic ?_
    rw [String.ofList_toList, head.ofMnemonic?_mnemonic]
  exact ((hinstr.map Op.prim).firstOf _ _).nested

/-- A macro as a step. -/
theorem written_mac {m : Macro} (hm : m.isWellFormed = true) {ts : List Token}
    (h : Written Quiet (macroArguments Knot.full m.name) ts m) :
    Written Closes (step Knot.full) (.word m.name.letters :: ts) (.mac m) := by
  have hname := Macro.spelled_name hm
  have hrule : Written Closes (macroRule Knot.full) (.word m.name.letters :: ts) m := by
    refine ⟨List.forall_mem_cons.mpr ⟨hname.isValid, h.valid⟩, fun hat hnext => ?_⟩
    obtain ⟨j, hj, hend⟩ := h.reads hat.succ hnext.quiet
    exact ⟨j, Track.yields_macroRule hat.token? hname hj, hend⟩
  -- the instruction is tried first and does not know the name
  refine Written.nested (Written.skip ((hrule.map Op.mac).firstOf _ _) fun hat => ?_)
  refine Track.Misses.bind (Track.misses_instruction hat.le fun w hw => ?_) _
  obtain rfl : m.name.letters = w := by simpa using hat.token?.symm.trans hw
  exact Macro.ofMnemonic?_name hm

/-- A nested block as a step. -/
theorem written_nestedBlock {items : List (List Token)} {b : Block}
    (h : AreWritten (step Knot.full) items b) :
    Written Closes (step Knot.full) (s.braced items) (.seq b) := by
  have hblock : Written Closes (nestedBlock Knot.full) (s.braced items) (.seq b) :=
    ((h.block s).map Op.seq).always
  -- instructions and macros begin with words
  refine Written.nested (.skip (.skip hblock fun hat => ?_) fun hat => ?_)
  · exact (Track.misses_macroRule hat.le fun _ hw => absurd hw hat.not_word).bind _
  · exact (Track.misses_instruction hat.le fun _ hw => absurd hw hat.not_word).bind _

/-- A block closes itself, so another one may follow at once. -/
theorem written_twoBlocks {items items' : List (List Token)} {yes no : Block} {s' : Style}
    (hyes : AreWritten (step Knot.full) items yes) (hno : AreWritten (step Knot.full) items' no) :
    Written Any (twoBlocks Knot.full) (s.braced items ++ s'.braced items') (yes, no) :=
  (hyes.block s).bind ((hno.block s').map (Prod.mk yes)) fun _ _ => trivial

/-! ## Sections -/

section Sections

variable {fragment : Part → List Token} {c : Contract}

/-- What is written for a section. -/
def Part.tokens (fragment : Part → List Token) (part : Part) : List Token :=
  .ofWord part.keyword :: (fragment part ++ [.mark ';'])

theorem written_section {part : Part}
    (h : Written Quiet (fragmentRule Knot.full part) (fragment part) (c.get part)) :
    Written Any (sectionRule Knot.full part) (part.tokens fragment) (c.get part) where
  valid := by
    have hkeyword : (Token.ofWord part.keyword).isValid = true := by cases part <;> decide
    refine List.forall_mem_cons.mpr ⟨hkeyword, List.forall_mem_append.mpr ⟨h.valid, ?_⟩⟩
    exact List.forall_mem_singleton.mpr rfl
  reads := by
    intro T k rest hat _
    rw [Part.tokens, List.cons_append, List.append_assoc] at hat
    obtain ⟨i, hi, hsemi⟩ := h.reads hat.succ (by rintro _ _ ⟨⟩)
    exact ⟨i + 1, Track.yields_sectionRule hat.token? hi (.inl ⟨hsemi.token?, rfl⟩), hsemi.succ⟩

/-- **Sections.** A contract is read from its sections, up to what is no keyword of a
section. -/
theorem written_contractRule (h : ∀ part, Written Quiet (fragmentRule Knot.full part)
      (fragment part) (c.get part)) :
    Written (fun next => ∀ part : Part, next ≠ some (.ofWord part.keyword)) (contractRule Knot.full)
      ([Part.parameter, .storage, .code].flatMap (Part.tokens fragment)) c := by
  have hin : InOrder (sectionMember Knot.full) (Part.tokens fragment)
      (fun part => Sections.put part (c.get part))
      (fun part next => next ≠ some (.ofWord part.keyword)) (fun _ => Any)
      [Part.parameter, .storage, .code] := by
    refine ⟨⟨fun part hk hfree => (Track.misses_sectionRule hk hfree).slot _,
      fun part _ => (written_section (h part)).map _⟩, ?_⟩
    simp [Part.tokens, Part.keyword, Any]
  have hgroup := written_arranged hin.toMembers hin.arranged
    (fun T part => Track.passing_sectionMember part)
    (F := fun next => ∀ part : Part, next ≠ some (.ofWord part.keyword))
    (fun next hnext part => ⟨hnext part, trivial⟩) {}
  have hall : ∀ part, (gathered (Part.tokens fragment) (fun part => Sections.put part (c.get part))
      [Part.parameter, .storage, .code] {}).get part = some (c.get part) := by
    intro part
    cases part <;> rfl
  rw [contractRule_eq]
  have hpure : Written (fun next => ∀ part : Part, next ≠ some (.ofWord part.keyword))
      (assembled _) [] c :=
    ⟨fun _ h => absurd h List.not_mem_nil, fun hat _ => ⟨_, Track.yields_assembled hat.le hall, hat⟩⟩
  exact hgroup.last hpure

end Sections

/-- The tokens of the fragments of a contract. -/
def Contract.fragmentTokens (s : Style) (c : Contract) : Part → List Token
  | .parameter => c.parameter.tokens (s.child 0)
  | .storage => c.storage.tokens (s.child 1)
  | .code => Block.tokens (s.child 2) c.code

theorem written_sections {c : Contract} (hp : c.parameter.isWellFormed = true)
    (hs : c.storage.isWellFormed = true)
    (hcode : AreWritten (step Knot.full) (stepTokens (s.child 2) c.code) c.code) :
    Written (fun next => ∀ part : Part, next ≠ some (.ofWord part.keyword)) (contractRule Knot.full)
      (c.tokens s) c := by
  have hfragment : ∀ part, Written Quiet (fragmentRule Knot.full part)
      (c.fragmentTokens s part) (c.get part) := by
    intro part
    cases part with
    | parameter => exact written_type hp
    | storage => exact written_type hs
    | code => exact (hcode.block _).always
  have htokens : [Part.parameter, .storage, .code].flatMap (Part.tokens (c.fragmentTokens s)) =
      c.tokens s := by
    simp [Part.tokens, Part.keyword, Contract.fragmentTokens, Contract.sectionTokens, Contract.tokens]
  rw [← htokens]
  exact written_contractRule hfragment

/-- A contract in braces. -/
theorem written_bracedContract {c : Contract} {ts : List Token}
    (h : Written (fun next => ∀ part : Part, next ≠ some (.ofWord part.keyword))
      (contractRule Knot.full) ts c) :
    Written Any (bracedContract Knot.full) (.mark '{' :: (ts ++ [.mark '}'])) (some c) := by
  refine Written.optional ((written_symbol (by decide)).before ?_)
  refine h.bind ((written_symbol (by decide)).before (written_pure c)) fun next _ part => ?_
  rintro ⟨⟩

/-- No contract in braces stands where an item of a list ends. -/
theorem written_noContract : Written Closes (bracedContract Knot.full) [] none := by
  refine ⟨fun _ h => absurd h List.not_mem_nil, fun {T k rest} hat hnext => ⟨k, ?_, hat⟩⟩
  refine Track.Misses.optional (Track.Misses.bind (Track.misses_symbol (by decide) hat.le ?_) _) hat.le
  rw [hat.token?]
  rcases hnext with h | h <;> (rw [List.nil_append, h]; decide)

/-! ## Macros on pairs -/

section Pairs

variable {t : PairTree}

/-- The tree of a macro that pairs up is what its notes make of the shape in its name, in
whatever order they are written. -/
theorem written_pairing {n : PairNotes} (hcount : 3 ≤ t.leafCount)
    (htype : n.type.isWellFormed = true) (hvar : n.var.isWellFormed = true)
    (hfields : ∀ f ∈ n.fields, f.isWellFormed = true ∧ f.isPresent = true) {is : List PairSlot}
    (his : is.Perm [.type, .var, .fields]) :
    Written Closes (step Knot.full)
      (.word (MacroName.pairUp t).letters :: is.flatMap (PairSlot.tokens n))
      (.mac (.pairUp (t.stripped.withLeafNotes (n.fields.map (.absent, ·))) n.type n.var)) := by
  have hshape := PairTree.isWellFormedForPairing_withLeafNotes t.stripped_stripped
    (t.leafCount_stripped.symm ▸ hcount) hfields
  have hread := (written_pairNotes htype hvar hfields his).map fun n : PairNotes =>
    Macro.pairUp (t.stripped.withLeafNotes (n.fields.map (.absent, ·))) n.type n.var
  generalize n.fields.map ((.absent : Note .var), ·) = notes at hshape hread ⊢
  have hname : (Macro.pairUp (t.stripped.withLeafNotes notes) n.type n.var).name =
      .pairUp t.stripped := by
    rw [Macro.name, PairTree.stripped_withLeafNotes, PairTree.stripped_stripped]
  have hmac := written_mac (m := .pairUp (t.stripped.withLeafNotes notes) n.type n.var)
    (by simp [Macro.isWellFormed, hshape, htype, hvar]) (by rwa [hname])
  rwa [hname, t.letters_stripped.1] at hmac

/-- So is the tree of a macro that takes a pair apart. -/
theorem written_unpairing {n : LeafNotes} (hcount : 2 ≤ t.leafCount)
    (hvars : ∀ v ∈ n.vars, v.isWellFormed = true ∧ v.isPresent = true)
    (hfields : ∀ f ∈ n.fields, f.isWellFormed = true ∧ f.isPresent = true) {is : List LeafSlot}
    (his : is.Perm [.vars, .fields]) :
    Written Closes (step Knot.full)
      (.word (MacroName.unpair t).letters :: is.flatMap (LeafSlot.tokens n))
      (.mac (.unpair (t.stripped.withLeafNotes (n.vars.zip n.fields)))) := by
  have hshape := PairTree.isWellFormedForUnpairing_withLeafNotes t.stripped_stripped
    (t.leafCount_stripped.symm ▸ hcount) hvars hfields
  have hread := (written_leafNotes hvars hfields his).map fun n : LeafNotes =>
    Macro.unpair (t.stripped.withLeafNotes (n.vars.zip n.fields))
  have hname : (Macro.unpair (t.stripped.withLeafNotes (n.vars.zip n.fields))).name =
      .unpair t.stripped := by
    rw [Macro.name, PairTree.stripped_withLeafNotes, PairTree.stripped_stripped]
  have hmac := written_mac (m := .unpair (t.stripped.withLeafNotes (n.vars.zip n.fields))) hshape
    (by rwa [hname])
  rwa [hname, t.letters_stripped.2] at hmac

/-- The field notes of the leaves are written in a run, and handed out again. -/
theorem written_pairUp {n : Note .type} {v : Note .var}
    (h : (Macro.pairUp t n v).isWellFormed = true) :
    Written Closes (step Knot.full) ((Macro.pairUp t n v).tokens s) (.mac (.pairUp t n v)) := by
  simp only [Macro.isWellFormed, Bool.and_eq_true] at h
  obtain ⟨⟨hshape, hn⟩, hv⟩ := h
  obtain ⟨fields, hfields, hvars, htokens, hnotes⟩ := PairTree.exists_fields hshape
  have hread := written_pairing (n := ⟨n, v, fields⟩) (PairTree.leafCount_of_pairing hshape) hn hv
    hfields (List.perm_append_singleton PairSlot.fields [.type, .var]).symm
  rw [hnotes] at hread
  rw [Macro.tokens, hvars, htokens]
  simpa [PairSlot.tokens] using hread

theorem written_unpair (h : (Macro.unpair t).isWellFormed = true) :
    Written Closes (step Knot.full) ((Macro.unpair t).tokens s) (.mac (.unpair t)) := by
  have hcount : 2 ≤ t.leafCount := by
    simp only [Macro.isWellFormed, PairTree.isWellFormedForUnpairing, Bool.and_eq_true,
      decide_eq_true_eq] at h
    exact h.1.1.2
  obtain ⟨vars, fields, hvars, hfields, hv, hf, hnotes⟩ := PairTree.exists_notes h
  have hread := written_unpairing (n := ⟨vars, fields⟩) hcount hvars hfields (.refl _)
  rw [hnotes] at hread
  rw [Macro.tokens, hv, hf]
  simpa [LeafSlot.tokens] using hread

end Pairs

end Michelson
