import Michelson.Fingerprint
import Michelson.Proofs.Decoding
import Michelson.Proofs.Heads
import Michelson.Proofs.JsonText
import Michelson.Report

/-!
# Documents lose nothing

Every tree of the language is read back from its document, and every document from
its text, so the canonical form tells contracts apart. The decoders for the trees
are gone through once, for one level of nesting; all levels follow by induction on
the calls that are left.

* `Decoders.Inverts` is the statement for one number of calls, and `inverts_tied`
  says that it holds for all.
* `plain_document` says that the documents of trees are among those that the reader
  of JSON gives back.
* `documents_lose_nothing` is the statement about texts and fingerprints.
-/

namespace Michelson

open Decoder

/-! ## Lists of forms -/

namespace Form

/-- The forms of values are made one by one, and so are their documents. -/
theorem documents_ofItems (ds : List Data) : documents (ofItems ds) = ds.map Data.document := by
  induction ds with
  | nil => rfl
  | cons d ds ih => rw [ofItems, documents, ih]; rfl

theorem documents_ofEntries (es : List Entry) :
    documents (ofEntries es) = es.map fun e => (ofEntry e).document := by
  induction es with
  | nil => rfl
  | cons e es ih => rw [ofEntries, documents, ih]; rfl

theorem documents_ofOps (os : List Op) :
    documents (ofOps os) = os.map fun o => (ofOp o).document := by
  induction os with
  | nil => rfl
  | cons o os ih => rw [ofOps, documents, ih]; rfl

/-- A list of forms has a list of documents. -/
theorem documents_map {α : Type} (f : α → Form) (as : List α) :
    documents (as.map f) = as.map fun a => (f a).document := by
  induction as with
  | nil => rfl
  | cons a as ih => rw [List.map_cons, documents, ih]; rfl

end Form

/-! ## Leaves -/

namespace Decoder.Inverts

variable {n : Nat}

theorem base (b : Base) : Decoder.base.Inverts n b (Form.ofBase b).document :=
  choice (by cases b <;> decide)

/-- A comparable type is its base and its note. -/
theorem comparable (c : Comparable) :
    Decoder.comparable.Inverts (n + 1) c (Form.ofComparable c).document :=
  record2 _ _ Comparable.mk (by decide) (base c.base) (note c.note)

theorem comparison (c : Comparison) :
    Decoder.comparison.Inverts n c (Form.ofComparison c).document :=
  choice (by cases c <;> decide)

/-- A path is a list of sides, each by its name. -/
theorem path (p : List Side) : Decoder.path.Inverts n p (Form.ofPath p).document := by
  rw [Form.ofPath, Form.document, Form.documents_map]
  exact list fun side _ => choice (by cases side <;> decide)

/-- Every depth fits into 32 bits, so it is within the bound of its decoder. -/
theorem depth (d : UInt32) : Decoder.depth.Inverts n d (.integer d.toNat) := by
  have h := (natBelow (n := n) (show d.toNat < Numeral.bound32 from d.toNat_lt)).map UInt32.ofNat
  rwa [UInt32.ofNat_toNat] at h

theorem byte (b : UInt8) : Decoder.byte.Inverts n b (.integer b.toNat) := by
  have h := (natBelow (n := n) (show b.toNat < 256 from b.toNat_lt)).map UInt8.ofNat
  rwa [UInt8.ofNat_toNat] at h

/-- The sign of a number is one of three. -/
theorem sign (z : Int) : Decoder.sign.Inverts n (Form.signOf z) (.integer (Form.signOf z)) := by
  refine fun _ _ _ => if_pos ?_
  rw [Form.signOf]
  split_ifs <;> simp

/-- An integer is its sign times the number that its digits denote. -/
theorem integer (z : Int) : Decoder.integer.Inverts n z (Form.integerDocument z) := by
  have hlimbs : (Decoder.list (Decoder.natBelow Numeral.bound32)).Inverts n (Numeral.limbs z.natAbs)
      (.array ((Numeral.limbs z.natAbs).map fun (d : Nat) => .integer d)) :=
    list fun d hd => natBelow (Numeral.lt_of_mem_limbs hd)
  have hvalue : Form.signOf z * (Numeral.ofLimbs (Numeral.limbs z.natAbs) : Int) = z := by
    rw [Numeral.ofLimbs_limbs, Form.signOf]
    split_ifs <;> omega
  have h := tuple2 (fun s (ds : List Nat) => s * (Numeral.ofLimbs ds : Int)) (sign z) hlimbs
  rwa [hvalue] at h

end Decoder.Inverts

/-! ## Trees -/

/-- The decoders read all trees, with a number of calls left. -/
structure Decoders.Inverts (g : Decoders) (n : Nat) : Prop where
  type (t : Ty) : g.type.Inverts n t t.document
  pairTree (t : PairTree) : g.pairTree.Inverts n t t.document
  data (d : Data) : g.data.Inverts n d d.document
  op (o : Op) : g.op.Inverts n o (Form.ofOp o).document

namespace Decoders.Inverts

variable {g : Decoders} {n : Nat} (h : g.Inverts n)

include h

/-! ### Types and pair trees -/

omit h in
/-- A type is read from its kind, which is read without the note, and its note. -/
theorem kinds (build : Note .type → Ty) {kind : Json}
    (hk : (variant (kindCase g)).Inverts (n + 1) build kind) (v : Note .type) :
    (Decoder.type g).Inverts (n + 1) (build v)
      (.object [(some "kind", kind), (some "note", (Form.ofNote v).document)]) :=
  Inverts.record2 "kind" "note" (fun (kind : Note .type → Ty) v => kind v) (by decide)
    hk.down (.note v)

theorem types (t : Ty) : (Decoder.type g).Inverts (n + 1) t t.document := by
  -- the parts of the type are read with a call less
  cases t with
  | atom v a =>
    refine kinds (fun v => .atom v a) ?_ v
    cases a with
    | base b => exact .full rfl ((Inverts.base b).map _)
    | key => exact .empty rfl
    | unit => exact .empty rfl
    | signature => exact .empty rfl
    | operation => exact .empty rfl
  | option v f t =>
    refine kinds (fun v => .option v f t) ?_ v
    exact .full rfl (.tuple2 (fun f t n => Ty.option n f t) (.note f) (h.type t))
  | wrapped v w t =>
    refine kinds (fun v => .wrapped v w t) ?_ v
    cases w with
    | list => exact .full rfl ((h.type t).map _)
    | contract => exact .full rfl ((h.type t).map _)
  | set v c =>
    refine kinds (fun v => .set v c) ?_ v
    exact .full rfl ((Inverts.comparable c).down.map _)
  | joint v j lf rf l r =>
    refine kinds (fun v => .joint v j lf rf l r) ?_ v
    have hparts := Inverts.tuple4 (fun lf rf l r n => Ty.joint n j lf rf l r) (.note lf) (.note rf)
      (h.type l) (h.type r)
    cases j with
    | pair => exact .full rfl hparts
    | or => exact .full rfl hparts
  | lambda v d c =>
    refine kinds (fun v => .lambda v d c) ?_ v
    exact .full rfl (.tuple2 (fun d c n => Ty.lambda n d c) (h.type d) (h.type c))
  | table v t k e =>
    refine kinds (fun v => .table v t k e) ?_ v
    have hparts := Inverts.tuple2 (fun k v n => Ty.table n t k v) (Inverts.comparable k).down
      (h.type e)
    cases t with
    | map => exact .full rfl hparts
    | bigMap => exact .full rfl hparts

/-- A tree is a leaf with two notes, or a pair of trees. -/
theorem pairTrees (t : PairTree) : (Decoder.pairTree g).Inverts (n + 1) t t.document := by
  cases t with
  | leaf v f =>
    have hleaf := Inverts.record2 (n := n) "var" "field" PairTree.leaf
      (by decide) (.note v) (.note f)
    exact .full rfl hleaf.down
  | node l r => exact .full rfl (.tuple2 PairTree.node (h.pairTree l) (h.pairTree r))

/-! ### Values -/

/-- A block is the list of its steps. -/
theorem block (b : Block) : (Decoder.block g).Inverts n b (Form.list (Form.ofOps b)).document := by
  rw [Form.document, Form.documents_ofOps]
  exact .list fun o _ => h.op o

theorem entries (e : Entry) : (Decoder.entry g).Inverts (n + 1) e (Form.ofEntry e).document := by
  cases e with
  | mk k v => exact .record2 _ _ Entry.mk (by decide) (h.data k) (h.data v)

/-- A value is read back by its kind, with the items and entries of lists one by one. -/
theorem values (d : Data) : (Decoder.data g).Inverts (n + 1) d d.document := by
  cases d with
  | int z => exact .full rfl ((Inverts.integer z).map _)
  | string s => exact .full rfl ((Inverts.text s).map _)
  | bytes bs =>
    have hbytes := Inverts.list (n := n) fun (b : UInt8) (_ : b ∈ bs) => Inverts.byte b
    have hdocument := Form.documents_map (fun b : UInt8 => .number b.toNat) bs
    exact .full rfl ((hdocument ▸ hbytes).map _)
  | constant c => cases c <;> exact .empty rfl
  | wrapped w d => cases w <;> exact .full rfl ((h.data d).map _)
  | pair l r => exact .full rfl (.tuple2 Data.pair (h.data l) (h.data r))
  | seq items =>
    have hitems := Inverts.list fun d (_ : d ∈ items) => h.data d
    rw [← Form.documents_ofItems] at hitems
    exact .full rfl (hitems.map _)
  | map es =>
    have hentries := Inverts.list fun e (_ : e ∈ es) => (h.entries e).down
    rw [← Form.documents_ofEntries] at hentries
    exact .full rfl (hentries.map _)
  | code b => exact .full rfl ((h.block b).map _)

/-! ### Instructions and macros -/

/-- The three sections in an object, each under its name. -/
theorem contract (c : Contract) : (Decoder.contract g).Inverts (n + 1) c c.document := by
  refine Inverts.record ["parameter", "storage", "code"]
    [c.parameter.document, c.storage.document, (Form.list (Form.ofOps c.code)).document]
    (by decide) rfl fun budget hb hn => ?_
  simp only [Json.bracketsOfItems] at hb
  simp only [List.map_cons, List.map_nil, h.type c.parameter budget (by omega) hn,
    h.type c.storage budget (by omega) hn, h.block c.code budget (by omega) hn,
    Option.bind_eq_bind, Option.bind_some]

omit h in
/-- An instruction is found by its name. -/
theorem instrCase_headTag (head : Instr.Head) :
    instrCase g (headTag head) = some (instrParts g head) := by
  rw [instrCase, if_neg head.headTag_ne, head.find?_headTag, Option.map_some]

omit h in
/-- An instruction that has nothing but its name. -/
theorem bareInstr (head : Instr.Head) {i : Instr} (hparts : instrParts g head = .empty i) :
    (Decoder.instr g).Inverts n i (.text (headTag head)) :=
  .empty (by rw [instrCase_headTag, hparts])

omit h in
/-- An instruction is read from its parts, behind its name. -/
theorem fullInstr (head : Instr.Head) {d : Decoder Instr} (hparts : instrParts g head = .full d)
    {i : Instr} {j : Json} (hd : d.Inverts n i j) :
    (Decoder.instr g).Inverts (n + 1) i (.object [(some (headTag head), j)]) :=
  .full (by rw [instrCase_headTag, hparts]) hd

theorem instr (i : Instr) : (Decoder.instr g).Inverts (n + 1) i (Form.ofInstr i).document := by
  -- what is looked up is the name of the head, so the cases are of two kinds: with and without a
  -- payload
  cases i with
  | plain name => exact bareInstr (.plain name) rfl
  | noted name v => exact fullInstr (.noted name) rfl ((Inverts.note v).map _)
  | typed name v t =>
    exact fullInstr (.typed name) rfl (.tuple2 (Instr.typed name) (.note v) (h.type t))
  | branch name yes no =>
    exact fullInstr (.branch name) rfl
      (.tuple2 (Instr.branch name) (h.block yes) (h.block no))
  | enclosing name body =>
    exact fullInstr (.enclosing name) rfl ((h.block body).map _)
  | traversal name v body =>
    exact fullInstr (.traversal name) rfl
      (.tuple2 (Instr.traversal name) (.note v) (h.block body))
  | project side v f =>
    exact fullInstr (.project side) rfl (.tuple2 (Instr.project side) (.note v) (.note f))
  | inject side t v lf rf ty =>
    exact fullInstr (.inject side) rfl
      (.tuple5 (Instr.inject side) (.note t) (.note v) (.note lf) (.note rf) (h.type ty))
  | push v t d =>
    exact fullInstr .push rfl (.tuple3 Instr.push (.note v) (h.type t) (h.data d))
  | some t v f =>
    exact fullInstr .some rfl (.tuple3 Instr.some (.note t) (.note v) (.note f))
  | none t v f ty =>
    exact fullInstr .none rfl
      (.tuple4 Instr.none (.note t) (.note v) (.note f) (h.type ty))
  | unit t v => exact fullInstr .unit rfl (.tuple2 Instr.unit (.note t) (.note v))
  | pair t v lf rf =>
    exact fullInstr .pair rfl
      (.tuple4 Instr.pair (.note t) (.note v) (.note lf) (.note rf))
  | nil t v ty =>
    exact fullInstr .nil rfl (.tuple3 Instr.nil (.note t) (.note v) (h.type ty))
  | emptySet t v c =>
    exact fullInstr .emptySet rfl
      (.tuple3 Instr.emptySet (.note t) (.note v) (Inverts.comparable c).down)
  | emptyMap t v c ty =>
    exact fullInstr .emptyMap rfl
      (.tuple4 Instr.emptyMap (.note t) (.note v) (Inverts.comparable c).down (h.type ty))
  | lambda v d c body =>
    exact fullInstr .lambda rfl
      (.tuple4 Instr.lambda (.note v) (h.type d) (h.type c) (h.block body))
  | createAccount v w =>
    exact fullInstr .createAccount rfl
      (.tuple2 Instr.createAccount (.note v) (.note w))
  | createContract v w =>
    exact fullInstr .createContract rfl
      (.tuple2 Instr.createContract (.note v) (.note w))
  | originate v w parameter storage code =>
    -- this one shares its mnemonic with another, and has a name of its own
    exact .full (if_pos rfl) (.tuple3
      (fun v w (c : Contract) => Instr.originate v w c.parameter c.storage c.code)
      (.note v) (.note w) (h.contract ⟨parameter, storage, code⟩).down)

theorem mac (m : Macro) : (Decoder.mac g).Inverts (n + 1) m (Form.ofMacro m).document := by
  cases m with
  | fixed name => cases name <;> exact .empty rfl
  | compare c v => exact .full rfl (.tuple2 Macro.compare (.comparison c) (.note v))
  | ifCompared c yes no =>
    exact .full rfl (.tuple3 Macro.ifCompared (.comparison c) (h.block yes) (h.block no))
  | ifCompare c v yes no =>
    exact .full rfl (.tuple4 Macro.ifCompare (.comparison c) (.note v) (h.block yes) (h.block no))
  | ifSome yes no => exact .full rfl (.tuple2 Macro.ifSome (h.block yes) (h.block no))
  | assertCompared c => exact .full rfl ((Inverts.comparison c).map _)
  | assertCompare c => exact .full rfl ((Inverts.comparison c).map _)
  | dipDeep d body => exact .full rfl (.tuple2 Macro.dipDeep (.depth d) (h.block body))
  | dupDeep d v => exact .full rfl (.tuple2 Macro.dupDeep (.depth d) (.note v))
  | pairUp shape t v =>
    exact .full rfl (.tuple3 Macro.pairUp (h.pairTree shape) (.note t) (.note v))
  | unpair shape => exact .full rfl ((h.pairTree shape).map _)
  | getPath p v f => exact .full rfl (.tuple3 Macro.getPath (.path p) (.note v) (.note f))
  | setPath p v f => exact .full rfl (.tuple3 Macro.setPath (.path p) (.note v) (.note f))
  | mapPath p v f body =>
    exact .full rfl (.tuple4 Macro.mapPath (.path p) (.note v) (.note f) (h.block body))

theorem ops (o : Op) : (Decoder.op g).Inverts (n + 1) o (Form.ofOp o).document := by
  cases o with
  | prim i => exact .full rfl ((h.instr i).down.map _)
  | mac m => exact .full rfl ((h.mac m).down.map _)
  | seq b => exact .full rfl ((h.block b).map _)

/-- One call more reads what needs one bracket more. -/
theorem next : g.next.Inverts (n + 1) := ⟨h.types, h.pairTrees, h.values, h.ops⟩

end Decoders.Inverts

/-- **All trees are read from their documents**, with as many calls as there are brackets,
and one more. -/
theorem inverts_tied (n : Nat) : (Decoders.tied n).Inverts n := by
  induction n with
  | zero => exact ⟨fun _ => .zero _ _ _, fun _ => .zero _ _ _, fun _ => .zero _ _ _,
      fun _ => .zero _ _ _⟩
  | succ n ih => exact ih.next

/-! ## Texts -/

namespace Form

open Json

theorem arePlainMembers_members (labels : List String) {js : List Json} (h : ArePlain js) :
    ArePlainMembers (members labels js) := by
  induction labels generalizing js with
  | nil => trivial
  | cons label labels ih =>
    cases js with
    | nil => trivial
    | cons j js => exact ⟨rfl, h.1, ih h.2⟩

theorem arePlain_map {α : Type} {f : α → Json} (h : ∀ a, (f a).IsPlain) (as : List α) :
    ArePlain (as.map f) := by
  induction as with
  | nil => trivial
  | cons a as ih => exact ⟨h a, ih⟩

mutual

/-- The documents of forms have integers for numbers and texts for strings. -/
theorem plain_document : ∀ f : Form, f.document.IsPlain
  | .variant _ [] => rfl
  | .variant _ [part] => ⟨rfl, plain_document part, trivial⟩
  | .variant _ (part :: part' :: parts) =>
    ⟨rfl, ⟨plain_document part, plain_document part', plain_documents parts⟩, trivial⟩
  | .record _ labels parts => arePlainMembers_members labels (plain_documents parts)
  | .labelled _ labels parts => ⟨rfl, arePlainMembers_members labels (plain_documents parts), trivial⟩
  | .list items => plain_documents items
  | .note _ none => trivial
  | .note _ (some _) => rfl
  | .text _ => rfl
  | .integer _ => ⟨trivial, arePlain_map (fun d => by trivial) _, trivial⟩
  | .number _ => trivial

theorem plain_documents : ∀ fs : List Form, ArePlain (documents fs)
  | [] => trivial
  | f :: fs => ⟨plain_document f, plain_documents fs⟩

end

end Form

/-- A tree is read from the compact and from the pretty text of its document. -/
def IsReadBack {α : Type} (read : String → Option α) (a : α) (j : Json) : Prop :=
  read j.compact = some a ∧ read j.pretty = some a

/-- What a decoder reads from a document, it reads from the texts of the document. -/
theorem isReadBack_of_inverts {α : Type} {d : Decoder α} {a : α} {j : Json} (hplain : j.IsPlain)
    (h : d.Inverts (maxOpen + 1) a j) (hb : j.brackets ≤ maxOpen) : IsReadBack d.parse a j := by
  have hread := h maxOpen hb (Nat.lt_succ_self _)
  constructor
  · rw [Decoder.parse, Json.parse_compact hplain]
    exact hread
  · rw [Decoder.parse, Json.parse_pretty hplain]
    exact hread

/-! ### Reports -/

/-- The lines and columns of a report fit into 64 bits. -/
def Report.IsSized (r : Report) : Prop :=
  ∀ e, r.error = some e →
    (∀ n, e.line = some n → n < Numeral.bound64) ∧ ∀ n, e.column = some n → n < Numeral.bound64

/-- A line or a column that has 64 bits is read back. -/
theorem ErrorReport.place_document {n? : Option Nat} (h : ∀ n, n? = some n → n < Numeral.bound64)
    (budget : Nat) : ErrorReport.place budget (some (Json.natOrNull n?)) = some n? := by
  cases n? with
  | none => rfl
  | some n =>
    have hread := Inverts.natBelow (n := budget + 1) (h n rfl)
    exact (hread.orNull (by simp)) budget (Nat.zero_le _) (Nat.lt_succ_self _)

theorem ErrorReport.inverts_decoder {n : Nat} {r : ErrorReport}
    (hline : ∀ n, r.line = some n → n < Numeral.bound64)
    (hcolumn : ∀ n, r.column = some n → n < Numeral.bound64) :
    ErrorReport.decoder.Inverts (n + 1) r r.document := by
  refine Inverts.record ["kind", "line", "column", "message"]
    [.text r.kind, Json.natOrNull r.line, Json.natOrNull r.column, .text r.message]
    (by decide) rfl fun budget _ _ => ?_
  simp only [List.map_cons, List.map_nil, ErrorReport.place_document hline,
    ErrorReport.place_document hcolumn, Option.bind_eq_bind]
  rfl

/-- A report is read from its document. -/
theorem Report.inverts_decoder {n : Nat} {r : Report} (h : r.IsSized) :
    Report.decoder.Inverts (n + 1) r r.document := by
  obtain ⟨valid, e?⟩ := r
  cases e? with
  | none =>
    refine Inverts.record ["valid", "error"] [.bool valid, .null] (by decide) rfl
      fun budget _ _ => rfl
  | some e =>
    obtain ⟨hline, hcolumn⟩ := h e rfl
    refine Inverts.record ["valid", "error"] [.bool valid, e.document] (by decide) rfl
      fun budget hb _ => ?_
    have hread := (ErrorReport.inverts_decoder (n := budget) hline hcolumn).orNull (by
      simp [ErrorReport.document, Json.record])
    have herror := hread budget (by simpa [Json.bracketsOfItems, Json.brackets] using hb)
      (Nat.lt_succ_self _)
    simp only [List.map_cons, List.map_nil, herror, Option.bind_eq_bind]
    rfl

/-- A report is made of texts, numbers, truth values and nulls. -/
theorem Report.plain_document (r : Report) : r.document.IsPlain := by
  have hplace (n? : Option Nat) : (Json.natOrNull n?).IsPlain := by cases n? <;> trivial
  obtain ⟨valid, _ | e⟩ := r
  · exact ⟨rfl, trivial, rfl, trivial, trivial⟩
  · exact ⟨rfl, trivial, rfl, ⟨rfl, rfl, rfl, hplace _, rfl, hplace _, rfl, rfl, trivial⟩, trivial⟩

/-- The error of a report stands within two brackets. -/
theorem Report.brackets_document (r : Report) : r.document.brackets ≤ maxOpen := by
  have hplace (n? : Option Nat) : (Json.natOrNull n?).brackets = 0 := by cases n? <;> rfl
  obtain ⟨valid, _ | e⟩ := r
  · change 1 ≤ maxOpen
    decide
  · have hinner : e.document.brackets = 1 := by
      simp [ErrorReport.document, Json.record, Json.brackets, Json.bracketsOfMembers, Json.text,
        hplace]
    simp [Report.document, Json.record, Json.brackets, Json.bracketsOfMembers, hinner, maxOpen]

/-! ### Contracts -/

/-- A contract is what its document is read back as, so no two of them have the same. -/
theorem Contract.document_injective : Function.Injective Contract.document := by
  intro c c' h
  -- enough calls for both documents
  have hread (c : Contract) (n : Nat) := (inverts_tied n).contract c
  have h₁ := hread c c.document.brackets c.document.brackets le_rfl (Nat.lt_succ_self _)
  have h₂ := hread c' c.document.brackets c.document.brackets (h ▸ le_rfl) (Nat.lt_succ_self _)
  rw [← h, h₁] at h₂
  exact Option.some.inj h₂

/-- The canonical form of a contract is read as its document. -/
theorem Contract.parse_canonical (c : Contract) : Json.parse c.canonical = some c.document :=
  Json.parse_compact (Form.plain_document _)

/-- No two documents of contracts are written in the same way. -/
theorem Contract.canonical_injective : Function.Injective Contract.canonical := by
  intro c c' h
  have hread := c.parse_canonical
  rw [h, c'.parse_canonical] at hread
  exact (document_injective (Option.some.inj hread)).symm

/-! ### Fingerprints -/

/-- The loop that lists bytes adds the ones that are left to those that it has read. -/
theorem byteArray_toList_loop (bs : ByteArray) (i : Nat) (read : List UInt8) :
    ByteArray.toList.loop bs i read = read.reverse ++ bs.data.toList.drop i := by
  have hsize : bs.size = bs.data.toList.length := Array.length_toList.symm
  induction hleft : bs.size - i generalizing i read with
  | zero =>
    rw [ByteArray.toList.loop, if_neg (by omega), List.drop_eq_nil_of_le (by omega),
      List.append_nil]
  | succ left ih =>
    have hi : i < bs.data.toList.length := by omega
    have hget : bs.get! i = bs.data.toList[i] := by
      rw [Array.getElem_toList]
      exact getElem!_pos bs.data i (by simpa using hi)
    rw [ByteArray.toList.loop, if_pos (by omega), ih _ _ (by omega), List.reverse_cons,
      List.append_assoc, List.drop_eq_getElem_cons hi, hget]
    rfl

/-- The bytes of a text tell it from all others. -/
theorem toUTF8_toList_injective : Function.Injective fun s : String => s.toUTF8.toList := by
  intro s t h
  have hlist (s : String) : s.toUTF8.toList = s.toUTF8.data.toList :=
    byteArray_toList_loop s.toUTF8 0 []
  simp only [hlist] at h
  exact String.toByteArray_inj.mp (ByteArray.ext (Array.toList_inj.mp h))

/-- Two contracts with one fingerprint have canonical forms with one hash. -/
theorem digest_of_fingerprint {c c' : Contract} (h : c.fingerprint = c'.fingerprint) :
    Sha256.digest c.canonical.toUTF8.toList = Sha256.digest c'.canonical.toUTF8.toList :=
  Numeral.hexBytes_injective (String.ofList_injective h)

/-- **Documents lose nothing.** The canonical form tells contracts apart, so contracts that
differ share a fingerprint only where the hash function maps different byte strings to one
hash. A contract, a type, a value, a block or a pair tree whose document is within the
limit on brackets is read back from the compact and from the pretty text of its document,
and so is every report. -/
theorem documents_lose_nothing :
    Function.Injective Contract.canonical ∧
    (∀ c c' : Contract, c ≠ c' → c.fingerprint = c'.fingerprint →
      c.canonical.toUTF8.toList ≠ c'.canonical.toUTF8.toList ∧
        Sha256.digest c.canonical.toUTF8.toList = Sha256.digest c'.canonical.toUTF8.toList) ∧
    (∀ c : Contract, c.document.brackets ≤ maxOpen →
      Contract.ofDocument? c.canonical = some c ∧
        Contract.ofDocument? c.document.pretty = some c) ∧
    (∀ t : Ty, t.document.brackets ≤ maxOpen →
      Ty.ofDocument? t.document.compact = some t ∧ Ty.ofDocument? t.document.pretty = some t) ∧
    (∀ d : Data, d.document.brackets ≤ maxOpen →
      Data.ofDocument? d.document.compact = some d ∧
        Data.ofDocument? d.document.pretty = some d) ∧
    (∀ b : Block, (Block.document b).brackets ≤ maxOpen →
      Block.ofDocument? (Block.document b).compact = some b ∧
        Block.ofDocument? (Block.document b).pretty = some b) ∧
    (∀ t : PairTree, t.document.brackets ≤ maxOpen →
      PairTree.ofDocument? t.document.compact = some t ∧
        PairTree.ofDocument? t.document.pretty = some t) ∧
    ∀ r : Report, r.IsSized →
      Report.ofDocument? r.document.compact = some r ∧ Report.ofDocument? r.render = some r := by
  have hfull := inverts_tied (maxOpen + 1)
  refine ⟨Contract.canonical_injective, fun c c' hne h => ?_, fun c => ?_, fun t => ?_,
    fun d => ?_, fun b => ?_, fun t => ?_, fun r hr => ?_⟩
  · exact ⟨fun hbytes => hne (Contract.canonical_injective (toUTF8_toList_injective hbytes)),
      digest_of_fingerprint h⟩
  · exact isReadBack_of_inverts (Form.plain_document _) (hfull.contract c).down
  · exact isReadBack_of_inverts (Form.plain_document _) (hfull.type t)
  · exact isReadBack_of_inverts (Form.plain_document _) (hfull.data d)
  · exact isReadBack_of_inverts (Form.plain_document _) (hfull.block b)
  · exact isReadBack_of_inverts (Form.plain_document _) (hfull.pairTree t)
  · exact isReadBack_of_inverts r.plain_document (Report.inverts_decoder hr) r.brackets_document

end Michelson
