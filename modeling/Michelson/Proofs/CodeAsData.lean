import Michelson.Proofs.BlockValue
import Michelson.Proofs.Whole

/-!
# Code read as data

The source text of a block can be read as a value too, and then the readings of a value
in braces are tried in turn: a map, a sequence, and code in the end. On code the first
two do no harm. They never halt; neither reads a block that has a step of its own; and
where the sequence reads a block it passes the same text as the reading of code.

* `Track.IsReadAsData` says so of one block in a text.
* `Track.isReadAsData_of_block` says that it is so for every block in a text.
* `blocks_read_as_data` is the statement about whole texts.
-/

namespace Michelson

open Rule Grammar

namespace Track

variable {T : Track} {k j : Nat} {b : Block}

/-- How the readings of a value treat a block that stands between two places. A reading
that misses, misses in every run from the place: it neither halts nor reads anything. -/
structure IsReadAsData (T : Track) (k : Nat) (b : Block) (j : Nat) : Prop where
  noMap : T.Misses (mapLiteral Knot.full) k
  noSequence : Block.hasOwnStep b = true → T.Misses (sequenceLiteral Knot.full) k
  sequence : Block.hasOwnStep b = false →
    T.Yields (sequenceLiteral Knot.full) k (.seq (nestedValues b)) j
  value : T.Yields Knot.full.value k (Data.ofBlock b) j

theorem isReadAsData_of_block (h : T.Yields Knot.full.block k b j) : T.IsReadAsData k b j := by
  have hbraced := h.of_gives (gives_block (h.le.trans h.le_length))
  have hnested : ∀ i b' i', k < i → T.Yields Knot.full.block i b' i' →
      T.Yields Knot.full.value i (Data.ofBlock b') i' := fun _ _ _ _ => yields_value_of_block
  exact
    { noMap := misses_mapLiteral hbraced.1 (no_entry_of_block hbraced)
      noSequence := fun hown => (misses_sequence_of_block hbraced hown hnested).bind _
      sequence := fun hown => yields_sequence_of_block hbraced (by simp [hown]) hnested
      value := yields_value_of_block h }

/-- What is read as code where braces open is the reading of code. -/
theorem yields_block_of_value (hopen : T.token? k = some (.mark '{'))
    (h : T.Yields Knot.full.value k (.code b) j) : T.Yields Knot.full.block k b j := by
  have hk := h.le.trans h.le_length
  rcases h.of_gives (wraps_value.gives kept_value hk (gives_plainValue hk)) with
    ⟨_, hparen, -⟩ | ⟨-, hplain⟩
  · cases hopen.symm.trans hparen
  · cases hplain with
    | code hb => exact hb
    | literal ht hd =>
      obtain rfl := Option.some.inj (hopen.symm.trans ht)
      rcases hd with hd | hd | hd <;> cases hd
    | word ht _ _ => cases hopen.symm.trans ht

end Track

/-- The first token of a text that is cut into lexemes is a brace if the text begins with one
behind some layout. -/
theorem Track.token?_zero_of_brace {T : Track} {front front' rest : List Char}
    (hfront : IsLayout front) (hfront' : Layout.Fills front' T.text)
    (h : front ++ '{' :: rest = front' ++ T.text) : T.token? 0 = some (.mark '{') := by
  have hfills : Layout.Fills front ('{' :: rest) :=
    Layout.fills_of_isLayout hfront
      (Layout.fills_nil_cons (by decide) (by decide) (by decide) rest)
  -- the layout in front of a text is told by a scan
  have hscan := hfills Position.start
  rw [h, hfront' Position.start] at hscan
  have htext : T.text = '{' :: rest := congrArg Cursor.rest (Except.ok.inj hscan)
  refine (T.head?_place (Nat.zero_le _) (by decide)).mp ?_
  change T.text.head? = some '{'
  rw [htext]
  rfl

/-- **Code read as data.** A text that is read as a block is read as a value: as the block,
if the block has a step of its own, and else as the sequence of what its blocks are read
as. The text is then cut into lexemes such that wherever code has a block, the readings of
a map and of a sequence do no harm. And a text that begins with a brace and is read as a
value that is code is read as that block. -/
theorem blocks_read_as_data (text : String) :
    (∀ b, Block.parse text = .ok b → Data.parse text = .ok (.ofBlock b) ∧
      ∃ (front : List Char) (T : Track), text.toList = front ++ T.text ∧
        Layout.Fills front T.text ∧ T.Yields Knot.full.block 0 b T.length ∧
        ∀ k b' j, T.Yields Knot.full.block k b' j → T.IsReadAsData k b' j) ∧
    ∀ b, Data.parse text = .ok (.code b) →
      (∃ front rest, IsLayout front ∧ text.toList = front ++ '{' :: rest) →
        Block.parse text = .ok b := by
  constructor
  · intro b h
    obtain ⟨front, T, htext, hfront, horigin, hblock⟩ := (run_ok_iff respected_block).mp h
    have hvalue := Track.yields_value_of_block hblock
    exact ⟨(run_ok_iff respected_value).mpr ⟨front, T, htext, hfront, horigin, hvalue⟩,
      front, T, htext, hfront, hblock, fun _ _ _ => Track.isReadAsData_of_block⟩
  · rintro b h ⟨front', rest, hfront', htext'⟩
    obtain ⟨front, T, htext, hfront, horigin, hvalue⟩ := (run_ok_iff respected_value).mp h
    have hopen := Track.token?_zero_of_brace hfront' hfront (htext'.symm.trans htext)
    exact (run_ok_iff respected_block).mpr
      ⟨front, T, htext, hfront, horigin, Track.yields_block_of_value hopen hvalue⟩

end Michelson
