import Michelson.Proofs.Embedding
import Michelson.Proofs.Sections
import Michelson.Proofs.Whole

/-!
# A contract is its three fragments

A contract is read from the texts of its type of parameters, its type of storage and
its code, in any order, and every text of a contract is made of such texts. Each
fragment is a track within the track of the contract, and is read there as it is read
alone.

* `Part.piece` is the text of a section made of a fragment.
* `Contract.IsWritten` says which texts are made of sections, and of nothing else.
* `Contract.parse_fragments` has both directions.
-/

namespace Michelson

open Rule Grammar

/-! ## Fragments, pieces and texts -/

/-- The text is accepted as the fragment in a section, and with the value of the contract. -/
def Contract.HasFragment (c : Contract) : Part → String → Prop
  | .parameter, text => Ty.parse text = .ok c.parameter
  | .storage, text => Ty.parse text = .ok c.storage
  | .code, text => Block.parse text = .ok c.code

/-- What closes a section: a semicolon, which the code may do without. -/
def Part.closing (part : Part) (semicolon : Bool) : String :=
  if part = code ∧ semicolon = false then "" else ";"

/-- The text of a section made of a fragment: the keyword, the fragment up to the end of
a line, and what closes the section. -/
def Part.piece (part : Part) (semicolon : Bool) (fragment : String) : String :=
  part.keyword ++ " " ++ fragment ++ "\n" ++ part.closing semicolon

/-- The texts that are made of sections of a contract in the given order. Layout stands in
front of each section and at the end, where a last line feed may be lacking. The fragment
stands between the layout behind the keyword and what closes the section. -/
inductive Contract.IsWritten (c : Contract) : List Part → List Char → Prop
  | ending {gap : List Char} (h : IsLayout (gap ++ ['\n'])) : IsWritten c [] gap
  | section {part : Part} {parts : List Part} {front gap fragment rest : List Char}
      (semicolon : Bool) (hfront : IsLayout front) (hgap : IsLayout gap)
      (hstart : ∀ cs, IsLayout cs → cs <+: fragment → cs = [])
      (hfragment : c.HasFragment part (String.ofList fragment)) (hrest : IsWritten c parts rest) :
      IsWritten c (part :: parts) (front ++ part.keyword.toList ++ gap ++ fragment ++
        (part.closing semicolon).toList ++ rest)

theorem Part.keyword_injective {part part' : Part}
    (h : Token.word part.keyword.toList = .word part'.keyword.toList) : part = part' := by
  revert h
  cases part <;> cases part' <;> decide

/-- Where no layout is passed, none begins the text. -/
theorem Layout.Fills.eq_nil {text cs : List Char} (h : Fills [] text) (hcs : IsLayout cs)
    (hpre : cs <+: text) : cs = [] := by
  obtain ⟨ds, rfl⟩ := hpre
  have hscan := h Position.start
  rw [List.nil_append, scan_append hcs] at hscan
  obtain ⟨gap, heq, -, -⟩ := fills_of_scan hscan
  have hlength := congrArg List.length heq
  rw [List.length_append, List.length_append] at hlength
  exact List.length_eq_zero_iff.mp (by omega)

namespace Track

variable {T U : Track} {c : Contract} {part : Part} {semicolon : Bool} {k i j : Nat}

/-! ## Fragments as tracks -/

/-- A fragment is layout and a track that is read to its end. -/
theorem exists_of_hasFragment {text : String} (h : c.HasFragment part text) :
    ∃ (front : List Char) (U : Track), text.toList = front ++ U.text ∧
      Layout.Fills front U.text ∧
      U.Yields (fragmentRule Knot.full part) 0 (c.get part) U.length := by
  cases part with
  | parameter | storage =>
    obtain ⟨front, U, htext, hfront, -, hyields⟩ := (run_ok_iff respected_plainType).mp h
    exact ⟨front, U, htext, hfront, hyields⟩
  | code =>
    obtain ⟨front, U, htext, hfront, -, hyields⟩ := (run_ok_iff respected_block).mp h
    exact ⟨front, U, htext, hfront, hyields⟩

theorem hasFragment_of_yields (horigin : U.origin = Position.start)
    (h : U.Yields (fragmentRule Knot.full part) 0 (c.get part) U.length) :
    c.HasFragment part (String.ofList U.text) := by
  have hnil : Layout.Fills [] U.text := by
    have hnil := U.fit.fills_nil Layout.fills_nil_nil
    rwa [List.append_nil] at hnil
  cases part with
  | parameter | storage =>
    exact (run_ok_iff respected_plainType).mpr ⟨[], U, String.toList_ofList, hnil, horigin, h⟩
  | code => exact (run_ok_iff respected_block).mpr ⟨[], U, String.toList_ofList, hnil, horigin, h⟩

/-- A fragment is read in its section as it is read alone. -/
theorem Embeds.yields_fragment_iff (h : U.Embeds T i) (v : part.Value)
    (hend : part = .code ∨ T.token? (i + U.length) = some (.mark ';')) :
    U.Yields (fragmentRule Knot.full part) 0 v U.length ↔
      T.Yields (fragmentRule Knot.full part) i v (i + U.length) := by
  cases part with
  | parameter | storage => exact h.yields_type_iff (hend.resolve_left fun h => nomatch h) v
  | code =>
    have hbound := h.bound
    -- both runs find the opening brace, and leave no brace open
    constructor
    · intro hyields
      have hbraced := hyields.of_gives (gives_block (Nat.zero_le _))
      have hlevel := hyields.level_eq.trans U.level_zero
      exact (h.yields_block_iff hbraced.1 hlevel v).mp hyields
    · intro hyields
      have hbraced := hyields.of_gives (gives_block (by omega))
      have hlt := hbraced.lt
      have hlevel := hyields.level_eq
      rw [h.level_add _ le_rfl] at hlevel
      refine (h.yields_block_iff ?_ (by omega) v).mpr hyields
      rw [h.token? (by omega)]
      exact hbraced.1

theorem fills_nil_place (T : Track) (k : Nat) : Layout.Fills [] (T.place k).rest := by
  have hfit := T.fit
  rw [← List.take_append_drop k T.lexemes, Lexemes.fit_append] at hfit
  have hnil := hfit.2.fills_nil Layout.fills_nil_nil
  rwa [List.append_nil] at hnil

theorem rest_place_ne_nil (hk : k < T.length) : (T.place k).rest ≠ [] := by
  intro hnil
  have hle := T.le_length_rest k
  rw [hnil, List.length_nil] at hle
  omega

/-- The tokens of a track stand in another one where the other one goes on with them. -/
theorem embeds_of_tokens {rest : List Token} (h : T.tokens.drop i = U.tokens ++ rest)
    (hi : i ≤ T.length) : U.Embeds T i := by
  have hlength := congrArg List.length h
  rw [List.length_drop, List.length_append, length_tokens, length_tokens] at hlength
  refine ⟨by omega, fun {k} hk => ?_⟩
  rw [← length_tokens] at hk
  rw [Track.token?, Track.token?, ← List.getElem?_drop, h, List.getElem?_append_left hk]

/-! ## From fragments to a contract -/

/-- The tokens that close a section. -/
def closingTokens (part : Part) (semicolon : Bool) : List Token :=
  if part = .code ∧ semicolon = false then [] else [.mark ';']

/-- The tokens of a section made of a fragment. -/
def pieceTokens (part : Part) (semicolon : Bool) (U : Track) : List Token :=
  .word part.keyword.toList :: (U.tokens ++ closingTokens part semicolon)

/-- A section is read where its tokens stand. -/
theorem yields_piece {v : part.Value} {rest : List Token}
    (h : T.tokens.drop k = pieceTokens part semicolon U ++ rest)
    (hrest : rest.head? ≠ some (.mark ';'))
    (hU : U.Yields (fragmentRule Knot.full part) 0 v U.length) :
    ∃ j, T.Yields (sectionRule Knot.full part) k v j ∧ T.tokens.drop j = rest := by
  have hkey : T.token? k = some (.word part.keyword.toList) := by
    rw [token?, ← List.head?_drop, h]
    rfl
  have hk' := le_of_token? hkey
  have hdrop : T.tokens.drop (k + 1) = U.tokens ++ (closingTokens part semicolon ++ rest) := by
    rw [← List.tail_drop, h, ← List.append_assoc]
    rfl
  have hembeds := embeds_of_tokens hdrop hk'
  have hdrop' : T.tokens.drop (k + 1 + U.length) = closingTokens part semicolon ++ rest := by
    rw [← List.drop_drop, hdrop, ← U.length_tokens, List.drop_left]
  have hend : T.token? (k + 1 + U.length) = (closingTokens part semicolon ++ rest).head? := by
    rw [token?, ← List.head?_drop, hdrop']
  by_cases hopen : part = .code ∧ semicolon = false
  · rw [closingTokens, if_pos hopen, List.nil_append] at hend hdrop'
    have hfragment := (hembeds.yields_fragment_iff v (.inl hopen.1)).mp hU
    refine ⟨_, yields_sectionRule hkey hfragment (.inr ⟨hopen.1, ?_, rfl⟩), hdrop'⟩
    rwa [hend]
  · rw [closingTokens, if_neg hopen] at hend hdrop'
    have hfragment := (hembeds.yields_fragment_iff v (.inr hend)).mp hU
    refine ⟨_, yields_sectionRule hkey hfragment (.inl ⟨hend, rfl⟩), ?_⟩
    rw [← List.tail_drop, hdrop']
    rfl

/-- Sections in any order are read one after another. -/
theorem exists_rounds {U : Part → Track} (hU : ∀ part,
      (U part).Yields (fragmentRule Knot.full part) 0 (c.get part) (U part).length)
    {order : List Part} (hnodup : order.Nodup) :
    ∀ {is : List Part} {k : Nat} (x : Sections), is.Perm order → k ≤ T.length →
      T.tokens.drop k = order.flatMap (fun part => pieceTokens part semicolon (U part)) →
      ∃ y, T.Rounds (sectionMember Knot.full) is k x y T.length ∧
        ∀ part, y.get part = if part ∈ order then some (c.get part) else x.get part := by
  induction order with
  | nil =>
    intro is k x his hk hdrop
    obtain rfl := his.eq_nil
    have hlength := List.drop_eq_nil_iff.mp hdrop
    rw [length_tokens] at hlength
    obtain rfl := le_antisymm hk hlength
    exact ⟨x, .stop fun _ h => absurd h List.not_mem_nil, fun part => (if_neg List.not_mem_nil).symm⟩
  | cons part order ih =>
    intro is k x his hk hdrop
    obtain ⟨hnot, hnodup⟩ := List.nodup_cons.mp hnodup
    rw [List.flatMap_cons] at hdrop
    have hkey : T.token? k = some (.word part.keyword.toList) := by
      rw [token?, ← List.head?_drop, hdrop]
      rfl
    have hnext : (order.flatMap fun part => pieceTokens part semicolon (U part)).head? ≠
        some (.mark ';') := by
      cases order <;> rintro ⟨⟩
    obtain ⟨j, hyields, hdrop'⟩ := yields_piece hdrop hnext (hU part)
    obtain ⟨before, after, rfl⟩ := List.append_of_mem (his.mem_iff.mpr List.mem_cons_self)
    have hothers : (before ++ after).Perm order :=
      (List.perm_cons part).mp (List.perm_middle.symm.trans his)
    obtain ⟨y, hrounds, hy⟩ := ih hnodup (Sections.put part (c.get part) x) hothers
      hyields.le_length hdrop'
    refine ⟨y, .round (fun b hb => ?_) (hyields.slot _) hrounds, fun p => ?_⟩
    · -- a member in front waits for another keyword
      refine (misses_sectionRule hk fun hkey' => hnot ?_).slot _
      obtain rfl := Part.keyword_injective (Option.some.inj (hkey.symm.trans hkey'))
      exact hothers.mem_iff.mp (List.mem_append_left _ hb)
    · rw [hy p]
      by_cases hp : p = part
      · subst hp
        rw [if_neg hnot, if_pos List.mem_cons_self, Sections.get_put]
      · rw [Sections.get_put_of_ne _ hp]
        simp [hp]

end Track

/-- The lexemes of a section before other text. -/
theorem Lexemes.exists_of_piece (part : Part) (semicolon : Bool) {U : Track}
    {front more rest : List Char} {fragment : String} (htext : fragment.toList = front ++ U.text)
    (hfront : Layout.Fills front U.text) (hm : IsLayout more) (hr : Layout.Fills [] rest) :
    ∃ ls, tokens ls = Track.pieceTokens part semicolon U ∧
      text ls = (part.piece semicolon fragment).toList ++ more ∧ Fit ls rest := by
  have hblank : IsLayout [' '] := .blank isBlank_space .empty
  have hkeyword : (Token.word part.keyword.toList).isValid = true := by cases part <;> decide
  have hfit : Fit (⟨.word part.keyword.toList, ' ' :: front⟩ :: U.lexemes) [] := by
    refine ⟨⟨hkeyword, ?_, ?_⟩, U.fit⟩
    · exact Token.endsBefore_of_isLayout hkeyword hblank (List.cons_ne_nil _ _) _
    · rw [List.append_nil]
      exact hfront.prepend hblank
  by_cases hopen : part = .code ∧ semicolon = false
  · obtain ⟨ls, htokens, htext', hls⟩ := hfit.exists_closed (List.cons_ne_nil _ _) hm hr
    refine ⟨ls, ?_, ?_, hls⟩
    · rw [htokens, Track.pieceTokens, Track.closingTokens, if_pos hopen, List.append_nil]
      rfl
    · rw [htext', Part.piece, Part.closing, if_pos hopen]
      simp [Lexeme.text, Token.text, htext, Track.text]
  · have hsemi : Layout.Fills [] (';' :: (more ++ rest)) :=
      Layout.fills_nil_cons (by decide) (by decide) (by decide) _
    obtain ⟨ls, htokens, htext', hls⟩ := hfit.exists_closed (List.cons_ne_nil _ _) .empty hsemi
    refine ⟨ls ++ [⟨.mark ';', more⟩], ?_, ?_, fit_append.mpr ⟨?_, ⟨⟨rfl, rfl, ?_⟩, trivial⟩⟩⟩
    · rw [tokens_append, htokens, Track.pieceTokens, Track.closingTokens, if_neg hopen]
      rfl
    · rw [text_append, htext', Part.piece, Part.closing, if_neg hopen]
      simp [Lexeme.text, Token.text, htext, Track.text]
    · simpa [Lexeme.text, Token.text] using hls
    · exact Layout.fills_of_isLayout hm hr

/-- The lexemes of the sections, with line feeds between them. -/
theorem Lexemes.exists_of_pieces (semicolon : Bool) {U : Part → Track} {front : Part → List Char}
    {fragment : Part → String} (htext : ∀ part, (fragment part).toList = front part ++ (U part).text)
    (hfront : ∀ part, Layout.Fills (front part) (U part).text) (order : List Part) :
    ∃ ls, tokens ls = order.flatMap (fun part => Track.pieceTokens part semicolon (U part)) ∧
      text ls = ("\n".intercalate
        (order.map fun part => part.piece semicolon (fragment part))).toList ∧ Fit ls [] := by
  induction order with
  | nil => exact ⟨[], rfl, rfl, trivial⟩
  | cons part order ih =>
    obtain ⟨ls, htokens, htext', hls⟩ := ih
    cases order with
    | nil =>
      obtain ⟨ms, hms, hmtext, hmfit⟩ := exists_of_piece part semicolon (htext part) (hfront part)
        .empty Layout.fills_nil_nil
      refine ⟨ms, by rw [hms, List.flatMap_cons, List.flatMap_nil, List.append_nil], ?_, hmfit⟩
      rw [hmtext, List.append_nil]
      simp
    | cons next order =>
      have hnil := hls.fills_nil Layout.fills_nil_nil
      rw [List.append_nil] at hnil
      obtain ⟨ms, hms, hmtext, hmfit⟩ := exists_of_piece part semicolon (htext part) (hfront part)
        (.blank isBlank_newline .empty) hnil
      refine ⟨ms ++ ls, ?_, ?_, fit_append.mpr ⟨by rwa [List.append_nil], hls⟩⟩
      · rw [tokens_append, hms, htokens]
        simp only [List.flatMap_cons]
      · rw [text_append, hmtext, htext']
        simp

/-! ## From a contract to fragments -/

namespace Track

variable {T : Track} {c : Contract} {is : List Part} {x y : Sections} {k j : Nat}

/-- A section stands where it is read: the keyword, layout, the fragment and what closes
the section. -/
theorem exists_section {part : Part} (h : T.Yields (sectionRule Knot.full part) k (c.get part) j) :
    ∃ (semicolon : Bool) (gap fragment front : List Char), IsLayout gap ∧
      (∀ cs, IsLayout cs → cs <+: fragment → cs = []) ∧
      c.HasFragment part (String.ofList fragment) ∧ Layout.Fills front (T.place j).rest ∧
      (T.place k).rest = part.keyword.toList ++ gap ++ fragment ++
        (part.closing semicolon).toList ++ (front ++ (T.place j).rest) := by
  obtain ⟨hkey, i, hi, hend⟩ := h.of_gives (gives_sectionRule (h.le.trans h.le_length))
  have hki := hi.le
  obtain ⟨l, htoken, hrest, hfit, -⟩ := T.exists_lexeme (le_of_token? hkey)
  obtain ⟨U, horigin, hlength, hembeds, hpart⟩ := exists_part hki hi.le_length
  have heq : k + 1 + U.length = i := by omega
  have hclose : part = .code ∨ T.token? (k + 1 + U.length) = some (.mark ';') := by
    rw [heq]
    exact hend.symm.imp And.left And.left
  have hlt : k + 1 < T.length := by
    rcases hend with ⟨hsemi, -⟩ | ⟨rfl, -, -⟩
    · exact hki.trans_lt (le_of_token? hsemi)
    · exact (hi.of_gives (gives_block (hki.trans hi.le_length))).lt.trans_le hi.le_length
  have hyields : U.Yields (fragmentRule Knot.full part) 0 (c.get part) U.length :=
    (hembeds.yields_fragment_iff _ hclose).mpr (heq ▸ hi)
  have hgap := hfit.fills.isLayout (rest_place_ne_nil hlt)
  have hstart : ∀ cs, IsLayout cs → cs <+: U.text → cs = [] := fun _ => (U.fills_nil_place 0).eq_nil
  have hword : l.text = part.keyword.toList ++ l.gap := by
    rw [Lexeme.text, Option.some.inj (htoken.symm.trans hkey)]
    rfl
  have htext : (T.place k).rest = part.keyword.toList ++ l.gap ++ U.text ++ (T.place i).rest := by
    rw [hrest, hword, hpart, List.append_assoc _ U.text]
  -- a semicolon takes the layout behind it along; without one the fragment ends with it
  rcases hend with ⟨hsemi, rfl⟩ | ⟨rfl, -, rfl⟩
  · obtain ⟨m, htoken', hrest', hfit', -⟩ := T.exists_lexeme (le_of_token? hsemi)
    have hmark : m.text = ';' :: m.gap := by
      rw [Lexeme.text, Option.some.inj (htoken'.symm.trans hsemi)]
      rfl
    refine ⟨true, l.gap, U.text, m.gap, hgap, hstart, hasFragment_of_yields horigin hyields,
      hfit'.fills, ?_⟩
    rw [htext, hrest', hmark, Part.closing, if_neg (by simp)]
    simp
  · refine ⟨false, l.gap, U.text, [], hgap, hstart, hasFragment_of_yields horigin hyields,
      T.fills_nil_place _, ?_⟩
    rw [htext, Part.closing, if_pos ⟨rfl, rfl⟩]
    simp

/-- The text behind a place is made of the sections that are read from there to the end. -/
theorem Rounds.exists_isWritten (h : T.Rounds (sectionMember Knot.full) is k x y j) :
    is.Nodup → (∀ part ∈ is, x.get part = none) → (∀ part, y.get part = some (c.get part)) →
      j = T.length → ∀ front, Layout.Fills front (T.place k).rest →
        ∃ order : List Part, order.Perm is ∧ c.IsWritten order (front ++ (T.place k).rest) := by
  induction h with
  | @stop is k x _ =>
    intro _ hx hy hk front hfront
    subst hk
    have hnone : is = [] := by
      refine List.eq_nil_iff_forall_not_mem.mpr fun part hpart => ?_
      have hsome := hy part
      rw [hx part hpart] at hsome
      cases hsome
    subst hnone
    rw [rest_place_length] at hfront ⊢
    rw [List.append_nil]
    exact ⟨[], .nil, .ending hfront.isLayout_append⟩
  | @round before after part k j l u x y _ h hmore ih =>
    intro hnodup hx hy hl front hfront
    have hmiddle := List.perm_middle.nodup_iff.mp hnodup
    obtain ⟨hnot, hnodup⟩ := List.nodup_cons.mp hmiddle
    obtain ⟨v, rfl, hv⟩ := h.of_gives (((kept_sectionRule part).gives (h.le.trans h.le_length)).slot _)
    -- what is filled in stays as it is
    have hvalue : v = c.get part := by
      have hget := hmore.get_eq hnot
      rw [hy part, Sections.get_put] at hget
      exact (Option.some.inj hget).symm
    subst hvalue
    obtain ⟨semicolon, gap, fragment, front', hgap, hstart, hfragment, hfront', htext⟩ :=
      exists_section hv
    have hothers : ∀ p ∈ before ++ after, (Sections.put part (c.get part) x).get p = none := by
      intro p hp
      have hne : p ≠ part := fun heq => hnot (heq ▸ hp)
      rw [Sections.get_put_of_ne _ hne]
      exact hx p (List.perm_middle.symm.mem_iff.mp (List.mem_cons_of_mem _ hp))
    obtain ⟨order, horder, hwritten⟩ := ih hnodup hothers hy hl front' hfront'
    have hlt := (passing_sectionRule part _ _ _ hv).trans_le hv.le_length
    have hne : (T.place k).rest ≠ [] := rest_place_ne_nil hlt
    refine ⟨part :: order, (horder.cons part).trans List.perm_middle.symm, ?_⟩
    have hsection := Contract.IsWritten.section semicolon (hfront.isLayout hne) hgap hstart
      hfragment hwritten
    rw [htext]
    simpa only [List.append_assoc] using hsection

end Track

/-- **A contract is its three fragments.** From accepted fragments a contract is read in
any order, with or without a semicolon behind the code. The text of a contract is made of
one section for each fragment, in some order, and of layout. -/
theorem Contract.parse_fragments :
    (∀ (c : Contract) (fragment : Part → String) (semicolon : Bool) (order : List Part),
      order.Perm [.parameter, .storage, .code] → (∀ part, c.HasFragment part (fragment part)) →
        Contract.parse ("\n".intercalate
          (order.map fun part => part.piece semicolon (fragment part))) = .ok c) ∧
    ∀ (text : String) (c : Contract), Contract.parse text = .ok c →
      ∃ order : List Part, order.Perm [.parameter, .storage, .code] ∧
        c.IsWritten order text.toList := by
  constructor
  · intro c fragment semicolon order horder hfragment
    choose front U htext hfront hU using fun part => Track.exists_of_hasFragment (hfragment part)
    obtain ⟨ls, htokens, hls, hfit⟩ := Lexemes.exists_of_pieces semicolon htext hfront order
    let T : Track := ⟨ls, Position.start, hfit⟩
    have hnodup : order.Nodup := horder.nodup_iff.mpr (by decide)
    obtain ⟨y, hrounds, hy⟩ := T.exists_rounds hU hnodup {} horder.symm (Nat.zero_le _) htokens
    have hall (part : Part) : y.get part = some (c.get part) := by
      rw [hy part, if_pos (horder.mem_iff.mpr (by cases part <;> decide))]
    refine (run_ok_iff respected_contractRule).mpr ⟨[], T, hls.symm, T.fills_nil_place 0, rfl, ?_⟩
    exact Track.yields_contractRule (Nat.zero_le _) hrounds hall
  · intro text c h
    obtain ⟨front, T, htext, hfront, -, hyields⟩ := (run_ok_iff respected_contractRule).mp h
    obtain ⟨y, hrounds, hy⟩ := hyields.of_gives (Track.gives_contractRule (Nat.zero_le _))
    have hempty (part : Part) (_ : part ∈ [Part.parameter, .storage, .code]) :
        Sections.get {} part = none := by cases part <;> rfl
    rw [htext]
    exact hrounds.exists_isWritten (by decide) hempty hy rfl front hfront

end Michelson
