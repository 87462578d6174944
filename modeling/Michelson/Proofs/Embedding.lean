import Michelson.Proofs.Nodes

/-!
# Tracks within tracks

A track whose tokens stand in another track is read there as it is read alone. A type
minds what follows it, but between a semicolon and the end of the text it sees no
difference. A block ends with the brace that closes it, and does not look further.

* `Track.Embeds` says that the tokens of a track stand in another one.
* `Track.Embeds.yields_type_iff` and `Track.Embeds.yields_block_iff` are the conclusions.
* `Track.exists_part` cuts a track out of another one, and `Lexemes.Fit.exists_closed`
  prepares a run of lexemes for text behind it.
-/

namespace Michelson

open Rule Grammar

/-! ## Lexemes before other text -/

theorem Layout.Fills.prepend {gap more rest : List Char} (h : Fills more rest)
    (hg : IsLayout gap) : Fills (gap ++ more) rest := by
  intro p
  rw [List.append_assoc, scan_append hg, h, Position.after_append]

namespace Lexeme

variable {l : Lexeme} {rest : List Char}

/-- A token with some layout behind it that is not empty. -/
theorem fits_of_isLayout (hv : l.token.isValid = true) (hg : IsLayout l.gap) (hne : l.gap ≠ [])
    (hr : Layout.Fills [] rest) : l.Fits rest :=
  ⟨hv, Token.endsBefore_of_isLayout hv hg hne rest, Layout.fills_of_isLayout hg hr⟩

/-- Behind a lexeme only the next character counts. -/
theorem Fits.of_head {rest' : List Char} (h : l.Fits rest) (hne : rest ≠ [])
    (hhead : rest'.head? = rest.head?) (hnil : Layout.Fills [] rest') : l.Fits rest' where
  isValid := h.isValid
  endsBefore := by
    have hends := h.endsBefore
    rw [List.head?_append] at hends
    rwa [List.head?_append, hhead]
  fills := Layout.fills_of_isLayout (h.fills.isLayout hne) hnil

/-- What fits before some text fits at the end of a text. -/
theorem Fits.at_end (h : l.Fits rest) (hne : rest ≠ []) : l.Fits [] := by
  have hgap := h.fills.isLayout hne
  rcases eq_or_ne l.gap [] with hnil | hcons
  · refine ⟨h.isValid, ?_, ?_⟩
    · rw [hnil]
      cases l.token <;> rfl
    · rw [hnil]
      exact Layout.fills_nil_nil
  · exact fits_of_isLayout h.isValid hgap hcons Layout.fills_nil_nil

end Lexeme

namespace Lexemes

theorem text_ne_nil {l : Lexeme} (h : l.token.isValid = true) (ls : List Lexeme) :
    text (l :: ls) ≠ [] := by
  rw [text_cons]
  exact List.append_ne_nil_of_left_ne_nil (Lexeme.text_ne_nil h) _

theorem Fit.at_end {ls : List Lexeme} {rest : List Char} (h : Fit ls rest) (hne : rest ≠ []) :
    Fit ls [] := by
  induction ls with
  | nil => trivial
  | cons l ls ih =>
    refine ⟨?_, ih h.2⟩
    cases ls with
    | nil => exact h.1.at_end hne
    | cons m ls =>
      have htext := text_ne_nil h.2.1.isValid ls
      refine h.1.of_head (List.append_ne_nil_of_left_ne_nil htext _) ?_ ?_
      · rw [List.head?_append_of_ne_nil _ htext, List.head?_append_of_ne_nil _ htext]
      · exact (ih h.2).fills_nil Layout.fills_nil_nil

/-- Lexemes at the end of a text, which may lack a line feed there, fit before other text
when they are given the line feed. -/
theorem Fit.exists_closed {ls : List Lexeme} (h : Fit ls []) (hne : ls ≠ [])
    {more rest : List Char} (hm : IsLayout more) (hr : Layout.Fills [] rest) :
    ∃ ls', tokens ls' = tokens ls ∧ text ls' = text ls ++ '\n' :: more ∧ Fit ls' rest := by
  induction ls with
  | nil => exact absurd rfl hne
  | cons l ls ih =>
    cases ls with
    | nil =>
      have hclosed : IsLayout (l.gap ++ '\n' :: more) := by
        have happend := h.1.fills.isLayout_append.append hm
        rwa [List.append_assoc] at happend
      refine ⟨[⟨l.token, l.gap ++ '\n' :: more⟩], rfl, by simp [Lexeme.text], ?_, trivial⟩
      exact Lexeme.fits_of_isLayout h.1.isValid hclosed (by simp) hr
    | cons m ls =>
      obtain ⟨ls', htokens, htext, hfit⟩ := ih h.2 (List.cons_ne_nil m ls)
      refine ⟨l :: ls', ?_, ?_, ?_, hfit⟩
      · rw [tokens_cons, htokens, ← tokens_cons]
      · rw [text_cons, htext, ← List.append_assoc, ← text_cons]
      · have hne := text_ne_nil h.2.1.isValid ls
        have hfits := h.1
        rw [List.append_nil] at hfits
        refine hfits.of_head hne ?_ (hfit.fills_nil hr)
        rw [htext, List.append_assoc, List.head?_append_of_ne_nil _ hne]

end Lexemes

/-! ## Levels of braces -/

/-- How a token changes the number of braces that are open. -/
def Token.rise (t : Token) : Int :=
  if t = mark '{' then 1 else if t = mark '}' then -1 else 0

namespace Track

variable {T U : Track} {k j i : Nat}

/-- The number of braces that are open at a place. -/
def level (T : Track) (k : Nat) : Int := ((T.tokens.take k).map Token.rise).sum

theorem level_zero (T : Track) : T.level 0 = 0 := by
  rw [level, List.take_zero]
  rfl

theorem level_succ {t : Token} (h : T.token? k = some t) :
    T.level (k + 1) = T.level k + t.rise := by
  rw [level, List.take_add_one, show T.tokens[k]? = some t from h, List.map_append, List.sum_append]
  exact congrArg _ (add_zero _)

theorem level_of_opening (h : T.token? k = some (.mark '{')) : T.level (k + 1) = T.level k + 1 := by
  rw [level_succ h, Token.rise, if_pos rfl]

theorem level_of_closing (h : T.token? k = some (.mark '}')) : T.level (k + 1) = T.level k - 1 := by
  rw [level_succ h, Token.rise, if_neg (by decide), if_pos rfl, Int.sub_eq_add_neg]

theorem level_of_ne {t : Token} (h : T.token? k = some t) (hopen : t ≠ .mark '{')
    (hclose : t ≠ .mark '}') : T.level (k + 1) = T.level k := by
  rw [level_succ h, Token.rise, if_neg hopen, if_neg hclose, add_zero]

/-- **Blocks are balanced.** Where a block ends, as many braces are open as where it
begins. -/
theorem Yields.level_eq {b : Block} (h : T.Yields Knot.full.block k b j) :
    T.level j = T.level k := by
  have hk := h.le.trans h.le_length
  have O : OnTracks .steady T T 0 := onTracks_steady (Nat.zero_add _).le
  have G : GuardedByLevel T T 0 fun d i => T.level i = T.level k + d - 1 := {
    near := fun _ _ => .inl (by rw [Nat.zero_add])
    step := fun hi ht hopen hclose => (level_of_ne ht hopen hclose).trans hi
    same := fun _ _ => by rw [Nat.zero_add]
    opening := fun hi ht => by
      rw [level_of_opening ht, hi]
      omega
    closing := fun _ hi ht => by
      rw [level_of_closing ht, hi]
      omega }
  have hkeeps := (O.placement G).keeps rfl rfl (fun _ _ => trivial) respected_block (T.length + 1)
    1 (T.length + 1) le_rfl le_rfl
  obtain ⟨s, hs⟩ := T.exists_state k
  obtain ⟨t, hrun, ht⟩ := h.run s hs
  have hsame := hkeeps s s ⟨k, hk, hs, by rw [Nat.zero_add, hs], by omega, by omega⟩ trivial
  change Setting.Alike _ _ _ (Knot.full.block none s) (Knot.full.block none s) at hsame
  rw [hrun] at hsame
  obtain ⟨-, ⟨i, hi, ht', -, hlevel, -⟩, -⟩ := hsame
  obtain rfl := place_injective h.le_length hi (ht.symm.trans ht')
  omega

/-! ## Embedded tracks -/

/-- The tokens of a track stand in another one, from a place on. -/
structure Embeds (U T : Track) (i : Nat) : Prop where
  bound : i + U.length ≤ T.length
  token? {k : Nat} : k < U.length → U.token? k = T.token? (i + k)

namespace Embeds

variable (h : U.Embeds T i)

include h

/-- A rule that keeps step from the beginning of a track and a place of another one on
reads the same in both. -/
theorem yields_iff {α : Type} {r : Rule α} (hU : U.Kept r) (hT : T.Kept r)
    (hsim : Sim .steady (fun c c' => c = U.place 0 ∧ c' = T.place i)
      (fun c c' => ∃ k ≤ U.length, c = U.place k ∧ c' = T.place (i + k)) Eq r r) (a : α) :
    U.Yields r 0 a U.length ↔ T.Yields r i a (i + U.length) := by
  have hbound := h.bound
  obtain ⟨s, hs⟩ := U.exists_state 0
  obtain ⟨s', hs'⟩ := T.exists_state i
  have halike := hsim s s' ⟨hs, hs'⟩ trivial
  change Setting.Alike _ _ _ (r none s) (r none s') at halike
  constructor
  · intro hyields
    obtain ⟨t, hrun, ht⟩ := hyields.run s hs
    rw [hrun] at halike
    rcases hrun' : r none s' with ⟨b | _ | stop, t'⟩ <;> rw [hrun'] at halike
    case ok =>
      obtain ⟨rfl, ⟨k, hk, htk, htk'⟩, -⟩ := halike
      obtain rfl := place_injective le_rfl hk (ht.symm.trans htk)
      obtain ⟨j, hj, htj⟩ := hT.yields (by omega) hs' hrun'
      rwa [place_injective hbound hj.le_length (htk'.symm.trans htj)]
    all_goals exact halike.elim
  · intro hyields
    obtain ⟨t', hrun', ht'⟩ := hyields.run s' hs'
    rw [hrun'] at halike
    rcases hrun : r none s with ⟨b | _ | stop, t⟩ <;> rw [hrun] at halike
    case ok =>
      obtain ⟨rfl, ⟨k, hk, htk, htk'⟩, -⟩ := halike
      have heq := place_injective hbound (by omega) (ht'.symm.trans htk')
      obtain rfl : k = U.length := by omega
      obtain ⟨j, hj, htj⟩ := hU.yields (Nat.zero_le _) hs hrun
      rwa [place_injective le_rfl hj.le_length (htk.symm.trans htj)]
    all_goals exact halike.elim

/-- **Types within a track.** A type is read the same before a semicolon as at the end of
a text. -/
theorem yields_type_iff (hsemi : T.token? (i + U.length) = some (.mark ';')) (t : Ty) :
    U.Yields Knot.full.plainType 0 t U.length ↔
      T.Yields Knot.full.plainType i t (i + U.length) := by
  have O : OnTracks .steady U T i := onTracks_steady h.bound
  have G : Guarded U T i fun _ _ => True := {
    near := fun {_ k} _ hk => by
      rcases hk.lt_or_eq with hk | rfl
      · exact .inl (h.token? hk)
      · exact .inr ⟨U.token?_length, hsemi⟩
    step := fun _ _ _ _ => trivial }
  have hkeeps := (O.typePlacement G).keepsType (U.length + 1) 1 (U.length + 1) le_rfl le_rfl
  refine h.yields_iff kept_plainType kept_plainType (hkeeps.weaken ?_ ?_ fun _ _ h => h) t
  · rintro c c' ⟨rfl, rfl⟩
    exact ⟨0, Nat.zero_le _, rfl, rfl, trivial, by omega⟩
  · rintro c c' ⟨k, hk, rfl, rfl, -, -⟩
    exact ⟨k, hk, rfl, rfl⟩

/-- Levels within an embedded track. -/
theorem level_add : ∀ k ≤ U.length, T.level (i + k) = T.level i + U.level k := by
  intro k hk
  induction k with
  | zero => rw [level_zero, add_zero, add_zero]
  | succ k ih =>
    obtain ⟨l, ht, -⟩ := U.exists_lexeme hk
    have ht' := h.token? hk
    rw [ht] at ht'
    rw [level_succ ht, ← Nat.add_assoc, level_succ ht'.symm, ih (by omega), add_assoc]

omit h in
/-- Where a brace is open the end of a track is not reached, for no brace is open there. -/
theorem lt_of_level (hlevel : U.level U.length = 0) {d : Nat} (hd : 1 ≤ d) (hk : k ≤ U.length)
    (hkd : U.level k = d) : k < U.length := by
  refine hk.lt_of_ne fun heq => ?_
  rw [heq, hlevel] at hkd
  omega

theorem guarded_inside (hlevel : U.level U.length = 0) :
    GuardedByLevel U T i fun d k => 1 ≤ d ∧ U.level k = d ∧ k < U.length where
  near := fun hk _ => .inl (h.token? hk.2.2)
  step := fun {d k _} ⟨hd, hk, hlt⟩ ht hne hne' => by
    have hnext : U.level (k + 1) = d := (level_of_ne ht hne hne').trans hk
    exact ⟨hd, hnext, lt_of_level hlevel hd hlt hnext⟩
  same := fun hk _ => h.token? hk.2.2
  opening := fun {d k} ⟨hd, hk, hlt⟩ ht => by
    have hnext : U.level (k + 1) = (d + 1 : Nat) := by
      rw [level_of_opening ht, hk, Nat.cast_succ]
    exact ⟨by omega, hnext, lt_of_level hlevel (by omega) hlt hnext⟩
  closing := fun {d k} hd ⟨_, hk, hlt⟩ ht => by
    have hnext : U.level (k + 1) = d := by
      rw [level_of_closing ht, hk]
      omega
    exact ⟨hd, hnext, lt_of_level hlevel hd hlt hnext⟩

/-- A block in braces keeps step on both tracks up to the brace that closes it. -/
theorem sim_block (hopen : U.token? 0 = some (.mark '{')) (hlevel : U.level U.length = 0) :
    Sim .steady (fun c c' => c = U.place 0 ∧ c' = T.place i)
      (fun c c' => ∃ k ≤ U.length, c = U.place k ∧ c' = T.place (i + k)) Eq Knot.full.block
      Knot.full.block := by
  have O : OnTracks .steady U T i := onTracks_steady h.bound
  have A := O.placement (h.guarded_inside hlevel)
  rw [← blockRule_full, blockRule_eq]
  have hmarking (pre : Cursor → Cursor → Prop) :
      Sim .steady pre pre Eq (marking .block) (marking .block) :=
    fun _ _ hpre _ => ⟨rfl, hpre, trivial⟩
  refine O.nested ((hmarking _).bind fun _ _ _ => ?_)
  refine A.braced (d := 0) (k := U.length) (fun _ _ _ => trivial) ?_ ?_ ?_
  · rw [symbol_eq]
    rintro s s' ⟨hs, hs'⟩ hmem
    have hlt := OnTracks.lt_of_token? (Nat.zero_le _) hopen
    have htable : readSymbol '{' (U.token? 0) = readSymbol '{' (T.token? (i + 0)) := by
      rw [h.token? hlt]
    refine O.lexical (lexical_symbol (by decide)) (Nat.zero_le _) htable (fun t a _ _ => ?_) hs hs'
      hmem
    have hone : U.level 1 = (1 : Nat) := by
      rw [level_of_opening hopen, level_zero]
      rfl
    have hlt' := lt_of_level hlevel le_rfl hlt hone
    exact ⟨1, hlt, rfl, rfl, ⟨le_rfl, hone, hlt'⟩, by omega⟩
  · rw [symbol_eq]
    rintro m - s s' ⟨k, hk, hs, hs', ⟨-, -, hlt⟩, -⟩ hmem
    have htable : readSymbol '}' (U.token? k) = readSymbol '}' (T.token? (i + k)) := by
      rw [h.token? hlt]
    exact O.lexical (lexical_symbol (by decide)) hk htable (fun t a _ _ => ⟨k + 1, hlt, rfl, rfl⟩)
      hs hs' hmem
  · intro m _
    exact A.keeps rfl rfl (fun _ _ => trivial) respected_step m 1 m le_rfl le_rfl

/-- **Blocks within a track.** A block is read the same whatever follows it. -/
theorem yields_block_iff (hopen : U.token? 0 = some (.mark '{')) (hlevel : U.level U.length = 0)
    (b : Block) : U.Yields Knot.full.block 0 b U.length ↔
      T.Yields Knot.full.block i b (i + U.length) :=
  h.yields_iff kept_block kept_block (h.sim_block hopen hlevel) b

end Embeds

/-! ## Cutting a track -/

/-- The part of a track between two places is a track of its own. -/
theorem exists_part (hij : i ≤ j) (hj : j ≤ T.length) : ∃ U : Track, U.origin = Position.start ∧
    U.length = j - i ∧ U.Embeds T i ∧ (T.place i).rest = U.text ++ (T.place j).rest := by
  have hsplit : T.lexemes.drop i = (T.lexemes.drop i).take (j - i) ++ T.lexemes.drop j := by
    conv_lhs => rw [← List.take_append_drop (j - i) (T.lexemes.drop i), List.drop_drop,
      Nat.add_sub_cancel' hij]
  have hlength : ((T.lexemes.drop i).take (j - i)).length = j - i := by
    rw [List.length_take, List.length_drop]
    exact Nat.min_eq_left (Nat.sub_le_sub_right hj i)
  have hfit : Lexemes.Fit ((T.lexemes.drop i).take (j - i)) [] := by
    have hfit := T.fit
    rw [← List.take_append_drop i T.lexemes, Lexemes.fit_append, hsplit, Lexemes.fit_append] at hfit
    have hpart := hfit.2.1
    rw [List.append_nil] at hpart
    by_cases hnil : Lexemes.text (T.lexemes.drop j) = []
    · rwa [hnil] at hpart
    · exact hpart.at_end hnil
  refine ⟨⟨_, Position.start, hfit⟩, rfl, hlength, ⟨?_, fun {k} hk => ?_⟩, ?_⟩
  · change i + ((T.lexemes.drop i).take (j - i)).length ≤ _
    rw [hlength]
    omega
  · have hk : k < j - i := hk.trans_eq hlength
    change (Lexemes.tokens ((T.lexemes.drop i).take (j - i)))[k]? = (Lexemes.tokens T.lexemes)[i + k]?
    rw [Lexemes.tokens, Lexemes.tokens, List.getElem?_map, List.getElem?_map,
      List.getElem?_take_of_lt hk, List.getElem?_drop]
  · change Lexemes.text (T.lexemes.drop i) = _ ++ Lexemes.text (T.lexemes.drop j)
    rw [Track.text, ← Lexemes.text_append, ← hsplit]

end Track

end Michelson
