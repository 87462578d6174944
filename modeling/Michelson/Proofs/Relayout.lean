import Michelson.Proofs.Track
import Michelson.Source.Layout

/-!
# Layout does not matter

Two texts that lay out the same tokens are tracks with the same tokens, so runs
keep step on them. The runs remember their furthest misses at the same token, and
therefore end with the same tree or with errors of the same kind and with the same
expectations: `parse_relayout`.
-/

namespace Michelson

open Rule

/-! ## Errors of the same kind -/

/-- Two errors that differ in their places only, or in the wording of a fault. -/
def Error.Alike (e e' : Error) : Prop := e.kind = e'.kind ∧ e.expected? = e'.expected?

/-- The same value, or errors of the same kind with the same expectations. -/
def SameOutcome {α : Type} : Except Error α → Except Error α → Prop
  | .ok a, .ok b => a = b
  | .error e, .error e' => e.Alike e'
  | _, _ => False

theorem canStartToken_of_mayStart {t : Token} {c : Char} (h : t.mayStart c = true) :
    canStartToken c = true := by
  cases t with
  | word letters =>
    have halpha : c.isAlpha = true := h
    simp [canStartToken, Char.isAlphanum, halpha]
  | integer negative digits =>
    rcases (Bool.or_eq_true _ _).mp h with hc | hc
    · obtain rfl := beq_iff_eq.mp hc
      decide
    · simp [canStartToken, Char.isAlphanum, hc]
  | bytes digits =>
    obtain rfl := beq_iff_eq.mp h
    decide
  | string written =>
    obtain rfl := beq_iff_eq.mp h
    decide
  | note σ body =>
    obtain rfl := beq_iff_eq.mp h
    cases σ <;> decide
  | mark d =>
    have hmarks : ∀ c ∈ Token.marks, canStartToken c = true := List.all_eq_true.mp (by decide)
    rw [Token.mayStart, Bool.and_eq_true, decide_eq_true_eq] at h
    exact hmarks c h.2

/-! ## The furthest misses on two tracks -/

namespace Track

variable {T T' : Track}

/-- The same furthest misses, at the same token of two tracks. -/
def SameFurthest (T T' : Track) : Option Furthest → Option Furthest → Prop
  | none, none => True
  | some f, some f' => ∃ k ≤ T.length, f.cursor = T.place k ∧ f'.cursor = T'.place k ∧
      f.expected = f'.expected
  | _, _ => False

theorem length_eq (h : T.tokens = T'.tokens) : T.length = T'.length := by
  rw [← length_tokens, h, length_tokens]

theorem token?_eq (h : T.tokens = T'.tokens) (k : Nat) : T.token? k = T'.token? k := by
  rw [token?, token?, h]

/-- One more miss at the same token keeps the furthest misses the same. -/
theorem sameFurthest_expect (htokens : T.tokens = T'.tokens) {s s' : State}
    {k : Nat} (what : Expectation) (hk : k ≤ T.length) (hs : s.cursor = T.place k)
    (hs' : s'.cursor = T'.place k) (h : SameFurthest T T' s.furthest s'.furthest) :
    SameFurthest T T' (s.expect what).furthest (s'.expect what).furthest := by
  have hlength := length_eq htokens
  change SameFurthest T T' (some (s.furthestAfter what)) (some (s'.furthestAfter what))
  rw [State.furthestAfter, State.furthestAfter, hs, hs']
  rcases hf : s.furthest with _ | f <;> rcases hf' : s'.furthest with _ | f' <;> rw [hf, hf'] at h
  case none.none => exact ⟨k, hk, rfl, rfl, rfl⟩
  case none.some | some.none => exact h.elim
  case some.some =>
    obtain ⟨j, hj, hc, hc', hexpected⟩ := h
    have hk' : k ≤ T'.length := hlength ▸ hk
    have hj' : j ≤ T'.length := hlength ▸ hj
    dsimp only
    rw [hc, hc', hexpected]
    -- offsets grow along both tracks, so both runs compare alike
    rcases lt_trichotomy k j with hlt | rfl | hlt
    · rw [if_pos ((T.offset_lt_iff hk hj).mpr hlt), if_pos ((T'.offset_lt_iff hk' hj').mpr hlt)]
      exact ⟨j, hj, hc, hc', hexpected⟩
    · rw [if_neg (lt_irrefl _), if_neg (lt_irrefl _), if_pos rfl, if_pos rfl]
      split
      · exact ⟨k, hk, hc, hc', hexpected⟩
      · exact ⟨k, hk, rfl, rfl, rfl⟩
    · have hgt := (T.offset_lt_iff hj hk).mpr hlt
      have hgt' := (T'.offset_lt_iff hj' hk').mpr hlt
      rw [if_neg hgt.asymm, if_neg hgt'.asymm, if_neg hgt.ne, if_neg hgt'.ne]
      exact ⟨k, hk, rfl, rfl, rfl⟩

/-- A place is the end of the text, or a token begins there. -/
theorem canStartToken_place {k : Nat} (hk : k ≤ T.length) :
    T.token? k = none ∧ (T.place k).peek? = none ∨
      (∃ t, T.token? k = some t) ∧ ∃ c, (T.place k).peek? = some c ∧ canStartToken c = true := by
  rcases hk.lt_or_eq with hk | rfl
  · right
    obtain ⟨l, htoken, hrest, hfit, -⟩ := T.exists_lexeme hk
    obtain ⟨c, cs, htext, -⟩ := Token.exists_text_eq hfit.isValid
    refine ⟨⟨_, htoken⟩, c, ?_, ?_⟩
    · rw [Cursor.peek?, hrest, Lexeme.text, htext]
      rfl
    · exact canStartToken_of_mayStart (Token.mayStart_of_text hfit.isValid htext)
  · left
    rw [T.token?_length, Cursor.peek?, rest_place_length]
    exact ⟨rfl, rfl⟩

end Track

/-! ## Runs that report alike -/

/-- Runs without a limit on two tracks, with what they report about misses. -/
def Setting.reporting (T T' : Track) : Setting where
  limit := none
  limit' := none
  memory s s' := Track.SameFurthest T T' s.furthest s'.furthest
  placed _ _ := True
  halts stop _ stop' _ := ∃ e e', stop = .error e ∧ stop' = .error e' ∧ e.Alike e'
  excused _ := False
  excused' _ := False
  moved _ h := h

variable {T T' : Track} (htokens : T.tokens = T'.tokens)

include htokens

theorem onTracks_reporting : OnTracks (.reporting T T') T T' 0 where
  limit := rfl
  limit' := rfl
  placed _ _ := trivial
  bound := by rw [Nat.zero_add, Track.length_eq htokens]
  expect what hk hs hs' hmem := by
    rw [Nat.zero_add] at hs'
    exact Track.sameFurthest_expect htokens what hk hs hs' hmem
  log _ _ h := h
  depth _ _ h := h
  raised hkind hexpected _ := ⟨_, _, rfl, rfl, hkind, hexpected⟩
  halts_depth _ _ h := h

theorem guarded_reporting : GuardedByLevel T T' 0 fun _ _ => True where
  near _ _ := .inl (by rw [Nat.zero_add, Track.token?_eq htokens])
  step _ _ _ _ := trivial
  same _ _ := by rw [Nat.zero_add, Track.token?_eq htokens]
  opening _ _ := trivial
  closing _ _ _ := trivial

theorem endOfInput_reporting (d n : Nat) :
    Sim (.reporting T T') (T.Places T' 0 (fun _ _ => True) d n) (T.Places T' 0 (fun _ _ => True) d n)
      Eq endOfInput endOfInput := by
  rintro s s' ⟨k, hk, hs, hs', hg, hn⟩ hmem
  rw [Nat.zero_add] at hs'
  have hk' : k ≤ T'.length := Track.length_eq htokens ▸ hk
  change Setting.Alike _ _ _ (endOfInput none s) (endOfInput none s')
  rw [endOfInput, peek?_bind, peek?_bind, hs, hs']
  have htoken := Track.token?_eq htokens k
  rcases Track.canStartToken_place hk with ⟨hnone, hpeek⟩ | ⟨⟨t, ht⟩, c, hpeek, -⟩
  all_goals rcases Track.canStartToken_place hk' with ⟨hnone', hpeek'⟩ | ⟨⟨t', ht'⟩, c', hpeek', -⟩
  case inl.inl =>
    rw [show (T.place k).rest.head? = none from hpeek, show (T'.place k).rest.head? = none from hpeek']
    exact ⟨rfl, ⟨k, hk, hs, (Nat.zero_add k).symm ▸ hs', hg, hn⟩, hmem⟩
  case inr.inr =>
    rw [show (T.place k).rest.head? = some c from hpeek,
      show (T'.place k).rest.head? = some c' from hpeek']
    exact Track.sameFurthest_expect htokens _ hk hs hs' hmem
  case inl.inr =>
    rw [hnone, ht'] at htoken
    cases htoken
  case inr.inl =>
    rw [ht, hnone'] at htoken
    cases htoken

omit htokens in
/-- No character at a place of a track begins no token. -/
theorem Furthest.error_place {f : Furthest} {k : Nat} (hk : k ≤ T.length)
    (hf : f.cursor = T.place k) :
    f.error = if .noteBody ∈ f.expected then .note f.cursor.position f.expected
      else .grammar f.cursor.position f.expected := by
  rw [Furthest.error, hf]
  split
  · rfl
  · rcases Track.canStartToken_place hk with ⟨-, hpeek⟩ | ⟨-, c, hpeek, hc⟩
    · rw [hpeek]
    · rw [hpeek]
      exact if_pos hc

/-- The errors made from the same furthest misses are alike. -/
theorem error_alike {s s' : State} (h : T.SameFurthest T' s.furthest s'.furthest) :
    s.error.Alike s'.error := by
  rw [State.error, State.error]
  rcases hf : s.furthest with _ | f <;> rcases hf' : s'.furthest with _ | f' <;> rw [hf, hf'] at h
  case none.none => exact ⟨rfl, rfl⟩
  case none.some | some.none => exact h.elim
  case some.some =>
    obtain ⟨k, hk, hc, hc', hexpected⟩ := h
    dsimp only
    rw [Furthest.error_place hk hc, Furthest.error_place (Track.length_eq htokens ▸ hk) hc',
      hexpected]
    split <;> exact ⟨rfl, rfl⟩

/-- Replies that are alike have the same outcome. -/
theorem result_alike {α : Type} {post : Cursor → Cursor → Prop} {x y : Reply α}
    (h : (Setting.reporting T T').Alike post Eq x y) : SameOutcome x.result y.result := by
  revert h
  rcases x with ⟨a | _ | stop, t⟩ <;> rcases y with ⟨b | _ | stop', t'⟩ <;> intro h
  case ok.ok => exact h.1
  case miss.miss => exact error_alike htokens h
  case halt.halt =>
    rcases h with h | h | ⟨e, e', rfl, rfl, halike⟩
    · exact h.elim
    · exact h.elim
    · exact halike
  all_goals exact h.elim

omit htokens in
/-- A rule of the full grammar reads two layouts of the same tokens alike. -/
theorem run_relayout {α : Type} {rule : Grammar.Knot → Rule α} (hr : Grammar.Respected rule)
    {ts : List Token} (hv : ∀ t ∈ ts, t.isValid = true) {x y : List Char} (hx : LaysOut ts x)
    (hy : LaysOut ts y) :
    SameOutcome (Grammar.run rule none x).result (Grammar.run rule none y).result := by
  obtain ⟨front, T, rfl, hfront, horigin, hT⟩ := hx.exists_track hv
  obtain ⟨front', T', rfl, hfront', horigin', hT'⟩ := hy.exists_track hv
  have htokens : T.tokens = T'.tokens := hT.trans hT'.symm
  have hrule := (onTracks_reporting htokens).placement (guarded_reporting htokens)
    |>.keeps rfl rfl (fun _ _ => trivial) hr (T.length + 1) 1 (T.length + 1) le_rfl le_rfl
  have hrun := (hrule.bind fun a b hab => (endOfInput_reporting htokens 1 _).bind
    fun _ _ _ => Sim.pure hab) { State.initial (front ++ T.text) with cursor := T.place 0 }
    { State.initial (front' ++ T'.text) with cursor := T'.place 0 }
    ⟨0, Nat.zero_le _, rfl, rfl, trivial, Nat.lt_succ_of_le (Nat.sub_le _ _)⟩ trivial
  rw [Grammar.run_eq_full hr, Grammar.run_eq_full hr, Grammar.whole_of_layout _ (Track.layout_initial hfront horigin none),
    Grammar.whole_of_layout _ (Track.layout_initial hfront' horigin' none)]
  exact result_alike htokens hrun

omit htokens in
/-- **Layout does not matter.** Two layouts of the same tokens are read as the same
tree, or refused with errors of the same kind and with the same expectations. This
goes for contracts, types, values and blocks. -/
theorem parse_relayout {ts : List Token} (hv : ∀ t ∈ ts, t.isValid = true) {x y : String}
    (hx : LaysOut ts x.toList) (hy : LaysOut ts y.toList) :
    SameOutcome (Contract.parse x) (Contract.parse y) ∧ SameOutcome (Ty.parse x) (Ty.parse y) ∧
      SameOutcome (Data.parse x) (Data.parse y) ∧ SameOutcome (Block.parse x) (Block.parse y) :=
  ⟨run_relayout Grammar.respected_contractRule hv hx hy,
    run_relayout Grammar.respected_plainType hv hx hy,
    run_relayout Grammar.respected_value hv hx hy,
    run_relayout Grammar.respected_block hv hx hy⟩

omit htokens in
/-- A type with a note, on one line and with a comment in between. -/
theorem parse_relayout_unit :
    (∀ t ∈ [Token.word "unit".toList, .note .type "a".toList], t.isValid = true) ∧
      LaysOut [.word "unit".toList, .note .type "a".toList] "unit :a".toList ∧
      LaysOut [.word "unit".toList, .note .type "a".toList] " unit # none\n :a\n".toList ∧
      SameOutcome (Ty.parse "unit :a") (Ty.parse " unit # none\n :a\n") := by
  have hv : ∀ t ∈ [Token.word "unit".toList, .note .type "a".toList], t.isValid = true := by decide
  have hspace : IsLayout [' '] := .blank isBlank_space .empty
  have hx : LaysOut [.word "unit".toList, .note .type "a".toList] "unit :a".toList :=
    .cons .empty hspace (List.cons_ne_nil _ _) (.last .empty .empty)
  have hline : IsLayout ('#' :: (" none".toList ++ '\n' :: [' '])) := .line (by decide) hspace
  have hcomment : IsLayout " # none\n ".toList := .blank isBlank_space hline
  have hy : LaysOut [.word "unit".toList, .note .type "a".toList] " unit # none\n :a\n".toList :=
    .cons hspace hcomment (List.cons_ne_nil _ _) (.last .empty (.blank isBlank_newline .empty))
  exact ⟨hv, hx, hy, (parse_relayout hv hx hy).2.1⟩

end Michelson
