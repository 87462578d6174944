import Michelson.Proofs.Keeping

/-!
# Tracks

A track is a run of lexemes up to the end of a text. A cursor on it stands in
front of one of its tokens, or at the end. Without a limit on nesting, a lexical
rule that begins on a track ends on it, and all that counts is the next token.

* `Track.lexical_run` says what a lexical rule does.
* `Track.placement` and `Track.typePlacement` let two runs keep step on two tracks
  of which one is a part of the other.
-/

namespace Michelson

open Rule

/-- A run of lexemes up to the end of a text, and the place where it begins. -/
structure Track where
  lexemes : List Lexeme
  origin : Position
  fit : Lexemes.Fit lexemes []

namespace Track

/-- The number of lexemes. -/
def length (T : Track) : Nat := T.lexemes.length

/-- The characters of a track. -/
def text (T : Track) : List Char := Lexemes.text T.lexemes

/-- The tokens of a track. -/
def tokens (T : Track) : List Token := Lexemes.tokens T.lexemes

/-- The token with a number, or none at the end. -/
def token? (T : Track) (k : Nat) : Option Token := T.tokens[k]?

/-- The cursor in front of the lexeme with a number, or at the end. -/
def place (T : Track) (k : Nat) : Cursor :=
  ⟨Lexemes.text (T.lexemes.drop k), T.origin.after (Lexemes.text (T.lexemes.take k))⟩

variable (T : Track)

@[simp]
theorem length_tokens : T.tokens.length = T.length := List.length_map ..

theorem token?_length : T.token? T.length = none :=
  List.getElem?_eq_none T.length_tokens.le

/-- No place lies behind the end. -/
theorem place_length_succ : T.place (T.length + 1) = T.place T.length := by
  rw [place, place, length, List.drop_length, List.take_length,
    List.drop_of_length_le (Nat.le_succ _), List.take_of_length_le (Nat.le_succ _)]

theorem rest_place_length : (T.place T.length).rest = [] := by
  rw [place, length, List.drop_length]
  rfl

/-- A lexeme stands at every place but the last. -/
theorem exists_lexeme {k : Nat} (hk : k < T.length) :
    ∃ l : Lexeme, T.token? k = some l.token ∧ (T.place k).rest = l.text ++ (T.place (k + 1)).rest ∧
      l.Fits (T.place (k + 1)).rest ∧ (T.place k).skip l.text.length = T.place (k + 1) := by
  have hdrop : T.lexemes.drop k = T.lexemes[k] :: T.lexemes.drop (k + 1) :=
    List.drop_eq_getElem_cons hk
  have hrest : (T.place k).rest = T.lexemes[k].text ++ (T.place (k + 1)).rest := by
    rw [place, hdrop]
    rfl
  refine ⟨T.lexemes[k], ?_, hrest, ?_, ?_⟩
  · rw [token?, tokens, Lexemes.tokens, List.getElem?_map, List.getElem?_eq_getElem hk]
    rfl
  · have hfit := T.fit
    rw [← List.take_append_drop k T.lexemes, Lexemes.fit_append, hdrop, Lexemes.Fit] at hfit
    rw [place, ← List.append_nil (Lexemes.text _)]
    exact hfit.2.1
  · rw [Cursor.skip_eq, hrest, List.drop_left, List.take_left]
    have htake : T.lexemes.take (k + 1) = T.lexemes.take k ++ [T.lexemes[k]] :=
      List.take_succ_eq_append_getElem hk
    rw [place, place, htake, Lexemes.text_append, Position.after_append, Lexemes.text_cons,
      Lexemes.text_nil, List.append_nil]

end Track

/-! ## Lengths and offsets -/

theorem Lexemes.length_le_text {ls : List Lexeme} {ending : List Char} (h : Lexemes.Fit ls ending) :
    ls.length ≤ (Lexemes.text ls).length := by
  induction ls with
  | nil => exact le_rfl
  | cons l ls ih =>
    have hpos := List.length_pos_iff.mpr (Lexeme.text_ne_nil h.1.isValid)
    have hle := ih h.2
    rw [Lexemes.text_cons, List.length_append, List.length_cons]
    omega

theorem Position.offset_lt_after (p : Position) {cs : List Char} (h : cs ≠ []) :
    p.offset < (p.after cs).offset := by
  have hadvance (p : Position) (c : Char) : p.offset < (p.advance c).offset := by
    have hpos := c.utf8Size_pos
    rw [Position.advance]
    split <;> exact Nat.lt_add_of_pos_right hpos
  induction cs generalizing p with
  | nil => exact absurd rfl h
  | cons c cs ih =>
    rw [Position.after_cons]
    rcases eq_or_ne cs [] with rfl | hne
    · exact hadvance p c
    · exact (hadvance p c).trans (ih _ hne)

namespace Track

variable (T : Track)

/-- The lexemes that are left have a character each. -/
theorem le_length_rest (k : Nat) : T.length - k ≤ (T.place k).rest.length := by
  have hfit := T.fit
  rw [← List.take_append_drop k T.lexemes, Lexemes.fit_append] at hfit
  have hle := Lexemes.length_le_text hfit.2
  rw [List.length_drop] at hle
  exact hle

theorem offset_lt {k j : Nat} (hkj : k < j) (hj : j ≤ T.length) :
    (T.place k).position.offset < (T.place j).position.offset := by
  induction j, hkj using Nat.le_induction with
  | base =>
    obtain ⟨l, -, hrest, hfit, hskip⟩ := T.exists_lexeme hj
    rw [← hskip, Cursor.skip_eq, hrest, List.take_left]
    exact Position.offset_lt_after _ (Lexeme.text_ne_nil hfit.isValid)
  | succ j hkj ih =>
    obtain ⟨l, -, hrest, hfit, hskip⟩ := T.exists_lexeme hj
    refine (ih (Nat.le_of_succ_le hj)).trans ?_
    rw [← hskip, Cursor.skip_eq, hrest, List.take_left]
    exact Position.offset_lt_after _ (Lexeme.text_ne_nil hfit.isValid)

/-- Offsets grow along a track. -/
theorem offset_lt_iff {k j : Nat} (hk : k ≤ T.length) (hj : j ≤ T.length) :
    (T.place k).position.offset < (T.place j).position.offset ↔ k < j := by
  constructor
  · intro h
    by_contra hkj
    rcases (Nat.not_lt.mp hkj).lt_or_eq with hlt | rfl
    · exact absurd (T.offset_lt hlt hk) h.asymm
    · exact absurd h (lt_irrefl _)
  · exact fun h => T.offset_lt h hj

/-- A parenthesis at a place is the token there. -/
theorem head?_place {k : Nat} (hk : k ≤ T.length) {c : Char} (hc : c ∈ Token.marks) :
    (T.place k).rest.head? = some c ↔ T.token? k = some (.mark c) := by
  rcases hk.lt_or_eq with hk | rfl
  · obtain ⟨l, htoken, hrest, hfit, -⟩ := T.exists_lexeme hk
    obtain ⟨d, cs, htext, -⟩ := Token.exists_text_eq hfit.isValid
    rw [htoken, hrest, Lexeme.text, htext, List.cons_append, List.cons_append, List.head?_cons]
    constructor
    · intro h
      obtain rfl := Option.some.inj h
      rw [Token.eq_mark_of_text hfit.isValid hc htext]
    · intro h
      rw [Option.some.inj h] at htext
      exact congrArg some (List.cons.inj htext).1.symm
  · rw [rest_place_length, token?_length]
    constructor <;> rintro ⟨⟩

end Track

/-- The layout in front of a track is passed. -/
theorem Track.layout_initial {T : Track} {front : List Char} (hfront : Layout.Fills front T.text)
    (horigin : T.origin = Position.start.after front) (limit : Option Nat) :
    Rule.layout limit (State.initial (front ++ T.text)) =
      ⟨.ok (), { State.initial (front ++ T.text) with cursor := T.place 0 }⟩ := by
  rw [layout_past hfront rfl, State.past, Cursor.skip_eq]
  change (⟨.ok (), { State.initial _ with
    cursor := ⟨(front ++ T.text).drop front.length,
      Position.start.after ((front ++ T.text).take front.length)⟩ }⟩ : Reply Unit) = _
  rw [List.drop_left, List.take_left, ← horigin]
  rfl

/-- A text that lays out valid tokens is a track behind the layout in front. -/
theorem LaysOut.exists_track {ts : List Token} {cs : List Char} (h : LaysOut ts cs)
    (hv : ∀ t ∈ ts, t.isValid = true) :
    ∃ (front : List Char) (T : Track), cs = front ++ T.text ∧ Layout.Fills front T.text ∧
      T.origin = Position.start.after front ∧ T.tokens = ts := by
  obtain ⟨front, ls, rfl, hts, hfront, hfit⟩ := h.lexemes hv
  have hnil := hfit.fills_nil Layout.fills_nil_nil
  rw [List.append_nil] at hnil
  exact ⟨front, ⟨ls, Position.start.after front, hfit⟩, rfl, Layout.fills_of_isLayout hfront hnil,
    rfl, hts⟩

/-! ## Lexical rules on tracks -/

/-- How a rule ends that reads a token as its table says, where `next` is the place
behind the token. -/
def Reading.Ends {α : Type} (s : State) (next : Cursor) : Reading α → Reply α → Prop
  | taken a, x => x = ⟨.ok a, { s with cursor := next }⟩
  | missed, x => x = ⟨.miss, s⟩
  | refused what, x => x = ⟨.miss, s.expect what⟩
  | stopped kind, x => ∃ e : Error, e.kind = kind ∧ e.expected? = none ∧
      x = ⟨.halt (.error e), s.log (.raised e)⟩

/-- What acts on an answer ends as the reading says. -/
theorem Answer.Shows.ends {α : Type} {length : Nat} {answer : Answer α} {reading : Reading α}
    (h : answer.Shows length reading) {limit : Option Nat} {s : State} {next : Cursor}
    (hs : token length limit s = ⟨.ok (), { s with cursor := next }⟩) :
    reading.Ends s next (answer.act limit s) := by
  cases answer with
  | taken n a =>
    cases reading with
    | taken b =>
      obtain ⟨rfl, rfl⟩ := h
      exact bind_ok hs
    | _ => exact h.elim
  | missed =>
    cases reading with
    | missed => rfl
    | _ => exact h.elim
  | refused skip what =>
    cases reading with
    | refused what' =>
      obtain ⟨rfl, rfl⟩ := h
      rfl
    | _ => exact h.elim
  | returned n what =>
    cases reading with
    | refused what' =>
      obtain ⟨rfl, rfl⟩ := h
      rw [act, cursor_bind, bind_ok hs]
      rfl
    | _ => exact h.elim
  | stopped e =>
    cases reading with
    | stopped kind => exact ⟨_, (h s.cursor.position).1, (h s.cursor.position).2, rfl⟩
    | _ => exact h.elim

/-- In front of a lexeme a lexical rule minds the token only. -/
theorem Lexical.ends {α : Type} {look : List Char → Answer α} {table : Option Token → Reading α}
    (h : Lexical look table) {l : Lexeme} {tail : List Char} (hfit : l.Fits tail) {s : State}
    (hs : s.cursor.rest = l.text ++ tail) (limit : Option Nat) :
    (table (some l.token)).Ends s (s.cursor.skip l.text.length) (lexical look limit s) := by
  rw [Lexeme.text, List.append_assoc] at hs
  rw [lexical_run, hs]
  refine (h.shows hfit.isValid hfit.endsBefore).ends ?_
  have hlayout := layout_past hfit.fills (State.rest_past hs) limit
  rwa [← State.past_append] at hlayout

namespace Track

variable {T : Track} {α : Type} {look : List Char → Answer α} {table : Option Token → Reading α}

/-- **Lexical rules on a track.** What counts is the next token. -/
theorem lexical_ends (h : Lexical look table) {k : Nat} (hk : k ≤ T.length) {s : State}
    (hs : s.cursor = T.place k) (limit : Option Nat) :
    (table (T.token? k)).Ends s (T.place (k + 1)) (lexical look limit s) := by
  rcases hk.lt_or_eq with hk | rfl
  · obtain ⟨l, htoken, hrest, hfit, hskip⟩ := T.exists_lexeme hk
    have hends := h.ends hfit (hs ▸ hrest) limit
    rwa [hs, hskip, ← htoken] at hends
  · rw [lexical_run, hs, token?_length, rest_place_length]
    have hlayout := layout_past Layout.fills_nil_nil (s := s) (by rw [hs, rest_place_length]; rfl)
      limit
    refine h.atEnd.ends (hlayout.trans ?_)
    rw [State.past_nil, place_length_succ, ← hs]

end Track

/-- At the end of a text nothing is taken. -/
theorem Lexical.not_taken_none {α : Type} {look : List Char → Answer α}
    {table : Option Token → Reading α} (h : Lexical look table) (a : α) :
    table none ≠ .taken a := by
  intro hnone
  have hshows := h.atEnd
  rw [hnone] at hshows
  rcases hlook : look [] with ⟨n, b⟩ | _ | _ | _ | _ <;> rw [hlook] at hshows
  case taken =>
    obtain ⟨t, tail, hnil, -, hv, -⟩ := h.sound hlook
    exact Token.text_ne_nil hv (List.append_eq_nil_iff.mp hnil.symm).1
  all_goals exact hshows

theorem Rule.eq_mark_of_readSymbol {c : Char} {t : Token} {a : Unit}
    (h : readSymbol c (some t) = .taken a) : t = .mark c := by
  cases t with
  | mark d =>
    rw [readSymbol] at h
    split at h
    · rename_i hd
      rw [hd]
    · cases h
  | _ => cases h

/-! ## Two tracks -/

/-- A setting in which two runs without a limit stand on two tracks, the second `i`
tokens further on. -/
structure OnTracks (S : Setting) (T T' : Track) (i : Nat) : Prop where
  limit : S.limit = none
  limit' : S.limit' = none
  placed (c c' : Cursor) : S.placed c c'
  bound : i + T.length ≤ T'.length
  expect {s s' : State} {k : Nat} (what : Expectation) : k ≤ T.length → s.cursor = T.place k →
    s'.cursor = T'.place (i + k) → S.memory s s' → S.memory (s.expect what) (s'.expect what)
  log {s s' : State} (e e' : Event) : S.memory s s' → S.memory (s.log e) (s'.log e')
  depth {s s' : State} (d d' : Nat) : S.memory s s' →
    S.memory { s with depth := d } { s' with depth := d' }
  raised {s s' : State} {e e' : Error} : e.kind = e'.kind → e.expected? = e'.expected? →
    S.memory s s' → S.halts (.error e) s (.error e') s'
  halts_depth {stop stop' : Stop} {s s' : State} (d d' : Nat) : S.halts stop s stop' s' →
    S.halts stop { s with depth := d } stop' { s' with depth := d' }

/-- Corresponding places on two tracks. The guard says at which levels a place is
reached. -/
def Track.Places (T T' : Track) (i : Nat) (guard : Nat → Nat → Prop) : Places := fun d n c c' =>
  ∃ k ≤ T.length, c = T.place k ∧ c' = T'.place (i + k) ∧ guard d k ∧ T.length - k < n

/-- At guarded places the next tokens are the same, or the first track ends and the
second goes on with a semicolon. -/
structure Guarded (T T' : Track) (i : Nat) (guard : Nat → Nat → Prop) : Prop where
  near {d k : Nat} : guard d k → k ≤ T.length → T.token? k = T'.token? (i + k) ∨
    T.token? k = none ∧ T'.token? (i + k) = some (.mark ';')
  step {d k : Nat} {t : Token} : guard d k → T.token? k = some t → t ≠ .mark '{' → t ≠ .mark '}' →
    guard d (k + 1)

/-- At guarded places the next tokens are the same, and braces change the level. -/
structure GuardedByLevel (T T' : Track) (i : Nat) (guard : Nat → Nat → Prop) : Prop
    extends Guarded T T' i guard where
  same {d k : Nat} : guard d k → k ≤ T.length → T.token? k = T'.token? (i + k)
  opening {d k : Nat} : guard d k → T.token? k = some (.mark '{') → guard (d + 1) (k + 1)
  closing {d k : Nat} : 1 ≤ d → guard (d + 1) k → T.token? k = some (.mark '}') → guard d (k + 1)

namespace OnTracks

variable {S : Setting} {T T' : Track} {i : Nat} (O : OnTracks S T T' i)
  {guard : Nat → Nat → Prop} {α : Type} {look : List Char → Answer α}
  {table : Option Token → Reading α}

include O

/-- Lexical rules keep step where the tables say the same of the next tokens. -/
theorem lexical (h : Lexical look table) {post : Cursor → Cursor → Prop} {k : Nat}
    (hk : k ≤ T.length) (htable : table (T.token? k) = table (T'.token? (i + k)))
    (hpost : ∀ t a, T.token? k = some t → table (some t) = .taken a →
      post (T.place (k + 1)) (T'.place (i + (k + 1)))) {s s' : State} (hs : s.cursor = T.place k)
    (hs' : s'.cursor = T'.place (i + k)) (hmem : S.memory s s') :
    S.Alike post Eq (Rule.lexical look S.limit s) (Rule.lexical look S.limit' s') := by
  have hends := Track.lexical_ends h hk hs S.limit
  have hends' := Track.lexical_ends h (k := i + k) (by have := O.bound; omega) hs' S.limit'
  rw [← htable] at hends'
  rcases hread : table (T.token? k) with a | _ | what | kind <;> rw [hread] at hends hends'
  case taken =>
    rw [hends, hends']
    rcases ht : T.token? k with _ | t
    · rw [ht] at hread
      exact absurd hread (h.not_taken_none a)
    · rw [ht] at hread
      exact ⟨rfl, hpost t a ht hread, S.moved (O.placed _ _) hmem⟩
  case missed =>
    rw [hends, hends']
    exact hmem
  case refused =>
    rw [hends, hends']
    exact O.expect what hk hs hs' hmem
  case stopped =>
    obtain ⟨e, hkind, hexp, he⟩ := hends
    obtain ⟨e', hkind', hexp', he'⟩ := hends'
    rw [he, he']
    exact .inr (.inr (O.raised (hkind.trans hkind'.symm) (hexp.trans hexp'.symm) (O.log _ _ hmem)))

theorem nested {β : Type} {V : α → β → Prop} {pre post : Cursor → Cursor → Prop} {r : Rule α}
    {r' : Rule β} (h : Sim S pre post V r r') : Sim S pre post V (nested r) (nested r') := by
  intro s s' hs hmem
  have hrun := h { s with depth := s.depth + 1 } { s' with depth := s'.depth + 1 } hs
    (O.depth _ _ hmem)
  have hdeep := hrun.deeper (fun h => O.depth _ _ h) (fun h => O.halts_depth _ _ h)
  rw [O.limit, O.limit'] at hdeep ⊢
  exact hdeep

omit O in
theorem lt_of_token? {k : Nat} (hk : k ≤ T.length) {t : Token} (ht : T.token? k = some t) :
    k < T.length := by
  refine hk.lt_of_ne fun heq => ?_
  rw [heq, T.token?_length] at ht
  cases ht

/-- Lexical rules keep step where they make the same of the tokens at guarded places, and
what they take leads to guarded places. -/
theorem keepsLexical (h : Lexical look table) {d e : Nat}
    (hnear : ∀ {k : Nat}, guard d k → k ≤ T.length → table (T.token? k) = table (T'.token? (i + k)))
    (hstep : ∀ {k : Nat} {t : Token} {a : α}, guard d k → T.token? k = some t →
      table (some t) = .taken a → guard e (k + 1)) (n : Nat) :
    Sim S (T.Places T' i guard d n) (T.Places T' i guard e (n - 1)) Eq (Rule.lexical look)
      (Rule.lexical look) := by
  rintro s s' ⟨k, hk, hs, hs', hg, hn⟩ hmem
  refine O.lexical h hk (hnear hg hk) (fun t a ht htaken => ?_) hs hs' hmem
  have hlt := lt_of_token? hk ht
  exact ⟨k + 1, hlt, rfl, rfl, hstep hg ht htaken, by omega⟩

omit O in
/-- Where no brace is taken the level stays the same. -/
theorem step_of_takesNoBrace (G : Guarded T T' i guard) (hno : TakesNoBrace table) {d k : Nat}
    {t : Token} {a : α} (hg : guard d k) (ht : T.token? k = some t)
    (htaken : table (some t) = .taken a) : guard d (k + 1) := by
  refine G.step hg ht ?_ ?_
  · rintro rfl
    exact hno.opening a htaken
  · rintro rfl
    exact hno.closing a htaken

omit O in
theorem positive {d n : Nat} {c c' : Cursor} (h : T.Places T' i guard d n c c') : 0 < n := by
  obtain ⟨k, -, -, -, -, hn⟩ := h
  omega

omit O in
theorem weaken {d n m : Nat} {c c' : Cursor} (h : T.Places T' i guard d n c c') (hnm : n ≤ m) :
    T.Places T' i guard d m c c' := by
  obtain ⟨k, hk, hc, hc', hg, hn⟩ := h
  exact ⟨k, hk, hc, hc', hg, hn.trans_le hnm⟩

/-- Offsets tell the same on both tracks. -/
theorem offsets {d n m : Nat} {c c' e e' : Cursor} (h : T.Places T' i guard d n c c')
    (h' : T.Places T' i guard d m e e') :
    c.position.offset < e.position.offset ↔ c'.position.offset < e'.position.offset := by
  obtain ⟨k, hk, rfl, rfl, -⟩ := h
  obtain ⟨j, hj, rfl, rfl, -⟩ := h'
  have hbound := O.bound
  rw [T.offset_lt_iff hk hj, T'.offset_lt_iff (by omega) (by omega)]
  omega

/-- The number of tokens that are left bounds the degree. -/
theorem bounded {d n : Nat} {c c' : Cursor} (h : T.Places T' i guard d n c c') :
    ∃ m ≤ n, m ≤ c.rest.length + 1 ∧ m ≤ c'.rest.length + 1 ∧ T.Places T' i guard d m c c' := by
  obtain ⟨k, hk, rfl, rfl, hg, hn⟩ := h
  have hbound := O.bound
  have hrest := T.le_length_rest k
  have hrest' := T'.le_length_rest (i + k)
  exact ⟨T.length - k + 1, hn, by omega, by omega, k, hk, rfl, rfl, hg, Nat.lt_succ_self _⟩

/-- Types keep step at guarded places. -/
theorem typePlacement (G : Guarded T T' i guard) : TypePlacement S (T.Places T' i guard) where
  placed _ := O.placed _ _
  positive := positive
  weaken := weaken
  opens := by
    rintro d n _ _ ⟨k, hk, rfl, rfl, hg, -⟩
    have hbound := O.bound
    rw [T.head?_place hk (by decide), T'.head?_place (by omega) (by decide)]
    rcases G.near hg hk with h | ⟨h, h'⟩
    · rw [h]
    · rw [h, h']
      decide
  offsets := O.offsets
  nested := O.nested
  lexical := by
    intro d n α look table h hblind
    refine O.keepsLexical h (fun hg hk => ?_) (step_of_takesNoBrace G hblind.toTakesNoBrace) n
    rcases G.near hg hk with h | ⟨h, h'⟩
    · rw [h]
    · rw [h, h', hblind.semicolon]

/-- A brace leads to another level. -/
theorem brace (G : GuardedByLevel T T' i guard) {c : Char} (hc : c ∈ Token.marks) {d e n : Nat}
    (hstep : ∀ {k : Nat}, guard d k → T.token? k = some (.mark c) → guard e (k + 1)) :
    Sim S (T.Places T' i guard d n) (T.Places T' i guard e (n - 1)) Eq (symbol c) (symbol c) := by
  rw [symbol_eq]
  refine O.keepsLexical (lexical_symbol hc) (fun hg hk => by rw [G.same hg hk])
    (fun hg ht htaken => ?_) n
  obtain rfl := eq_mark_of_readSymbol htaken
  exact hstep hg ht

/-- All of the grammar keeps step at places that are guarded by their levels. -/
theorem placement (G : GuardedByLevel T T' i guard) : Placement S (T.Places T' i guard) where
  toTypePlacement := O.typePlacement G.toGuarded
  bounded := O.bounded
  expect := by
    rintro d n s s' what ⟨k, hk, hs, hs', -⟩ hmem
    exact O.expect what hk hs hs' hmem
  log _ _ hmem := O.log _ _ hmem
  plain h hplain := O.keepsLexical h (fun hg hk => by rw [G.same hg hk])
    (step_of_takesNoBrace G.toGuarded hplain.toTakesNoBrace) _
  bytes := O.keepsLexical lexical_bytes (fun hg hk => by rw [G.same hg hk])
    (step_of_takesNoBrace G.toGuarded takesNoBrace_bytes) _
  opening := O.brace G (by decide) G.opening
  closing hd := O.brace G (by decide) (G.closing hd)

end OnTracks

end Michelson
