import Mathlib.Data.List.DropRight
import Michelson.Proofs.Hereditary
import Michelson.Report

/-!
# Positions in the text

A position is told in three ways, and all three are computed while characters are
passed one by one. Here they are compared with what they mean: the part of the
text before the place has so many bytes, and so many line feeds; and so many
characters stand behind the last of these.

A state is placed in a text if its cursor and the record of the furthest miss are.
Every rule keeps this, however it backtracks, so all errors of a reading have true
positions.

* `Position.IsTrue` is what a position means.
* `State.Placed` is the invariant, and `hereditary_keepsPlaces` says that all rules
  keep it.
* `errors_truly_placed` is the statement about whole texts and about reports.
-/

namespace Michelson

open Rule

/-! ## What a position means -/

namespace Position

/-- The bytes of some text. -/
def size (cs : List Char) : Nat := (String.ofList cs).utf8ByteSize

/-- The position tells the place that parts the text in two: by the bytes before it, by
the line feeds before it, and by the characters since the last of these. -/
structure Parts (p : Position) (before after : List Char) (text : String) : Prop where
  text_eq : text.toList = before ++ after
  offset_eq : p.offset = size before
  line_eq : p.line = 1 + before.count '\n'
  column_eq : p.column = 1 + (before.rtakeWhile (· ≠ '\n')).length

/-- The position is one of the text. -/
def IsTrue (p : Position) (text : String) : Prop := ∃ before after, p.Parts before after text

theorem size_nil : size [] = 0 := by simp [size]

/-- One character more adds its own bytes. -/
theorem size_append_singleton (cs : List Char) (c : Char) :
    size (cs ++ [c]) = size cs + c.utf8Size := by
  simp [size, String.ofList_append]

/-- A position that is carried along a text tells the place behind it. -/
theorem parts_after (before after : List Char) :
    (start.after before).Parts before after (String.ofList (before ++ after)) := by
  induction before using List.reverseRecOn generalizing after with
  | nil => exact ⟨by simp, size_nil.symm, rfl, rfl⟩
  | append_singleton cs c ih =>
    obtain ⟨-, hoffset, hline, hcolumn⟩ := ih (c :: after)
    rw [Position.after_append, after_cons, after_nil, advance]
    by_cases hc : c = '\n'
    · subst hc
      rw [if_pos rfl]
      refine ⟨String.toList_ofList, ?_, ?_, ?_⟩
      · rw [size_append_singleton, hoffset]
      · rw [List.count_append, hline]
        rfl
      · rw [List.rtakeWhile_concat_neg _ _ _ (by simp)]
        rfl
    · rw [if_neg hc]
      refine ⟨String.toList_ofList, ?_, ?_, ?_⟩
      · rw [size_append_singleton, hoffset]
      · rw [List.count_append, List.count_singleton, if_neg (by simpa using hc), hline]
        rfl
      · rw [List.rtakeWhile_concat_pos _ _ _ (by simpa using hc), List.length_append, hcolumn]
        rfl

variable {p : Position} {text : String}

/-- The offset lies within the text, between two characters. -/
theorem IsTrue.isValid (h : p.IsTrue text) :
    p.offset ≤ text.utf8ByteSize ∧ (⟨p.offset⟩ : String.Pos.Raw).IsValid text := by
  obtain ⟨before, after, htext, hoffset, -, -⟩ := h
  have hsplit : text = String.ofList before ++ String.ofList after := by
    rw [← String.ofList_append, ← htext, String.ofList_toList]
  constructor
  · rw [hsplit, String.utf8ByteSize_append, hoffset]
    exact Nat.le_add_right _ _
  · rw [String.Pos.Raw.isValid_iff_exists_append]
    exact ⟨_, _, hsplit, congrArg String.Pos.Raw.mk hoffset⟩

end Position

/-! ## States that are placed in a text -/

namespace Cursor

/-- The cursor stands in the text. -/
def Within (c : Cursor) (text : String) : Prop := (ofText text.toList).Ahead c

/-- What follows the cursor is the text from the offset of its position on. -/
theorem Within.parts {c : Cursor} {text : String} (h : c.Within text) :
    ∃ before, c.position.Parts before c.rest text := by
  obtain ⟨before, hrest, hpos⟩ := h
  have htext : text.toList = before ++ c.rest := hrest
  have hparts := Position.parts_after before c.rest
  rw [← htext, String.ofList_toList] at hparts
  exact ⟨before, hpos ▸ hparts⟩

/-- A cursor in a text has a true position. -/
theorem Within.isTrue {c : Cursor} {text : String} (h : c.Within text) :
    c.position.IsTrue text :=
  h.parts.imp fun _ hparts => ⟨_, hparts⟩

end Cursor

/-- The cursor stands in the text, and so does the record of the furthest miss. -/
structure State.Placed (text : String) (s : State) : Prop where
  cursor : s.cursor.Within text
  furthest : ∀ f, s.furthest = some f → f.cursor.Within text

/-- The error has a place in the text. -/
structure Error.Placed (text : String) (e : Error) : Prop where
  kind : e.kind ∈ ["lex", "syntax", "annotation", "literal", "depth"]
  position : ∃ c : Cursor, c.Within text ∧ e.position? = some c.position

namespace State.Placed

variable {text : String} {s : State}

/-- In the beginning the whole text is left. -/
theorem initial (text : String) : (State.initial text.toList).Placed text :=
  ⟨.refl _, fun _ h => nomatch h⟩

/-- The record does not move with the cursor. -/
theorem moved (h : s.Placed text) {c : Cursor} (hc : c.Within text) :
    State.Placed text { s with cursor := c } := ⟨hc, h.furthest⟩

theorem deeper (h : s.Placed text) (d : Nat) : State.Placed text { s with depth := d } :=
  ⟨h.cursor, h.furthest⟩

theorem log (h : s.Placed text) (e : Event) : (s.log e).Placed text := ⟨h.cursor, h.furthest⟩

/-- The record of the furthest miss is a miss here or one before. -/
theorem expect (h : s.Placed text) (what : Expectation) : (s.expect what).Placed text := by
  refine ⟨h.cursor, fun f hf => ?_⟩
  obtain rfl := Option.some.inj hf
  rw [furthestAfter]
  split
  · exact h.cursor
  · rename_i f hs
    have hf := h.furthest f hs
    split
    · exact hf
    · split
      · split
        · exact hf
        · exact hf
      · exact h.cursor

/-- An error that is made of the furthest miss has the place of the miss. -/
theorem error (h : s.Placed text) : s.error.Placed text := by
  rw [State.error]
  split
  · rename_i f hf
    have hc := h.furthest f hf
    rw [Furthest.error]
    split
    · exact ⟨by simp [Error.kind], _, hc, rfl⟩
    · split
      · exact ⟨by simp [Error.kind], _, hc, rfl⟩
      · split
        · exact ⟨by simp [Error.kind], _, hc, rfl⟩
        · exact ⟨by simp [Error.kind], _, hc, rfl⟩
  · exact ⟨by simp [Error.kind], _, h.cursor, rfl⟩

end State.Placed

/-- The error of a scan has a place in the text. -/
theorem Error.FoundFrom.placed {text : String} {c : Cursor} {e : Error} (h : e.FoundFrom c)
    (hc : c.Within text) : e.Placed text := by
  obtain ⟨c', ha, ⟨fault, rfl⟩ | ⟨fault, rfl⟩⟩ := h
  · exact ⟨by simp [Error.kind], c', hc.trans ha, rfl⟩
  · exact ⟨by simp [Error.kind], c', hc.trans ha, rfl⟩

/-! ## Rules keep places -/

/-- The reply has a state in the text, and so has an error that is raised. -/
structure Reply.Placed {α : Type} (text : String) (reply : Reply α) : Prop where
  state : reply.state.Placed text
  error : ∀ e, reply.verdict = .halt (.error e) → e.Placed text

namespace Rule

variable {α β : Type} {text : String}

/-- From a state in the text the rule gets to states in the text. -/
def KeepsPlaces (text : String) ⦃α : Type⦄ (r : Rule α) : Prop :=
  ∀ limit s, s.Placed text → (r limit s).Placed text

/-- Rules that raise no error have only their states to place. -/
theorem KeepsPlaces.of_state {r : Rule α}
    (hstate : ∀ limit s, s.Placed text → (r limit s).state.Placed text)
    (herror : ∀ limit s e, (r limit s).verdict ≠ .halt (.error e)) : KeepsPlaces text r :=
  fun limit s hs => ⟨hstate limit s hs, fun e he => absurd he (herror limit s e)⟩

theorem keepsPlaces_pure (a : α) : KeepsPlaces text (pure a : Rule α) :=
  .of_state (fun _ _ hs => hs) fun _ _ _ he => nomatch he

/-- The second rule starts from a state that is placed. -/
theorem keepsPlaces_bind {r : Rule α} {k : α → Rule β} (h : KeepsPlaces text r)
    (hk : ∀ a, r.Returns a → KeepsPlaces text (k a)) : KeepsPlaces text (r >>= k) := by
  intro limit s hs
  have hr := h limit s hs
  rcases hrun : r limit s with ⟨a | _ | stop, t⟩ <;> rw [hrun] at hr
  · rw [bind_ok hrun]
    exact hk a ⟨limit, s, t, hrun⟩ limit t hr.state
  · rw [bind_miss hrun]
    exact ⟨hr.state, fun _ he => nomatch he⟩
  · rw [bind_halt hrun]
    exact ⟨hr.state, fun e he => hr.error e (by cases he; rfl)⟩

theorem keepsPlaces_optional {r : Rule α} (h : KeepsPlaces text r) :
    KeepsPlaces text (optional r) := by
  intro limit s hs
  have hr := h limit s hs
  rw [optional]
  rcases hrun : r limit s with ⟨a | _ | stop, t⟩ <;> rw [hrun] at hr
  · exact ⟨hr.state, by rintro _ ⟨⟩⟩
  · exact ⟨hr.state.moved hs.cursor, by rintro _ ⟨⟩⟩
  · exact ⟨hr.state, fun e he => hr.error e (by cases he; rfl)⟩

theorem keepsPlaces_attempt {r : Rule α} (h : KeepsPlaces text r) :
    KeepsPlaces text (attempt r) := by
  intro limit s hs
  have hr := h limit s hs
  rw [attempt]
  rcases hrun : r limit s with ⟨a | _ | stop, t⟩ <;> rw [hrun] at hr
  · exact hr
  · exact ⟨hr.state.moved hs.cursor, by rintro _ ⟨⟩⟩
  · exact hr

/-- A rule that is run one level deeper. At the limit the error has the place of the
cursor. -/
theorem keepsPlaces_nested {r : Rule α} (h : KeepsPlaces text r) :
    KeepsPlaces text (nested r) := by
  intro limit s hs
  have hdeep : (deeper r limit s).Placed text :=
    have hr := h limit _ (hs.deeper (s.depth + 1))
    ⟨hr.state.deeper _, hr.error⟩
  cases limit with
  | none => exact hdeep
  | some l =>
    rw [nested_some]
    split
    · refine ⟨hs.log _, fun e he => ?_⟩
      cases he
      exact ⟨by simp [Error.kind], s.cursor, hs.cursor, rfl⟩
    · exact hdeep

/-- A member that reads nothing gives back the cursor with which it began. -/
theorem keepsPlaces_advancing {r : Rule α} (h : KeepsPlaces text r) :
    KeepsPlaces text (advancing r) := by
  intro limit s hs
  have hr := keepsPlaces_optional h limit s hs
  rw [advancing, cursor_bind]
  rcases hrun : optional r limit s with ⟨a? | _ | stop, t⟩ <;> rw [hrun] at hr
  · rw [bind_ok hrun]
    cases a? with
    | none => exact ⟨hr.state, fun _ he => nomatch he⟩
    | some a =>
      dsimp only
      rw [cursor_bind]
      split
      · exact ⟨hr.state, fun _ he => nomatch he⟩
      · exact ⟨hr.state.moved hs.cursor, fun _ he => nomatch he⟩
  · rw [bind_miss hrun]
    exact ⟨hr.state, fun _ he => nomatch he⟩
  · rw [bind_halt hrun]
    exact ⟨hr.state, fun e he => hr.error e (by cases he; rfl)⟩

/-- A scan goes on in the text, and finds its errors there. -/
theorem keepsPlaces_scanning {look : Cursor → Except Error (α × Cursor)} (h : Scan look) :
    KeepsPlaces text (scanning look) := by
  intro limit s hs
  rw [scanning]
  cases hl : look s.cursor with
  | ok found => exact ⟨hs.moved (hs.cursor.trans (h.ahead hl)), by rintro _ ⟨⟩⟩
  | error e =>
    refine ⟨hs.log _, fun e' he => ?_⟩
    cases he
    exact (h.found hl).placed hs.cursor

theorem keepsPlaces_fail (what : Expectation) : KeepsPlaces text (fail (α := α) what) :=
  .of_state (fun _ _ hs => hs.expect what) fun _ _ _ he => nomatch he

/-- A token that is refused late: the cursor is given back before the miss is recorded. -/
theorem keepsPlaces_returned (n : Nat) (what : Expectation) :
    KeepsPlaces text (Answer.returned (α := α) n what).act := by
  intro limit s hs
  have htoken : KeepsPlaces text (token n) := keepsPlaces_bind
    (keepsPlaces_scanning (scan_skip n)) fun _ _ => by
      rw [Layout.layout_eq_scanning]
      exact keepsPlaces_scanning Layout.scan_pass
  have hr := htoken limit s hs
  rw [Answer.act, cursor_bind]
  rcases hrun : token n limit s with ⟨_ | _ | stop, t⟩ <;> rw [hrun] at hr
  · rw [bind_ok hrun, moveTo_bind]
    exact keepsPlaces_fail what limit _ (hr.state.moved hs.cursor)
  · rw [bind_miss hrun]
    exact ⟨hr.state, by rintro _ ⟨⟩⟩
  · rw [bind_halt hrun]
    exact ⟨hr.state, fun e he => hr.error e (by cases he; rfl)⟩

/-- **Every rule keeps places.** -/
theorem hereditary_keepsPlaces (text : String) : Hereditary (KeepsPlaces text) where
  pure := keepsPlaces_pure
  bind := keepsPlaces_bind
  miss := .of_state (fun _ _ hs => hs) fun _ _ _ he => nomatch he
  fail := keepsPlaces_fail
  exhausted := .of_state (fun _ _ hs => hs) fun _ _ _ he => nomatch he
  optional := keepsPlaces_optional
  attempt := keepsPlaces_attempt
  nested := keepsPlaces_nested
  advancing := keepsPlaces_advancing
  log e := .of_state (fun _ _ hs => hs.log e) fun _ _ _ he => nomatch he
  scanning := keepsPlaces_scanning
  returned := keepsPlaces_returned

end Rule

/-! ## States that a reading may get to -/

/-- The rule is made of scans and misses by the combinators: it has every hereditary
property. -/
def Rule.Made {α : Type} (r : Rule α) : Prop :=
  ∀ ⦃P : ∀ ⦃α : Type⦄, Rule α → Prop⦄, Hereditary P → P r

/-- A state that can arise while the text is read, at the end of a rule or within it. -/
inductive State.Reachable (text : String) : State → Prop where
  | initial : Reachable text (State.initial text.toList)
  /-- a rule has been run, to whatever end -/
  | run {α : Type} {r : Rule α} (limit : Option Nat) {s : State} :
    r.Made → Reachable text s → Reachable text (r limit s).state
  /-- a level has been entered or left -/
  | level (depth : Nat) {s : State} : Reachable text s → Reachable text { s with depth := depth }

/-- What a step keeps, all states have. -/
theorem State.Reachable.placed {text : String} {s : State} (h : s.Reachable text) :
    s.Placed text := by
  induction h with
  | initial => exact .initial text
  | run limit hr _ ih => exact (hr (hereditary_keepsPlaces text) limit _ ih).state
  | level depth _ ih => exact ih.deeper depth

namespace Grammar

variable {α : Type} {rule : Knot → Rule α}

theorem made_whole (hr : Respected rule) (calls : Nat) : (whole (rule (Knot.tied calls))).Made :=
  fun _ H => H.whole (H.tied hr calls)

/-- A run from the beginning ends in a state that can be reached. -/
theorem reachable_run (hr : Respected rule) (limit : Option Nat) (text : String) :
    (run rule limit text.toList).state.Reachable text :=
  .run limit (made_whole hr _) .initial

/-- The error of a reading has a place in the text. -/
theorem placed_of_run (hr : Respected rule) {limit : Option Nat} {text : String} {e : Error}
    (h : (run rule limit text.toList).result = .error e) : e.Placed text := by
  have hrun := made_whole hr (callsFor text.toList) (hereditary_keepsPlaces text) limit _ (.initial text)
  rw [Reply.result] at h
  split at h
  · cases h
  · cases h
    exact hrun.state.error
  · rename_i e' he
    cases h
    exact hrun.error _ he
  · cases h
    exact hrun.state.error

end Grammar

/-! ## Errors and reports -/

/-- The error is one about the text, and its position is a place of the text: between two
characters, with the line and the column that are found there. -/
def Error.TrulyPlaced (text : String) (e : Error) : Prop :=
  e.kind ∈ ["lex", "syntax", "annotation", "literal", "depth"] ∧
    ∃ p, e.position? = some p ∧ p.IsTrue text ∧ p.offset ≤ text.utf8ByteSize ∧
      (⟨p.offset⟩ : String.Pos.Raw).IsValid text

/-- What is placed in a text has a line, a column and an offset that are true of it. -/
theorem Error.Placed.trulyPlaced {text : String} {e : Error} (h : e.Placed text) :
    e.TrulyPlaced text := by
  obtain ⟨hkind, c, hc, hp⟩ := h
  exact ⟨hkind, c.position, hp, hc.isTrue, hc.isTrue.isValid⟩

/-- A report carries the line and the column of the error. -/
theorem report_place {α : Type} {e : Error} {p : Position} (hp : e.position? = some p) :
    ∃ r, (Report.ofResult (.error e : Except Error α)).error = some r ∧ r.line = some p.line ∧
      r.column = some p.column :=
  ⟨_, rfl, by rw [ErrorReport.ofError, hp]; rfl, by rw [ErrorReport.ofError, hp]; rfl⟩

/-- **Every reported position is a true position of the text.** Errors of a reading are
errors about the text, and have a true position. In every state that a reading may get to,
the cursor and the record of the furthest miss tell where they part the text. The report
of a failure carries the line and the column of the error. -/
theorem errors_truly_placed (text : String) :
    (∀ limit e, Contract.parseWithin limit text = .error e → e.TrulyPlaced text) ∧
    (∀ limit e, (Grammar.run Grammar.Knot.plainType limit text.toList).result = .error e →
      e.TrulyPlaced text) ∧
    (∀ limit e, (Grammar.run Grammar.Knot.value limit text.toList).result = .error e →
      e.TrulyPlaced text) ∧
    (∀ limit e, (Grammar.run Grammar.Knot.block limit text.toList).result = .error e →
      e.TrulyPlaced text) ∧
    (∀ limit, (Contract.read limit text).state.Reachable text) ∧
    (∀ s : State, s.Reachable text →
      (∃ before, s.cursor.position.Parts before s.cursor.rest text) ∧
        ∀ f, s.furthest = some f → ∃ before, f.cursor.position.Parts before f.cursor.rest text) ∧
    ∀ limit e, Contract.parseWithin limit text = .error e →
      ∃ p r, e.position? = some p ∧
        (Report.ofResult (Contract.parseWithin limit text)).error = some r ∧
          r.line = some p.line ∧ r.column = some p.column := by
  refine ⟨fun _ _ h => (Grammar.placed_of_run Grammar.respected_contractRule h).trulyPlaced,
    fun _ _ h => (Grammar.placed_of_run Grammar.respected_plainType h).trulyPlaced,
    fun _ _ h => (Grammar.placed_of_run Grammar.respected_value h).trulyPlaced,
    fun _ _ h => (Grammar.placed_of_run Grammar.respected_block h).trulyPlaced,
    fun limit => Grammar.reachable_run Grammar.respected_contractRule limit text,
    fun s hs => ⟨hs.placed.cursor.parts, fun f hf => (hs.placed.furthest f hf).parts⟩,
    fun limit e h => ?_⟩
  obtain ⟨-, c, -, hp⟩ := Grammar.placed_of_run Grammar.respected_contractRule h
  obtain ⟨r, hr⟩ := report_place (α := Contract) hp
  exact ⟨c.position, r, hp, h ▸ hr⟩

end Michelson
