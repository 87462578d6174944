import Mathlib.Logic.Relation
import Michelson.Proofs.Outcome

/-!
# Whole texts

A text that a rule reads from beginning to end is some layout and a track that the rule
reads to its end, and the other way round: `run_ok_iff`. A limit on nesting makes no
difference to what is read: `run_ok_of_limit`.
-/

namespace Michelson

open Rule Grammar

variable {α : Type} {rule : Knot → Rule α}

/-! ## From steps to lexemes -/

theorem exists_lexemes_of_steps {c c' : Cursor} (h : Relation.ReflTransGen Cursor.Steps c c') :
    ∃ ls, c.rest = Lexemes.text ls ++ c'.rest ∧ Lexemes.Fit ls c'.rest := by
  induction h using Relation.ReflTransGen.head_induction_on with
  | refl => exact ⟨[], rfl, trivial⟩
  | head hstep _ ih =>
    obtain ⟨l, hpass, hfit⟩ := hstep
    obtain ⟨ls, hrest, hls⟩ := ih
    refine ⟨l :: ls, ?_, ?_, hls⟩
    · rw [hpass.1, hrest, Lexemes.text_cons, List.append_assoc]
    · rwa [← hrest]

/-- What a rule of the full grammar passes is a run of lexemes. -/
theorem steps_of_run (hr : Respected rule) {s t : State} {a : α}
    (h : rule Knot.full none s = ⟨.ok a, t⟩) :
    Relation.ReflTransGen Cursor.Steps s.cursor t.cursor := by
  have hplacement := SameText.steady.placement (J := Relation.ReflTransGen Cursor.Steps s.cursor)
    fun _ _ hc hstep => hc.tail hstep
  have hrun := hplacement.keeps rfl rfl (fun _ _ => trivial) hr (s.cursor.rest.length + 1) 1
    (s.cursor.rest.length + 1) le_rfl le_rfl s s ⟨rfl, .refl, Nat.lt_succ_self _⟩ trivial
  change Setting.Alike _ _ _ (rule Knot.full none s) (rule Knot.full none s) at hrun
  rw [h] at hrun
  exact hrun.2.1.2.1

/-! ## Texts that are read -/

theorem result_eq_ok {x : Reply α} {a : α} : x.result = .ok a ↔ x.verdict = .ok a := by
  rw [Reply.result]
  rcases x.verdict with b | _ | ⟨e⟩ | _
  · exact ⟨fun h => congrArg _ (Except.ok.inj h), fun h => congrArg _ (Verdict.ok.inj h)⟩
  all_goals exact ⟨fun h => (nomatch h), fun h => (nomatch h)⟩

theorem endOfInput_ok {s t : State} (h : endOfInput none s = ⟨.ok (), t⟩) :
    s.cursor.rest = [] ∧ t = s := by
  rw [endOfInput, peek?_bind] at h
  rcases hrest : s.cursor.rest with _ | ⟨c, cs⟩ <;> rw [hrest] at h
  · exact ⟨rfl, (Reply.mk.inj h).2.symm⟩
  · cases (Reply.mk.inj h).1

/-- What a rule reads up to the end of a text is a track. -/
theorem exists_track_of_run (hr : Respected rule) {s t : State} {a : α}
    (h : rule Knot.full none s = ⟨.ok a, t⟩) (hend : t.cursor.rest = []) :
    ∃ T : Track, s.cursor = T.place 0 ∧ T.Yields (rule Knot.full) 0 a T.length := by
  obtain ⟨ls, hrest, hfit⟩ := exists_lexemes_of_steps (steps_of_run hr h)
  rw [hend] at hfit
  rw [hend, List.append_nil] at hrest
  let T : Track := ⟨ls, s.cursor.position, hfit⟩
  have hplace : s.cursor = T.place 0 := by
    rw [show T.place 0 = ⟨Lexemes.text ls, s.cursor.position⟩ from rfl, ← hrest]
  obtain ⟨j, hj, ht⟩ := (Track.kept_of_respected hr).yields (Nat.zero_le _) hplace h
  -- no lexeme is left where the text ends
  have hlength := T.le_length_rest j
  rw [← ht, hend, List.length_nil] at hlength
  obtain rfl : j = T.length := le_antisymm hj.le_length (by omega)
  exact ⟨T, hplace, hj⟩

/-- The parts of a run that has read a text. -/
theorem parts_of_run (hr : Respected rule) {text : List Char} {a : α}
    (h : (run rule none text).result = .ok a) : ∃ s t u,
      layout none (State.initial text) = ⟨.ok (), s⟩ ∧ rule Knot.full none s = ⟨.ok a, t⟩ ∧
        endOfInput none t = ⟨.ok (), u⟩ := by
  rw [run_eq_full hr, result_eq_ok] at h
  rcases hwhole : whole (rule Knot.full) none (State.initial text) with ⟨v, u⟩
  rw [hwhole] at h
  obtain rfl : v = .ok a := h
  obtain ⟨_, s, hlayout, hwhole⟩ := bind_eq_ok hwhole
  obtain ⟨b, t, hrule, hwhole⟩ := bind_eq_ok hwhole
  obtain ⟨_, u, hend, hpure⟩ := bind_eq_ok hwhole
  obtain rfl := Verdict.ok.inj (Reply.mk.inj hpure).1
  exact ⟨s, t, u, hlayout, hrule, hend⟩

/-- **Whole texts.** A text is read if and only if it is layout and a track that is read
to its end. -/
theorem run_ok_iff (hr : Respected rule) {text : List Char} {a : α} :
    (run rule none text).result = .ok a ↔ ∃ (front : List Char) (T : Track),
      text = front ++ T.text ∧ Layout.Fills front T.text ∧
        T.origin = Position.start.after front ∧ T.Yields (rule Knot.full) 0 a T.length := by
  constructor
  · intro h
    obtain ⟨s₁, s₂, s₃, hlayout, hrule, hend⟩ := parts_of_run hr h
    obtain ⟨hnil, rfl⟩ := endOfInput_ok hend
    rw [layout_run] at hlayout
    rcases hscan : Layout.scan .plain (State.initial text).cursor.rest
      (State.initial text).cursor.position with start | c <;> rw [hscan] at hlayout
    · cases hlayout
    · obtain ⟨-, rfl⟩ := Reply.mk.inj hlayout
      obtain ⟨front, htext, hpos, hfront⟩ := Layout.fills_of_scan hscan
      obtain ⟨T, hplace, hyields⟩ := exists_track_of_run hr hrule hnil
      obtain rfl : c = T.place 0 := hplace
      exact ⟨front, T, htext, hfront, hpos, hyields⟩
  · rintro ⟨front, T, rfl, hfront, horigin, hyields⟩
    rw [run_eq_full hr, result_eq_ok, whole_of_layout _ (Track.layout_initial hfront horigin none)]
    obtain ⟨t, hrule, ht⟩ := hyields.run
      { State.initial (front ++ T.text) with cursor := T.place 0 } rfl
    have hend : endOfInput none t = ⟨.ok (), t⟩ := by
      rw [endOfInput, peek?_bind, ht, T.rest_place_length]
      rfl
    rw [bind_ok hrule, bind_ok hend]
    rfl

/-- What is read under a limit is read without one. -/
theorem run_ok_of_limit (hr : Respected rule) {limit : Option Nat} {text : List Char} {a : α}
    (h : (run rule limit text).result = .ok a) : (run rule none text).result = .ok a := by
  rw [run_eq_full hr, result_eq_ok] at h ⊢
  rcases whole_of_looser hr (looser_none limit) (State.initial text) with heq | ⟨p, l, -, hstop⟩
  · rwa [← heq]
  · rw [hstop] at h
    cases h

end Michelson
