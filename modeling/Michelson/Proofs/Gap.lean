import Mathlib.Data.List.Forall2
import Michelson.Source.Layout

/-!
# Gaps

What a scan of layout passes, and what stops it. The scan looks ahead by one
character and does not mind where in a text it stands, so what it passes is
settled by the text of the gap and by the text behind it.

* `Layout.fills_of_scan` says that what a scan passes fills a gap.
* `Layout.Fills.isLayout` says that such a gap is a layout.
* `Layout.fills_of_isLayout` is the converse.
-/

namespace Michelson

namespace Layout

/-- Modes without the places at which comments begin. -/
def Mode.bare : Mode → Mode
  | .opening _ => .opening Position.start
  | .block _ => .block Position.start
  | mode => mode

/-- From a mode, the scan passes all of `gap` and stops before `rest`. -/
def FillsFrom (mode : Mode) (gap rest : List Char) : Prop :=
  ∀ mode' p, mode'.bare = mode.bare → scan mode' (gap ++ rest) p = .ok ⟨rest, p.after gap⟩

/-- The scan passes all of `gap` and stops before `rest`. -/
def Fills (gap rest : List Char) : Prop :=
  ∀ p, scan .plain (gap ++ rest) p = .ok ⟨rest, p.after gap⟩

theorem bare_eq_plain {mode : Mode} (h : mode.bare = .plain) : mode = .plain := by
  cases mode <;> first | rfl | cases h

theorem bare_eq_line {mode : Mode} (h : mode.bare = .line) : mode = .line := by
  cases mode <;> first | rfl | cases h

theorem bare_eq_closing {mode : Mode} (h : mode.bare = .closing) : mode = .closing := by
  cases mode <;> first | rfl | cases h

theorem bare_eq_opening {mode : Mode} {p : Position} (h : mode.bare = Mode.bare (.opening p)) :
    ∃ q, mode = .opening q := by
  cases mode <;> first | exact ⟨_, rfl⟩ | cases h

theorem bare_eq_block {mode : Mode} {p : Position} (h : mode.bare = Mode.bare (.block p)) :
    ∃ q, mode = .block q := by
  cases mode <;> first | exact ⟨_, rfl⟩ | cases h

/-- A scan that stops at once. -/
theorem FillsFrom.exists_stop {mode : Mode} {cs : List Char}
    (h : ∀ mode' p, mode'.bare = mode.bare → scan mode' cs p = .ok ⟨cs, p⟩) :
    ∃ gap, cs = gap ++ cs ∧ FillsFrom mode gap cs := ⟨[], rfl, h⟩

/-- A scan that passes one character more. -/
theorem FillsFrom.exists_step {mode next : Mode} {d : Char} {cs rest : List Char}
    (h : ∃ gap, cs = gap ++ rest ∧ FillsFrom next gap rest)
    (hstep : ∀ mode' p, mode'.bare = mode.bare → ∃ next', next'.bare = next.bare ∧
      scan mode' (d :: cs) p = scan next' cs (p.advance d)) :
    ∃ gap, d :: cs = gap ++ rest ∧ FillsFrom mode gap rest := by
  obtain ⟨gap, rfl, hf⟩ := h
  refine ⟨d :: gap, rfl, fun mode' p hmode => ?_⟩
  obtain ⟨next', hnext, heq⟩ := hstep mode' p hmode
  rw [List.cons_append, heq, hf next' _ hnext, Position.after_cons]

/-- A scan goes the same way at all places. -/
theorem scan_uniform {mode : Mode} {cs : List Char} {p : Position} {c : Cursor}
    (h : scan mode cs p = .ok c) : ∃ gap, cs = gap ++ c.rest ∧ FillsFrom mode gap c.rest := by
  fun_induction scan mode cs p
  case case1 =>
    obtain rfl := Except.ok.inj h
    exact FillsFrom.exists_stop fun mode' q hm => by rw [bare_eq_plain hm, scan]
  case case2 hc ih =>
    refine FillsFrom.exists_step (ih h) fun mode' q hm => ⟨.plain, rfl, ?_⟩
    rw [bare_eq_plain hm, scan, if_pos hc]
  case case3 hb ih =>
    refine FillsFrom.exists_step (ih h) fun mode' q hm => ⟨.line, rfl, ?_⟩
    rw [bare_eq_plain hm, scan, if_neg hb, if_pos rfl]
  case case4 hb hl hc ih =>
    refine FillsFrom.exists_step (ih h) fun mode' q hm => ⟨.opening q, rfl, ?_⟩
    rw [bare_eq_plain hm, scan, if_neg hb, if_neg hl, if_pos hc]
  case case5 hb hl hc =>
    obtain rfl := Except.ok.inj h
    refine FillsFrom.exists_stop fun mode' q hm => ?_
    rw [bare_eq_plain hm, scan, if_neg hb, if_neg hl, if_neg hc]
  case case6 =>
    obtain rfl := Except.ok.inj h
    exact FillsFrom.exists_stop fun mode' q hm => by rw [bare_eq_line hm, scan]
  case case7 ih =>
    refine FillsFrom.exists_step (ih h) fun mode' q hm => ⟨.plain, rfl, ?_⟩
    rw [bare_eq_line hm, scan, if_pos rfl]
  case case8 hn ih =>
    refine FillsFrom.exists_step (ih h) fun mode' q hm => ⟨.line, rfl, ?_⟩
    rw [bare_eq_line hm, scan, if_neg hn]
  case case9 => cases h
  case case10 ih =>
    -- where the comment began does not matter for where it ends
    refine FillsFrom.exists_step (ih h) fun mode' q hm => ?_
    obtain ⟨q', rfl⟩ := bare_eq_opening hm
    exact ⟨.block q', rfl, by rw [scan]⟩
  case case11 => cases h
  case case12 hc ih =>
    refine FillsFrom.exists_step (ih h) fun mode' q hm => ⟨.closing, rfl, ?_⟩
    obtain ⟨q', rfl⟩ := bare_eq_block hm
    rw [scan, if_pos hc]
  case case13 hc ih =>
    refine FillsFrom.exists_step (ih h) fun mode' q hm => ?_
    obtain ⟨q', rfl⟩ := bare_eq_block hm
    exact ⟨.block q', rfl, by rw [scan, if_neg hc]⟩
  case case14 =>
    obtain rfl := Except.ok.inj h
    exact FillsFrom.exists_stop fun mode' q hm => by rw [bare_eq_closing hm, scan]
  case case15 ih =>
    refine FillsFrom.exists_step (ih h) fun mode' q hm => ⟨.plain, rfl, ?_⟩
    rw [bare_eq_closing hm, scan]

/-- What a scan passes is the layout before the rest of the text. -/
theorem fills_of_scan {cs : List Char} {p : Position} {c : Cursor}
    (h : scan .plain cs p = .ok c) :
    ∃ gap, cs = gap ++ c.rest ∧ c.position = p.after gap ∧ Fills gap c.rest := by
  obtain ⟨gap, rfl, hf⟩ := scan_uniform h
  refine ⟨gap, rfl, ?_, fun q => hf _ q rfl⟩
  have hp := h.symm.trans (hf .plain p rfl)
  exact congrArg Cursor.position (Except.ok.inj hp)

/-- What is a layout after the part of it that leads to a mode. -/
def IsLayoutFrom : Mode → List Char → Prop
  | .plain, gap => IsLayout gap
  | .line, gap => ∃ comment cs, gap = comment ++ '\n' :: cs ∧ '\n' ∉ comment ∧ IsLayout cs
  | .opening _, gap => ∃ c comment cs, gap = c :: (comment ++ '*' :: '/' :: cs) ∧
      ¬['*', '/'] <:+: comment ∧ IsLayout cs
  | .block _, gap => ∃ comment cs, gap = comment ++ '*' :: '/' :: cs ∧
      ¬['*', '/'] <:+: comment ∧ IsLayout cs
  | .closing, gap => ∃ c cs, gap = c :: cs ∧ IsLayout cs

/-- The line feed that closes a line comment at the end of a text. -/
def closer (rest : List Char) : List Char := if rest.isEmpty then ['\n'] else []

theorem head_unique {cs ds more : List Char} {c d : Char} (h : cs.head? = some c)
    (heq : cs ++ more = d :: ds) : d = c := by
  obtain ⟨cs, rfl⟩ := List.head?_eq_some_iff.mp h
  exact (List.cons.inj heq).1.symm

/-- What a scan passes is a layout, at the end of a text with one line feed more. -/
theorem isLayoutFrom_of_scan {mode : Mode} {cs : List Char} {p : Position} {c : Cursor}
    (h : scan mode cs p = .ok c) :
    ∃ gap, cs ++ closer c.rest = gap ++ c.rest ∧ IsLayoutFrom mode gap := by
  fun_induction scan mode cs p
  case case1 =>
    obtain rfl := Except.ok.inj h
    exact ⟨['\n'], rfl, .blank isBlank_newline .empty⟩
  case case2 hc ih =>
    obtain ⟨gap, heq, hgap⟩ := ih h
    exact ⟨_ :: gap, by rw [List.cons_append, heq, List.cons_append], .blank hc hgap⟩
  case case3 ih =>
    obtain ⟨_, heq, comment, cs, rfl, hn, hcs⟩ := ih h
    exact ⟨_, by rw [List.cons_append, heq]; rfl, .line hn hcs⟩
  case case4 hc ih =>
    obtain ⟨_, heq, d, comment, cs, rfl, hn, hcs⟩ := ih h
    obtain ⟨rfl, hhead⟩ := hc
    obtain rfl : d = '*' := head_unique hhead heq
    exact ⟨_, by rw [List.cons_append, heq]; rfl, .block hn hcs⟩
  case case5 =>
    obtain rfl := Except.ok.inj h
    exact ⟨[], List.append_nil _, .empty⟩
  case case6 =>
    -- the line feed at the end closes a comment up to the end of the text
    obtain rfl := Except.ok.inj h
    exact ⟨['\n'], rfl, [], [], rfl, List.not_mem_nil, .empty⟩
  case case7 ih =>
    obtain ⟨gap, heq, hgap⟩ := ih h
    exact ⟨'\n' :: gap, by rw [List.cons_append, heq]; rfl, [], gap, rfl, List.not_mem_nil, hgap⟩
  case case8 hn ih =>
    obtain ⟨_, heq, comment, cs, rfl, hcomment, hcs⟩ := ih h
    refine ⟨_, by rw [List.cons_append, heq]; rfl, _ :: comment, cs, rfl, ?_, hcs⟩
    simpa [Ne.symm hn] using hcomment
  case case9 => cases h
  case case10 ih =>
    obtain ⟨_, heq, comment, cs, rfl, hn, hcs⟩ := ih h
    exact ⟨_, by rw [List.cons_append, heq]; rfl, _, comment, cs, rfl, hn, hcs⟩
  case case11 => cases h
  case case12 hc ih =>
    obtain ⟨_, heq, d, cs, rfl, hcs⟩ := ih h
    obtain ⟨rfl, hhead⟩ := hc
    obtain rfl : d = '/' := head_unique hhead heq
    exact ⟨_, by rw [List.cons_append, heq]; rfl, [], cs, rfl, by decide, hcs⟩
  case case13 d ds _ hc ih =>
    obtain ⟨_, heq, comment, cs, rfl, hn, hcs⟩ := ih h
    refine ⟨_, by rw [List.cons_append, heq]; rfl, d :: comment, cs, rfl, fun hin => ?_, hcs⟩
    -- the two characters would stand at the front, where the scan has seen that they do not
    rcases List.infix_cons_iff.mp hin with hpre | hin
    · obtain ⟨rfl, more, rfl⟩ := List.cons_prefix_cons.mp hpre
      cases ds with
      | nil => cases h
      | cons e ds => exact hc ⟨rfl, congrArg some (List.cons.inj heq).1⟩
    · exact hn hin
  case case14 =>
    obtain rfl := Except.ok.inj h
    exact ⟨['\n'], rfl, _, _, rfl, .empty⟩
  case case15 ih =>
    obtain ⟨gap, heq, hgap⟩ := ih h
    exact ⟨_ :: gap, by rw [List.cons_append, heq]; rfl, _, gap, rfl, hgap⟩

/-- A layout is passed where no more layout follows it. -/
theorem fills_of_isLayout {gap rest : List Char} (h : IsLayout gap) (hr : Fills [] rest) :
    Fills gap rest := by
  intro p
  rw [scan_append h]
  exact hr _

/-- What is passed before some text is a layout. -/
theorem Fills.isLayout {gap rest : List Char} (h : Fills gap rest) (hr : rest ≠ []) :
    IsLayout gap := by
  obtain ⟨gap', heq, hgap⟩ := isLayoutFrom_of_scan (h Position.start)
  rw [closer, if_neg (by simpa using hr), List.append_nil] at heq
  rw [List.append_cancel_right heq]
  exact hgap

/-- What is passed at the end of a text is a layout but for a last line feed. -/
theorem Fills.isLayout_append {gap : List Char} (h : Fills gap []) :
    IsLayout (gap ++ ['\n']) := by
  obtain ⟨gap', heq, hgap⟩ := isLayoutFrom_of_scan (h Position.start)
  have heq : gap ++ ['\n'] = gap' := by simpa [closer] using heq
  rw [heq]
  exact hgap

theorem fills_nil_nil : Fills [] [] := fun _ => rfl

/-- Where no layout begins, none is passed. -/
theorem fills_nil_cons {c : Char} (hb : isBlank c = false) (hl : c ≠ '#') (hs : c ≠ '/')
    (cs : List Char) : Fills [] (c :: cs) := by
  intro p
  rw [List.nil_append, scan, if_neg (by simp [hb]), if_neg hl, if_neg fun h => hs h.1,
    Position.after_nil]

end Layout

theorem IsLayout.append {cs ds : List Char} (h : IsLayout cs) (h' : IsLayout ds) :
    IsLayout (cs ++ ds) := by
  induction h with
  | empty => exact h'
  | blank hc _ ih => exact .blank hc ih
  | line hn _ ih =>
    rw [List.cons_append, List.append_assoc, List.cons_append]
    exact .line hn ih
  | block hn _ ih =>
    rw [List.cons_append, List.cons_append, List.append_assoc, List.cons_append, List.cons_append]
    exact .block hn ih

/-- A layout begins with a blank or with a character that opens comments. -/
theorem IsLayout.head {c : Char} {cs : List Char} (h : IsLayout (c :: cs)) :
    isBlank c = true ∨ c = '#' ∨ c = '/' := by
  cases h with
  | blank hc _ => exact .inl hc
  | line _ _ => exact .inr (.inl rfl)
  | block _ _ => exact .inr (.inr rfl)

end Michelson
