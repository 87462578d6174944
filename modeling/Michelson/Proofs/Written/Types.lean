import Michelson.Proofs.Heads
import Michelson.Proofs.Written.Notes

/-!
# Written types

The tokens of a type in a style are read as the type, with the field note that it
carries for the node above: `written_type`.
-/

namespace Michelson

open Rule Grammar

variable {α : Type} {s : Style}

/-- A keyword is read as what it stands for, whatever follows it. -/
theorem written_headWord {f : String → Option α} {what : Expectation} {name : String} {a : α}
    (hv : (Token.ofWord name).isValid = true) (hf : f name = some a) :
    Written Any (headWord f what) [.ofWord name] a := by
  rw [headWord_eq]
  exact written_word hv (by rw [String.ofList_toList, hf])

theorem ofWord_ne_mark (name : String) (c : Char) : Token.ofWord name ≠ .mark c := by
  rintro ⟨⟩

/-! ## Comparable types -/

theorem Base.isValid_keyword (b : Base) : (Token.ofWord b.keyword).isValid = true := by
  cases b <;> decide

/-- A written type begins with a word or a parenthesis, so it never continues the notes in front of
it. -/
theorem Comparable.opens_tokens (c : Comparable) : Opens (c.tokens s) := .around rfl _ s

/-- A comparable type is its keyword and its note, in the parentheses of its style. -/
theorem written_comparable {c : Comparable} (hc : c.isWellFormed = true) :
    Written Quiet Knot.full.comparable (c.tokens s) c := by
  refine Written.around Track.wraps_comparable ?_ (ofWord_ne_mark _ _) s
  refine (written_headWord c.base.isValid_keyword c.base.ofKeyword?_keyword).before ?_
  exact (written_quietSlot hc).map fun n => Comparable.mk c.base n

/-! ## Types -/

theorem Ty.Head.isValid_keyword (head : Ty.Head) : (Token.ofWord head.keyword).isValid = true := by
  have hall : ∀ head ∈ all, (Token.ofWord head.keyword).isValid = true := by decide
  exact hall head head.mem_all

/-- Neither the style nor the notes matter for how a type begins. -/
theorem Ty.opens_tokensWith (t : Ty) (f : Note .field) : Opens (t.tokensWith s f) := by
  cases t <;> exact .around rfl _ s

theorem Ty.opens_tokens (t : Ty) : Opens (t.tokens s) := t.opens_tokensWith .absent

section Node

variable {n : Note .type} {f : Note .field} {withField : Bool}

/-- Field notes are written in front of type notes; a place without field notes has none to write.
-/
theorem written_nodeNotes (hn : n.isWellFormed = true) (hf : f.isWellFormed = true)
    (hfield : withField = false → f = .absent) :
    Written Quiet (nodeNotes withField) (f.tokens ++ n.tokens) { type := n, field := f } := by
  cases withField with
  | true => exact written_componentNotes hf hn
  | false =>
    rw [hfield rfl]
    exact (written_quietSlot hn).map fun n => ({ type := n } : Notes)

/-- A node of a type: its word, the notes and the components. -/
theorem written_node (head : Ty.Head) {ts : List Token} {t : Ty} (hn : n.isWellFormed = true)
    (hf : f.isWellFormed = true) (hfield : withField = false → f = .absent)
    (ht : Written Quiet (components Knot.full n head) ts t) (hts : ts = [] ∨ Opens ts) :
    Written Quiet (Knot.full.type withField)
      (s.around (.ofWord head.keyword :: (f.tokens ++ n.tokens ++ ts))) (f, t) := by
  refine Written.around (Track.wraps_type withField) ?_ (ofWord_ne_mark _ _) s
  refine (written_headWord head.isValid_keyword head.ofKeyword?_keyword).before ?_
  refine (written_nodeNotes hn hf hfield).bind (ht.map fun t => (f, t)) fun next hnext => ?_
  rcases hts with rfl | hts
  · exact hnext
  · exact hts.quiet next

end Node

/-- What is read with a missing field note is read without one. -/
theorem Written.plainType {ts : List Token} {f : Note .field} {t : Ty}
    (h : Written Quiet (Knot.full.type false) ts (f, t)) : Written Quiet Knot.full.plainType ts t where
  valid := h.valid
  reads := fun hat hnext => by
    obtain ⟨j, hj, hat'⟩ := h.reads hat hnext
    exact ⟨j, hj.plainType, hat'⟩

/-- **Types.** The tokens of a type are read as the type, with the field note in front. -/
theorem written_typeWith {t : Ty} (ht : t.isWellFormed = true) :
    ∀ {s : Style} {f : Note .field} {withField : Bool}, f.isWellFormed = true →
      (withField = false → f = .absent) →
      Written Quiet (Knot.full.type withField) (t.tokensWith s f) (f, t) := by
  induction t with
  | atom n a =>
    intro s f withField hf hfield
    have hnode := written_node (.atom a) (s := s) ht hf hfield (written_pure _) (.inl rfl)
    rwa [List.append_nil] at hnode
  | option n g t ih =>
    intro s f withField hf hfield
    simp only [Ty.isWellFormed, Bool.and_eq_true] at ht
    obtain ⟨⟨hn, hg⟩, ht⟩ := ht
    refine written_node .option hn hf hfield ?_ (.inr (t.opens_tokensWith g))
    exact (ih ht hg (by rintro ⟨⟩)).map fun x : Note .field × Ty => Ty.option n x.1 x.2
  | wrapped n w t ih =>
    intro s f withField hf hfield
    simp only [Ty.isWellFormed, Bool.and_eq_true] at ht
    refine written_node (.wrapped w) ht.1 hf hfield ?_ (.inr (t.opens_tokensWith .absent))
    exact (ih ht.2 rfl fun _ => rfl).plainType.map (Ty.wrapped n w)
  | set n c =>
    intro s f withField hf hfield
    simp only [Ty.isWellFormed, Bool.and_eq_true] at ht
    refine written_node .set ht.1 hf hfield ?_ (.inr c.opens_tokens)
    exact (written_comparable ht.2).map (Ty.set n)
  | joint n j lf rf l r ihl ihr =>
    intro s f withField hf hfield
    simp only [Ty.isWellFormed, Bool.and_eq_true] at ht
    obtain ⟨⟨⟨⟨hn, hlf⟩, hrf⟩, hl⟩, hr⟩ := ht
    rw [Ty.tokensWith, List.append_assoc]
    refine written_node (.joint j) hn hf hfield ?_ (.inr ((l.opens_tokensWith lf).append _))
    refine (ihl hl hlf (by rintro ⟨⟩)).part (r.opens_tokensWith rf) ?_
    exact (ihr hr hrf (by rintro ⟨⟩)).map fun x : Note .field × Ty => Ty.joint n j lf x.1 l x.2
  | lambda n d c ihd ihc =>
    intro s f withField hf hfield
    simp only [Ty.isWellFormed, Bool.and_eq_true] at ht
    obtain ⟨⟨hn, hd⟩, hc⟩ := ht
    rw [Ty.tokensWith, List.append_assoc]
    refine written_node .lambda hn hf hfield ?_ (.inr ((d.opens_tokensWith .absent).append _))
    refine (ihd hd rfl fun _ => rfl).plainType.part (c.opens_tokensWith .absent) ?_
    exact (ihc hc rfl fun _ => rfl).plainType.map (Ty.lambda n d)
  | table n t k v ih =>
    intro s f withField hf hfield
    simp only [Ty.isWellFormed, Bool.and_eq_true] at ht
    obtain ⟨⟨hn, hk⟩, hv⟩ := ht
    rw [Ty.tokensWith, List.append_assoc]
    refine written_node (.table t) hn hf hfield ?_ (.inr (k.opens_tokens.append _))
    refine (written_comparable hk).part (v.opens_tokensWith .absent) ?_
    exact (ih hv rfl fun _ => rfl).plainType.map (Ty.table n t k)

theorem written_type {t : Ty} (ht : t.isWellFormed = true) :
    Written Quiet Knot.full.plainType (t.tokens s) t :=
  (written_typeWith ht rfl fun _ => rfl).plainType

end Michelson
