import Michelson.Decoding
import Michelson.Form.Document
import Michelson.Proofs.Numerals

/-!
# Decoders invert documents

A decoder is given a number of brackets that it may open, and has a number of calls
left. That it reads a value from a document is said for all budgets that the
document fits into and that are below the number of calls: `Decoder.Inverts`. Each
combinator of decoders hands this on, the ones that open a bracket with one call
more.

* `Json.brackets` is how many brackets of a document are open at a time.
* `Decoder.Inverts` and its laws, one for each combinator.
-/

namespace Michelson

namespace Json

mutual

/-- The largest number of brackets that are open at a time. -/
def brackets : Json → Nat
  | .null => 0
  | .bool _ => 0
  | .integer _ => 0
  | .real _ => 0
  | .string _ => 0
  | .array items => bracketsOfItems items + 1
  | .object members => bracketsOfMembers members + 1

/-- The largest number of brackets that are open at a time in one of the documents. -/
def bracketsOfItems : List Json → Nat
  | [] => 0
  | j :: js => max j.brackets (bracketsOfItems js)

/-- The largest number of brackets that are open at a time in one of the members. -/
def bracketsOfMembers : List (Option String × Json) → Nat
  | [] => 0
  | (_, j) :: ms => max j.brackets (bracketsOfMembers ms)

end

/-- Labels open no brackets. -/
theorem bracketsOfMembers_members {labels : List String} {js : List Json}
    (h : labels.length = js.length) :
    bracketsOfMembers (Form.members labels js) = bracketsOfItems js := by
  induction labels generalizing js with
  | nil =>
    obtain rfl := List.length_eq_zero_iff.mp h.symm
    rfl
  | cons label labels ih =>
    cases js with
    | nil => cases h
    | cons j js =>
      rw [Form.members, bracketsOfMembers, bracketsOfItems, ih (Nat.succ.inj h)]

end Json

namespace Decoder

open Json

variable {α β γ δ ε ζ : Type}

/-- The decoder reads `a` from the document `j`, whenever the brackets of `j` fit into the
budget and the budget is below `n`. -/
def Inverts (d : Decoder α) (n : Nat) (a : α) (j : Json) : Prop :=
  ∀ budget, j.brackets ≤ budget → budget < n → d budget j = some a

namespace Inverts

variable {n : Nat} {a : α} {b : β} {j : Json} {d : Decoder α}

/-- Without calls left there is nothing to show. -/
theorem zero (d : Decoder α) (a : α) (j : Json) : d.Inverts 0 a j :=
  fun _ _ h => absurd h (Nat.not_lt_zero _)

/-- With fewer calls left there is less to show. -/
theorem down (h : d.Inverts (n + 1) a j) : d.Inverts n a j :=
  fun budget hb hn => h budget hb (Nat.lt_succ_of_lt hn)

/-- A function on the value leaves the budgets as they are. -/
theorem map (f : α → β) (h : d.Inverts n a j) : (d.map f).Inverts n (f a) j := by
  intro budget hb hn
  rw [Decoder.map, h budget hb hn, Option.map_some]

/-! ## Leaves -/

/-- A string is read back as it is. -/
theorem text (s : String) : Decoder.text.Inverts n s (.text s) := fun _ _ _ => rfl

/-- A number below the bound is read back. -/
theorem natBelow {bound k : Nat} (h : k < bound) :
    (Decoder.natBelow bound).Inverts n k (.integer k) := by
  intro budget _ _
  rw [Decoder.natBelow, if_pos ⟨Int.natCast_nonneg k, by exact_mod_cast h⟩, Int.toNat_natCast]

/-- An absent note is null, and a note is its text. -/
theorem note {σ : Sigil} (v : Note σ) : Decoder.note.Inverts n v (Form.ofNote v).document := by
  obtain ⟨_ | s⟩ := v <;> exact fun _ _ _ => rfl

/-- A value that is there, if its document is not the one of a missing value. -/
theorem orNull (h : d.Inverts n a j) (hj : j ≠ .null) : d.orNull.Inverts n (some a) j := by
  intro budget hb hn
  have hread := h budget hb hn
  cases j with
  | null => exact absurd rfl hj
  | _ => rw [Decoder.orNull, hread, Option.map_some]; simp

/-! ## Arrays -/

/-- An array opens a bracket, so its items have one less of the budget. -/
theorem tuple {read : Nat → List Json → Option α} {items : List Json}
    (h : ∀ budget, bracketsOfItems items ≤ budget → budget < n → read budget items = some a) :
    (Decoder.tuple read).Inverts n a (.array items) := by
  intro budget hb hn
  rw [brackets] at hb
  obtain ⟨budget, rfl⟩ : ∃ k, budget = k + 1 := ⟨budget - 1, by omega⟩
  exact h budget (by omega) (by omega)

/-- Every item fits into the budget that the deepest one asks for. -/
theorem list {f : α → Json} {as : List α} (h : ∀ a ∈ as, d.Inverts n a (f a)) :
    (Decoder.list d).Inverts n as (.array (as.map f)) := by
  refine tuple fun budget hb hn => ?_
  induction as with
  | nil => rfl
  | cons a as ih =>
    rw [List.map_cons, bracketsOfItems] at hb
    have hfirst := h a List.mem_cons_self budget (by omega) hn
    have hothers := ih (fun a ha => h a (List.mem_cons_of_mem _ ha)) (by omega)
    rw [List.map_cons, List.mapM_cons, hfirst, hothers]
    rfl

variable {c : γ} {x : δ} {y : ε} {ja jb jc jx jy : Json} {db : Decoder β} {dc : Decoder γ}
  {dx : Decoder δ} {dy : Decoder ε}

theorem tuple2 (build : α → β → ζ) (ha : d.Inverts n a ja) (hb : db.Inverts n b jb) :
    (Decoder.tuple2 d db build).Inverts n (build a b) (.array [ja, jb]) := by
  refine tuple fun budget hbr hn => ?_
  simp only [bracketsOfItems] at hbr
  simp only [ha budget (by omega) hn, hb budget (by omega) hn, Option.bind_eq_bind,
    Option.bind_some]

/-- Three parts in an array. -/
theorem tuple3 (build : α → β → γ → ζ) (ha : d.Inverts n a ja) (hb : db.Inverts n b jb)
    (hc : dc.Inverts n c jc) :
    (Decoder.tuple3 d db dc build).Inverts n (build a b c) (.array [ja, jb, jc]) := by
  refine tuple fun budget hbr hn => ?_
  simp only [bracketsOfItems] at hbr
  simp only [ha budget (by omega) hn, hb budget (by omega) hn, hc budget (by omega) hn,
    Option.bind_eq_bind, Option.bind_some]

theorem tuple4 (build : α → β → γ → δ → ζ) (ha : d.Inverts n a ja) (hb : db.Inverts n b jb)
    (hc : dc.Inverts n c jc) (hx : dx.Inverts n x jx) :
    (Decoder.tuple4 d db dc dx build).Inverts n (build a b c x) (.array [ja, jb, jc, jx]) := by
  refine tuple fun budget hbr hn => ?_
  simp only [bracketsOfItems] at hbr
  simp only [ha budget (by omega) hn, hb budget (by omega) hn, hc budget (by omega) hn,
    hx budget (by omega) hn, Option.bind_eq_bind, Option.bind_some]

theorem tuple5 (build : α → β → γ → δ → ε → ζ) (ha : d.Inverts n a ja) (hb : db.Inverts n b jb)
    (hc : dc.Inverts n c jc) (hx : dx.Inverts n x jx) (hy : dy.Inverts n y jy) :
    (Decoder.tuple5 d db dc dx dy build).Inverts n (build a b c x y)
      (.array [ja, jb, jc, jx, jy]) := by
  refine tuple fun budget hbr hn => ?_
  simp only [bracketsOfItems] at hbr
  simp only [ha budget (by omega) hn, hb budget (by omega) hn, hc budget (by omega) hn,
    hx budget (by omega) hn, hy budget (by omega) hn, Option.bind_eq_bind, Option.bind_some]

end Inverts

/-! ## Objects -/

/-- A label that is not among the labels has no member. -/
theorem filter_members {label : String} {labels : List String} (h : label ∉ labels)
    (js : List Json) : (Form.members labels js).filter (fun m => m.1 == some label) = [] := by
  induction labels generalizing js with
  | nil => rfl
  | cons l labels ih =>
    rw [List.mem_cons, not_or] at h
    cases js with
    | nil => rfl
    | cons j js =>
      rw [Form.members, List.filter_cons_of_neg (by simpa using fun hl => h.1 hl.symm), ih h.2]

/-- A traversal depends on what is done to the members only. -/
theorem mapM_congr {f g : α → Option β} {as : List α} (h : ∀ a ∈ as, f a = g a) :
    as.mapM f = as.mapM g := by
  induction as with
  | nil => rfl
  | cons a as ih =>
    rw [List.mapM_cons, List.mapM_cons, h a List.mem_cons_self,
      ih fun b hb => h b (List.mem_cons_of_mem _ hb)]

/-- Each label is found with its own document. -/
theorem mapM_member? {labels : List String} (h : labels.Nodup) {js : List Json}
    (hlen : labels.length = js.length) :
    (labels.mapM fun label => member? label (Form.members labels js)) = some (js.map some) := by
  induction labels generalizing js with
  | nil =>
    obtain rfl := List.length_eq_zero_iff.mp hlen.symm
    rfl
  | cons label labels ih =>
    obtain ⟨hnot, hnodup⟩ := List.nodup_cons.mp h
    cases js with
    | nil => cases hlen
    | cons j js =>
      have hfirst : member? label (Form.members (label :: labels) (j :: js)) = some (some j) := by
        rw [member?, Form.members, List.filter_cons_of_pos (by simp), filter_members hnot]
      have hothers : (labels.mapM fun l => member? l (Form.members (label :: labels) (j :: js))) =
          labels.mapM fun l => member? l (Form.members labels js) := by
        refine mapM_congr fun l hl => ?_
        have hne : l ≠ label := fun heq => hnot (heq ▸ hl)
        rw [member?, member?, Form.members,
          List.filter_cons_of_neg (by simpa using fun heq => hne heq.symm)]
      rw [List.mapM_cons, hfirst, hothers, ih hnodup (Nat.succ.inj hlen)]
      rfl

/-- Every member of a record has a label. -/
theorem all_isSome_members (labels : List String) (js : List Json) :
    (Form.members labels js).all (fun m => m.1.isSome) = true := by
  induction labels generalizing js with
  | nil => rfl
  | cons label labels ih =>
    cases js with
    | nil => rfl
    | cons j js => rw [Form.members, List.all_cons, ih]; rfl

namespace Inverts

variable {n : Nat} {a : α} {b : β} {j ja jb : Json} {d : Decoder α} {db : Decoder β}

/-- Behind the bracket of an object, the parts may be read with a call less. -/
theorem record (labels : List String) {read : Nat → List (Option Json) → Option α}
    (js : List Json) (hl : labels.Nodup) (hlen : labels.length = js.length)
    (h : ∀ budget, bracketsOfItems js ≤ budget → budget < n → read budget (js.map some) = some a) :
    (Decoder.record labels read).Inverts (n + 1) a (.object (Form.members labels js)) := by
  intro budget hb hn
  rw [brackets, bracketsOfMembers_members hlen] at hb
  obtain ⟨budget, rfl⟩ : ∃ k, budget = k + 1 := ⟨budget - 1, by omega⟩
  rw [Decoder.record, if_pos (all_isSome_members labels js), mapM_member? hl hlen]
  exact h budget (by omega) (by omega)

/-- Two members in an object. -/
theorem record2 (label label' : String) (build : α → β → γ) (hl : label ≠ label')
    (ha : d.Inverts n a ja) (hb : db.Inverts n b jb) :
    (Decoder.record2 label label' d db build).Inverts (n + 1) (build a b)
      (.object [(some label, ja), (some label', jb)]) := by
  refine record [label, label'] [ja, jb] (by simpa using hl) rfl
    fun budget hbr hn => ?_
  simp only [bracketsOfItems] at hbr
  simp only [List.map_cons, List.map_nil, ha budget (by omega) hn, hb budget (by omega) hn,
    Option.bind_eq_bind, Option.bind_some]

/-! ## Variants -/

variable {cases : String → Option (Payload α)} {name : String}

/-- A variant without a payload is its name. -/
theorem empty (h : cases name = some (.empty a)) :
    (variant cases).Inverts n a (.text name) := by
  intro budget _ _
  rw [variant.eq_def]
  simp only [Json.text, h]

/-- The payload stands behind the bracket of an object, so it may be read with a call less. -/
theorem full (h : cases name = some (.full d)) (hd : d.Inverts n a j) :
    (variant cases).Inverts (n + 1) a (.object [(some name, j)]) := by
  intro budget hb hn
  simp only [brackets, bracketsOfMembers] at hb
  obtain ⟨budget, rfl⟩ : ∃ k, budget = k + 1 := ⟨budget - 1, by omega⟩
  have hread := hd budget (by omega) (by omega)
  rw [variant.eq_def]
  simp only [h, hread]

/-- A value out of a list is told by its name, if no earlier one has the same. -/
theorem choice {name : α → String} {values : List α}
    (h : values.find? (fun v => name v == name a) = some a) :
    (Decoder.choice name values).Inverts n a (.text (name a)) :=
  empty (by rw [h, Option.map_some])

end Inverts

end Decoder

end Michelson
