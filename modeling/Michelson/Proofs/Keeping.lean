import Michelson.Proofs.Names

/-!
# Runs of the full grammar

Where there is no limit on nesting, the names of macros are lexical like
everything else, so the full grammar keeps step in every placement:
`Placement.keeps`. Types keep step in a placement of types:
`TypePlacement.keepsType`.
-/

namespace Michelson

open Rule

namespace Grammar

/-- Of the knot, the names of macros use the rule for pair trees only. -/
theorem macroNames_eq {g : Knot} (h : g.pairTree = Knot.full.pairTree) :
    macroNames g = macroNames Knot.full := by
  simp only [macroNames, treeName_eq, treeBody, h]

theorem pairTreeRule_eq {g : Knot} (h : g.pairTree = Knot.full.pairTree) :
    pairTreeRule g = Knot.full.pairTree := by
  rw [← pairTreeRule_full]
  simp only [pairTreeRule, leftTree_eq, rightTree_eq, treeOr, h]

end Grammar

/-- Names of macros are words. -/
theorem Rule.isPlain_name (P : List Char → MacroName → Prop) : IsPlain (readName P) where
  opening := fun _ h => nomatch h
  closing := fun _ h => nomatch h
  bytes := fun _ _ h => nomatch h
  sameBytes := fun _ _ => rfl

/-! ## Placements -/

namespace TypePlacement

open Grammar

variable {S : Setting} {At : Places} (A : TypePlacement S At)

include A

theorem keepsTypes (n : Nat) :
    (∀ b, Keeps S At n Eq (Knot.full.type b) (Knot.full.type b)) ∧
      Keeps S At n Eq Knot.full.comparable Knot.full.comparable := by
  induction n with
  | zero => exact ⟨fun _ => A.keeps_zero, A.keeps_zero⟩
  | succ n ih =>
    refine ⟨fun b => ?_, ?_⟩
    · rw [← typeRule_full]
      exact A.congruence.typeRule (n := n + 1) ih.1 ih.2 b
    · rw [← comparableRule_full]
      exact A.congruence.comparableRule (n := n + 1) ih.2

/-- **Types keep step** in a placement of types. -/
theorem keepsType (n : Nat) : Keeps S At n Eq Knot.full.plainType Knot.full.plainType :=
  A.congruence.plainType (A.keepsTypes n).1

end TypePlacement

namespace Placement

open Grammar TypePlacement

variable {S : Setting} {At : Places} (A : Placement S At) (hlimit : S.limit = none)
  (hlimit' : S.limit' = none) (hplaced : ∀ c c', S.placed c c')

include A hlimit hlimit' hplaced

/-- A reading of a name is a lexical rule, in the places where tokens begin. -/
theorem keepsName {r : Rule MacroName} {P : List Char → MacroName → Prop} (h : Naming r P)
    (hword : ∀ w n, P w n → (Token.word w).isValid = true) (n : Nat) : Keeps S At n Eq r r := by
  refine fun d m _ _ => Sim.of_attempt hplaced fun s s' hs hmem => ?_
  have hrun := A.of_pred (A.plain (lexical_name P) (isPlain_name P)) s s' hs hmem
  rw [hlimit, hlimit'] at hrun ⊢
  rw [attempt_name h hword, attempt_name h hword]
  exact hrun

/-- **The full grammar respects a placement** where there is no limit on nesting. -/
theorem congruenceFull : Congruence (Keeps S At) (Passes S At)
    fun _ r r' => r = Knot.full.pairTree ∧ r' = Knot.full.pairTree := by
  refine A.congruence ?_ ?_
  · rintro n g g' ⟨hg, hg'⟩
    rw [macroNames_eq hg, macroNames_eq hg', List.forall₂_same]
    intro r hr
    obtain ⟨i, hi, rfl⟩ := List.getElem_of_mem hr
    have hi' : i < spellings.length := namings.length_eq ▸ hi
    exact A.keepsName hlimit hlimit' hplaced (namings.get hi hi')
      (fun w n hw => (MacroName.spelled_of_mem (List.get_mem _ _) hw).isValid) n
  · rintro n g g' ⟨hg, hg'⟩
    exact ⟨pairTreeRule_eq hg, pairTreeRule_eq hg'⟩

/-- **Rules of the full grammar keep step** in a placement. -/
theorem keeps {α : Type} {rule : Knot → Rule α} (hr : Respected rule) (n : Nat) :
    Keeps S At n Eq (rule Knot.full) (rule Knot.full) := by
  have C := A.congruenceFull hlimit hlimit' hplaced
  refine hr C (related_full C ?_ n)
  exact ⟨fun _ => A.keeps_zero, A.keeps_zero, A.keeps_zero, A.keeps_zero, rfl, rfl⟩

end Placement

end Michelson
