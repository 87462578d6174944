import Michelson.Rule

/-!
# Order-independent groups

The members of a group may come in any order, each at most once. A member is a
rule that yields an update of the values gathered so far. At each place the
members that are still missing are tried in turn; the first that passes some
text is taken, and the search begins anew. The group ends where none does.
-/

namespace Michelson.Rule

variable {α σ : Type}

/-- A member that puts what it reads into its slot. -/
def slot (r : Rule α) (put : α → σ → σ) : Rule (σ → σ) := do
  let a ← r
  pure (put a)

/-- Runs a member. Reading nothing counts as a miss, and gives the cursor back. -/
def advancing (r : Rule α) : Rule (Option α) := do
  let before ← cursor
  match ← optional r with
  | none => pure none
  | some a => do
    let after ← cursor
    -- a member that could be read again for nothing would never be used up
    if after.position.offset > before.position.offset then pure (some a)
    else do
      moveTo before
      pure none

/-- The first member that passes some text, and the members without it. -/
def firstAdvancing : List (Rule α) → Rule (Option (α × List (Rule α)))
  | [] => pure none
  | r :: rs => do
    match ← advancing r with
    | some a => pure (some (a, rs))
    | none =>
      match ← firstAdvancing rs with
      | some (a, others) => pure (some (a, r :: others))
      | none => pure none

/-- The rounds of a group, up to a bound on their number. -/
def groupWithin : Nat → List (Rule (σ → σ)) → σ → Rule σ
  | 0, _, gathered => pure gathered
  | rounds + 1, members, gathered => do
    match ← firstAdvancing members with
    | some (update, others) => groupWithin rounds others (update gathered)
    | none => pure gathered

/-- The members of a group in any order. Each round uses a member up, so there
are no more rounds than members. -/
def group (members : List (Rule (σ → σ))) (absent : σ) : Rule σ :=
  groupWithin members.length members absent

end Michelson.Rule
