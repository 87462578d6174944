import Michelson.Proofs.Nodes

/-!
# The sections of a contract on a track

A contract is a group of three sections, and each of them has a keyword and a fragment:
a type, or a block of code. The rules for sections are one rule with the fragment as its
parameter.

* `Track.yields_sectionRule` and `Track.gives_sectionRule` say what a section is.
* `Track.yields_contractRule` and `Track.gives_contractRule` say what a contract is.
-/

namespace Michelson

open Rule Grammar

namespace Part

/-- What the fragment in a section denotes. -/
abbrev Value : Part → Type
  | parameter => Ty
  | storage => Ty
  | code => Block

end Part

/-- The value of a section of a contract. -/
def Contract.get (c : Contract) : (part : Part) → part.Value
  | .parameter => c.parameter
  | .storage => c.storage
  | .code => c.code

namespace Grammar

/-- The value of a section, as far as it is known. -/
def Sections.get (s : Sections) : (part : Part) → Option part.Value
  | .parameter => s.parameter?
  | .storage => s.storage?
  | .code => s.code?

/-- Fills in the value of a section. -/
def Sections.put : (part : Part) → part.Value → Sections → Sections
  | .parameter, t, s => { s with parameter? := some t }
  | .storage, t, s => { s with storage? := some t }
  | .code, b, s => { s with code? := some b }

theorem Sections.get_put (s : Sections) (part : Part) (v : part.Value) :
    (put part v s).get part = some v := by
  cases part <;> rfl

/-- The sections are kept apart. -/
theorem Sections.get_put_of_ne (s : Sections) {part part' : Part} (h : part' ≠ part)
    (v : part.Value) : (put part v s).get part' = s.get part' := by
  cases part <;> cases part' <;> first | rfl | exact absurd rfl h

/-- The rule for the fragment in a section. -/
def fragmentRule (g : Knot) : (part : Part) → Rule part.Value
  | .parameter => g.plainType
  | .storage => g.plainType
  | .code => g.block

/-- The rule for a section. -/
def sectionRule (g : Knot) : (part : Part) → Rule part.Value
  | .parameter => typeSection g .parameter
  | .storage => typeSection g .storage
  | .code => codeSection g

/-- The member of the group of sections for a section. -/
def sectionMember (g : Knot) (part : Part) : Rule (Sections → Sections) :=
  slot (sectionRule g part) (Sections.put part)

/-- The contract made of the values of all sections. -/
def assembled (s : Sections) : Rule Contract := do
  let parameter ← require .parameter s.parameter?
  let storage ← require .storage s.storage?
  let code ← require .code s.code?
  pure ⟨parameter, storage, code⟩

/-- The three sections are one member each, and the contract is made of what they leave. -/
theorem contractRule_eq (g : Knot) : contractRule g =
    group ([.parameter, .storage, .code].map (sectionMember g)) {} >>= assembled := rfl

theorem respected_fragmentRule (part : Part) : Respected fun g => fragmentRule g part := by
  cases part with
  | parameter | storage => exact respected_plainType
  | code => exact respected_block

/-- Sections are rules of the grammar, so all that the grammar respects holds of them. -/
theorem respected_sectionRule (part : Part) : Respected fun g => sectionRule g part := by
  cases part with
  | parameter => exact fun _ _ _ C _ _ _ h => C.typeSection h.type .parameter
  | storage => exact fun _ _ _ C _ _ _ h => C.typeSection h.type .storage
  | code => exact fun _ _ _ C _ _ _ h => C.codeSection h.block

end Grammar

namespace Track

variable {T : Track} {k j : Nat} {part : Part}

/-- The fragments are rules of the full grammar. -/
theorem kept_fragmentRule (part : Part) : T.Kept (fragmentRule Knot.full part) :=
  kept_of_respected (respected_fragmentRule part)

theorem kept_sectionRule (part : Part) : T.Kept (sectionRule Knot.full part) :=
  kept_of_respected (respected_sectionRule part)

/-- The keyword of a section is read where it is the next token. -/
theorem yields_keyword {name : String} (h : T.token? k = some (.word name.toList)) :
    T.Yields (keyword name) k () (k + 1) := by
  rw [keyword_eq]
  exact yields_word h (if_pos rfl)

theorem misses_keyword {name : String} (hk : k ≤ T.length)
    (h : T.token? k ≠ some (.word name.toList)) : T.Misses (keyword name) k := by
  rw [keyword_eq]
  exact misses_word hk fun w ht => if_neg fun hw => h (by rw [ht, hw])

/-- A keyword passes one token. -/
theorem gives_keyword {name : String} (hk : k ≤ T.length) :
    T.Gives (keyword name) k fun _ j => T.token? k = some (.word name.toList) ∧ j = k + 1 := by
  rw [keyword_eq]
  refine (gives_word hk).mono ?_
  rintro _ _ - ⟨w, ht, hw, rfl⟩
  split at hw
  · rename_i heq
    exact ⟨heq ▸ ht, rfl⟩
  · cases hw

/-- A section is read where its keyword, the fragment and the semicolon are. The code may
do without the semicolon. -/
theorem yields_sectionRule {v : part.Value} {i : Nat}
    (hkey : T.token? k = some (.word part.keyword.toList))
    (h : T.Yields (fragmentRule Knot.full part) (k + 1) v i)
    (hend : T.token? i = some (.mark ';') ∧ j = i + 1 ∨
      part = .code ∧ T.token? i ≠ some (.mark ';') ∧ j = i) :
    T.Yields (sectionRule Knot.full part) k v j := by
  have hk := le_of_token? hkey
  cases part with
  | parameter | storage =>
    obtain ⟨hsemi, rfl⟩ := hend.resolve_right fun h => nomatch h.1
    rw [sectionRule, typeSection_eq]
    exact (yields_keyword hkey).bind ((yields_marking hk _).bind
      (h.bind ((yields_symbol (by decide) hsemi).bind (yields_pure (le_of_token? hsemi) _))))
  | code =>
    rw [sectionRule, codeSection_eq]
    refine (yields_keyword hkey).bind ((yields_marking hk _).bind (h.bind ?_))
    rcases hend with ⟨hsemi, rfl⟩ | ⟨-, hno, rfl⟩
    · exact (yields_symbol (by decide) hsemi).optional.bind (yields_pure (le_of_token? hsemi) _)
    · exact ((misses_symbol (by decide) h.le_length hno).optional h.le_length).bind
        (yields_pure h.le_length _)

/-- A section is missed where its keyword does not come next. -/
theorem misses_sectionRule (hk : k ≤ T.length)
    (h : T.token? k ≠ some (.word part.keyword.toList)) :
    T.Misses (sectionRule Knot.full part) k := by
  cases part with
  | parameter | storage | code => exact (misses_keyword hk h).bind _

/-- The other way round, all that is read as a section is its keyword, a fragment and a semicolon.
-/
theorem gives_sectionRule (hk : k ≤ T.length) :
    T.Gives (sectionRule Knot.full part) k fun v j =>
      T.token? k = some (.word part.keyword.toList) ∧
        ∃ i, T.Yields (fragmentRule Knot.full part) (k + 1) v i ∧
          (T.token? i = some (.mark ';') ∧ j = i + 1 ∨
            part = .code ∧ T.token? i ≠ some (.mark ';') ∧ j = i) := by
  have hfragment : ∀ i, i ≤ T.length → T.Gives (fragmentRule Knot.full part) i
      (T.Yields (fragmentRule Knot.full part) i) := fun i hi => (kept_fragmentRule part).gives hi
  cases part with
  | parameter | storage =>
    rw [sectionRule, typeSection_eq]
    refine (gives_keyword hk).bind fun _ i _ hi hkey => ?_
    obtain ⟨hkey, rfl⟩ := hkey
    refine (gives_marking hi).bind fun _ _ _ _ heq => ?_
    subst heq
    refine (hfragment _ hi).bind fun t i _ hi ht => ?_
    refine (gives_symbol (by decide) hi).bind fun _ j _ hj hsemi => ?_
    exact .pure hj ⟨hkey, i, ht, .inl hsemi⟩
  | code =>
    rw [sectionRule, codeSection_eq]
    refine (gives_keyword hk).bind fun _ i _ hi hkey => ?_
    obtain ⟨hkey, rfl⟩ := hkey
    refine (gives_marking hi).bind fun _ _ _ _ heq => ?_
    subst heq
    refine (hfragment _ hi).bind fun b i _ hi hb => ?_
    refine ((gives_symbol (by decide) hi).optional (kept_symbol (by decide)) hi).bind
      fun x j _ hj hx => ?_
    rcases hx with ⟨_, rfl, hsemi⟩ | ⟨rfl, rfl, hmiss⟩
    · exact .pure hj ⟨hkey, i, hb, .inl hsemi⟩
    · have hno : T.token? j ≠ some (.mark ';') := fun hsemi =>
        (yields_symbol (by decide) hsemi).not_misses hmiss
      exact .pure hj ⟨hkey, j, hb, .inr ⟨rfl, hno, rfl⟩⟩

/-- At least the keyword is passed. -/
theorem passing_sectionRule (part : Part) : T.Passing (sectionRule Knot.full part) := by
  intro k v j h
  obtain ⟨-, i, hi, hend⟩ := h.of_gives (gives_sectionRule (h.le.trans h.le_length))
  have hle := hi.le
  rcases hend with ⟨-, rfl⟩ | ⟨-, -, rfl⟩ <;> omega

/-- The values that a member puts in do not matter for where it stands. -/
theorem kept_sectionMember (part : Part) : T.Kept (sectionMember Knot.full part) :=
  (kept_sectionRule part).slot _

theorem passing_sectionMember (part : Part) : T.Passing (sectionMember Knot.full part) :=
  (passing_sectionRule part).slot (kept_sectionRule part) _

/-- A group changes its own members only. -/
theorem Rounds.get_eq {is : List Part} {x y : Sections} (h : T.Rounds (sectionMember Knot.full) is k x y j) :
    part ∉ is → y.get part = x.get part := by
  induction h with
  | stop _ => exact fun _ => rfl
  | round _ h _ ih =>
    intro hpart
    obtain ⟨v, rfl, -⟩ := h.of_gives ((gives_sectionRule (h.le.trans h.le_length)).slot _)
    simp only [List.mem_append, List.mem_cons, not_or] at hpart
    rw [ih (by simp [hpart]), Sections.get_put_of_ne _ hpart.2.1]

/-- A contract has what all sections have. -/
theorem yields_assembled {s : Sections} {c : Contract} (hk : k ≤ T.length)
    (h : ∀ part, s.get part = some (c.get part)) : T.Yields (assembled s) k c k := by
  have hparameter : s.parameter? = some c.parameter := h .parameter
  have hstorage : s.storage? = some c.storage := h .storage
  have hcode : s.code? = some c.code := h .code
  rw [assembled, hparameter, hstorage, hcode]
  exact yields_pure hk c

/-- A section that is missing makes the contract fail. -/
theorem gives_require {α : Type} {x : Option α} (hk : k ≤ T.length) :
    T.Gives (require part x) k fun a j => x = some a ∧ j = k := by
  cases x with
  | some a => exact .pure hk ⟨rfl, rfl⟩
  | none => exact .fail

/-- A contract is made only where all sections are there. -/
theorem gives_assembled {s : Sections} (hk : k ≤ T.length) :
    T.Gives (assembled s) k fun c j => j = k ∧ ∀ part, s.get part = some (c.get part) := by
  refine (gives_require hk).bind fun p i _ hi hp => ?_
  refine (gives_require hi).bind fun q i' _ hi' hq => ?_
  refine (gives_require hi').bind fun b j _ hj hb => ?_
  obtain ⟨hp, rfl⟩ := hp
  obtain ⟨hq, rfl⟩ := hq
  obtain ⟨hb, rfl⟩ := hb
  refine .pure hj ⟨rfl, fun part => ?_⟩
  cases part
  exacts [hp, hq, hb]

/-- **Contracts.** A contract is read as the group of its sections. -/
theorem gives_contractRule (hk : k ≤ T.length) : T.Gives (contractRule Knot.full) k fun c j =>
    ∃ s, T.Rounds (sectionMember Knot.full) [.parameter, .storage, .code] k {} s j ∧
      ∀ part, s.get part = some (c.get part) := by
  rw [contractRule_eq]
  refine (Rounds.gives kept_sectionMember passing_sectionMember hk {}).bind fun s j _ hj hs => ?_
  refine (gives_assembled hj).mono fun c i _ hc => ?_
  obtain ⟨rfl, hc⟩ := hc
  exact ⟨s, hs, hc⟩

/-- The other way round, sections in any order that fill all slots are a contract. -/
theorem yields_contractRule {s : Sections} {c : Contract} (hk : k ≤ T.length)
    (hs : T.Rounds (sectionMember Knot.full) [.parameter, .storage, .code] k {} s j)
    (hc : ∀ part, s.get part = some (c.get part)) : T.Yields (contractRule Knot.full) k c j := by
  rw [contractRule_eq]
  have hgroup := hs.yields hk passing_sectionMember
  exact hgroup.bind (yields_assembled hgroup.le_length hc)

end Track

end Michelson
