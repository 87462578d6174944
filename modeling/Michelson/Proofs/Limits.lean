import Mathlib.Data.Nat.Find
import Michelson.Proofs.Hereditary

/-!
# Limits on nesting

A limit on nesting can stop a run, and can do nothing else to it. No combinator
hides the error that it raises, and the level is left again however a rule ends.
So a run under a looser limit goes the same way until the stricter one would have
stopped it, and with a limit that is high enough a run is the one without a limit.

* `Raises` says what errors a rule may raise under which limit.
* `Unlimited` says that some limit is high enough.
* `parseWithin_limits` is the statement about contracts: there is one threshold.
-/

namespace Michelson

open Rule

variable {α : Type}

/-! ## Errors that are raised -/

namespace Rule

/-- Under a limit the rule raises only errors that `E` allows for it. -/
def Raises (E : Option Nat → Error → Prop) ⦃α : Type⦄ (r : Rule α) : Prop :=
  ∀ limit s e, (r limit s).verdict = .halt (.error e) → E limit e

variable {E : Option Nat → Error → Prop}

/-- An error of a sequence is raised by one of its rules. -/
theorem raises_bind {β : Type} {r : Rule α} {k : α → Rule β} (h : Raises E r)
    (hk : ∀ a, r.Returns a → Raises E (k a)) : Raises E (r >>= k) := by
  intro limit s e he
  rcases hr : r limit s with ⟨a | _ | stop, t⟩
  · rw [bind_ok hr] at he
    exact hk a ⟨limit, s, t, hr⟩ limit t e he
  · rw [bind_miss hr] at he
    cases he
  · rw [bind_halt hr] at he
    cases he
    exact h limit s e (congrArg Reply.verdict hr)

/-- An optional rule raises what its rule does. -/
theorem raises_optional {r : Rule α} (h : Raises E r) : Raises E (optional r) := by
  intro limit s e he
  rw [optional] at he
  rcases hr : r limit s with ⟨a | _ | stop, t⟩ <;> rw [hr] at he <;> try cases he
  exact h limit s e (congrArg Reply.verdict hr)

theorem raises_attempt {r : Rule α} (h : Raises E r) : Raises E (attempt r) := by
  intro limit s e he
  rw [attempt] at he
  rcases hr : r limit s with ⟨a | _ | stop, t⟩ <;> rw [hr] at he <;> try cases he
  exact h limit s e (congrArg Reply.verdict hr)

/-- Besides the errors of the rule there is the one about the depth. -/
theorem raises_nested {r : Rule α} (hdepth : ∀ p l, E (some l) (.depth p l)) (h : Raises E r) :
    Raises E (nested r) := by
  intro limit s e he
  cases limit with
  | none => exact h none { s with depth := s.depth + 1 } e he
  | some l =>
    rw [nested_some] at he
    split at he
    · cases he
      exact hdepth _ l
    · exact h (some l) { s with depth := s.depth + 1 } e he

theorem raises_pure (a : α) : Raises E (pure a : Rule α) := fun _ _ _ he => nomatch he

/-- Failing raises nothing. -/
theorem raises_fail (what : Expectation) : Raises E (fail (α := α) what) :=
  fun _ _ _ he => nomatch he

theorem raises_moveTo (c : Cursor) : Raises E (moveTo c) := fun _ _ _ he => nomatch he

/-- The errors of a scan are all that it raises. -/
theorem raises_scanning {look : Cursor → Except Error (α × Cursor)}
    (h : ∀ limit c e, look c = .error e → E limit e) : Raises E (scanning look) := by
  intro limit s e he
  rw [scanning] at he
  cases hl : look s.cursor with
  | ok found =>
    rw [hl] at he
    cases he
  | error e' =>
    rw [hl] at he
    cases he
    exact h limit _ _ hl

/-- Errors of scans and errors of depth are all that rules raise. -/
theorem hereditary_raises (hfound : ∀ limit c e, Error.FoundFrom c e → E limit e)
    (hdepth : ∀ p l, E (some l) (.depth p l)) : Hereditary (Raises E) where
  pure := raises_pure
  bind := raises_bind
  miss _ _ _ he := nomatch he
  fail := raises_fail
  exhausted _ _ _ he := nomatch he
  optional := raises_optional
  attempt := raises_attempt
  nested := raises_nested hdepth
  advancing h := advancing_of_moveTo (fun h hk => raises_bind h fun a _ => hk a)
    (fun h => raises_scanning fun limit c e he => hfound limit c e (h.found he)) raises_moveTo
    raises_pure (raises_optional h)
  log _ _ _ _ he := nomatch he
  scanning h := raises_scanning fun limit c e he => hfound limit c e (h.found he)
  returned _ what := returned_of_moveTo (fun h hk => raises_bind h fun a _ => hk a)
    (fun h => raises_scanning fun limit c e he => hfound limit c e (h.found he)) raises_moveTo
    (raises_fail what)

end Rule

/-- The limit in an error of depth is the one that was set. -/
def Error.TellsLimit (limit : Option Nat) (e : Error) : Prop :=
  ∀ p l, e = .depth p l → limit = some l

/-- The error about the depth is raised by nested rules, and tells the limit that is in force. -/
theorem hereditary_tellsLimit : Hereditary (Raises Error.TellsLimit) := by
  refine hereditary_raises ?_ ?_
  · rintro limit c e ⟨c', -, ⟨fault, rfl⟩ | ⟨fault, rfl⟩⟩ p l h <;> cases h
  · intro p l q m h
    cases h
    rfl

/-- The error that is made of a miss is not one of depth. -/
theorem State.error_ne_depth (s : State) (p : Position) (l : Nat) : s.error ≠ .depth p l := by
  rw [State.error]
  split
  · rw [Furthest.error]
    split
    · simp
    · split
      · simp
      · split <;> simp
  · simp

/-! ## Limits that are high enough -/

namespace Rule

/-- From every state there is a limit from which on the rule does as without one. -/
def Unlimited ⦃α : Type⦄ (r : Rule α) : Prop := ∀ s, ∃ n, ∀ l ≥ n, r (some l) s = r none s

/-- What does not look at the limit does as without one. -/
theorem Unlimited.of_same {r : Rule α} (h : ∀ l s, r (some l) s = r none s) : Unlimited r :=
  fun s => ⟨0, fun l _ => h l s⟩

/-- The larger of two limits is high enough for both rules. -/
theorem unlimited_bind {β : Type} {r : Rule α} {k : α → Rule β} (h : Unlimited r)
    (hk : ∀ a, r.Returns a → Unlimited (k a)) : Unlimited (r >>= k) := by
  intro s
  obtain ⟨n, hn⟩ := h s
  rcases hr : r none s with ⟨a | _ | stop, t⟩
  · obtain ⟨m, hm⟩ := hk a ⟨none, s, t, hr⟩ t
    refine ⟨max n m, fun l hl => ?_⟩
    have hrl := (hn l (le_trans (le_max_left n m) hl)).trans hr
    rw [bind_ok hrl, bind_ok hr, hm l (le_trans (le_max_right n m) hl)]
  · exact ⟨n, fun l hl => by rw [bind_miss ((hn l hl).trans hr), bind_miss hr]⟩
  · exact ⟨n, fun l hl => by rw [bind_halt ((hn l hl).trans hr), bind_halt hr]⟩

/-- What is high enough for the rule is high enough for the option. -/
theorem unlimited_optional {r : Rule α} (h : Unlimited r) : Unlimited (optional r) := by
  intro s
  obtain ⟨n, hn⟩ := h s
  exact ⟨n, fun l hl => by rw [optional, optional, hn l hl]⟩

theorem unlimited_attempt {r : Rule α} (h : Unlimited r) : Unlimited (attempt r) := by
  intro s
  obtain ⟨n, hn⟩ := h s
  exact ⟨n, fun l hl => by rw [attempt, attempt, hn l hl]⟩

/-- The level at which the rule begins has to be below the limit as well. -/
theorem unlimited_nested {r : Rule α} (h : Unlimited r) : Unlimited (nested r) := by
  intro s
  obtain ⟨n, hn⟩ := h { s with depth := s.depth + 1 }
  refine ⟨max n (s.depth + 1), fun l hl => ?_⟩
  have hd : ¬ s.depth ≥ l := by omega
  rw [nested_some, if_neg hd, nested_none, deeper, deeper, hn l (by omega)]

theorem unlimited_pure (a : α) : Unlimited (pure a : Rule α) := .of_same fun _ _ => rfl

theorem unlimited_moveTo (c : Cursor) : Unlimited (moveTo c) := .of_same fun _ _ => rfl

/-- Every rule does as without a limit under one that is high enough. -/
theorem hereditary_unlimited : Hereditary Unlimited where
  pure := unlimited_pure
  bind := unlimited_bind
  miss := .of_same fun _ _ => rfl
  fail _ := .of_same fun _ _ => rfl
  exhausted := .of_same fun _ _ => rfl
  optional := unlimited_optional
  attempt := unlimited_attempt
  nested := unlimited_nested
  advancing h := advancing_of_moveTo (fun h hk => unlimited_bind h fun a _ => hk a)
    (fun _ => .of_same fun _ _ => rfl) unlimited_moveTo unlimited_pure (unlimited_optional h)
  log _ := .of_same fun _ _ => rfl
  scanning _ := .of_same fun _ _ => rfl
  returned _ _ := returned_of_moveTo (fun h hk => unlimited_bind h fun a _ => hk a)
    (fun _ => .of_same fun _ _ => rfl) unlimited_moveTo (.of_same fun _ _ => rfl)

end Rule

/-! ## Contracts -/

/-- An error of depth carries the limit that was set. -/
theorem parseWithin_depth {limit : Option Nat} {text : String} {p : Position} {l : Nat}
    (h : Contract.parseWithin limit text = .error (.depth p l)) : limit = some l := by
  have hraises := hereditary_tellsLimit.whole
    (hereditary_tellsLimit.tied Grammar.respected_contractRule (Grammar.callsFor text.toList))
  rw [Contract.parseWithin, Reply.result] at h
  split at h
  · cases h
  · exact absurd (Except.error.inj h) (State.error_ne_depth _ p l)
  · rename_i e he
    exact hraises limit _ e he p l (Except.error.inj h)
  · exact absurd (Except.error.inj h) (State.error_ne_depth _ p l)

/-- What is read under a limit is read under a looser one. -/
theorem parseWithin_looser {limit limit' : Option Nat} (hl : Looser limit limit') (text : String)
    (h : ∀ p l, Contract.parseWithin limit text ≠ .error (.depth p l)) :
    Contract.parseWithin limit' text = Contract.parseWithin limit text := by
  rw [Contract.parseWithin, Contract.read, Grammar.run_eq_full Grammar.respected_contractRule]
  rw [Contract.parseWithin, Contract.read,
    Grammar.run_eq_full Grammar.respected_contractRule] at h ⊢
  rcases Grammar.whole_of_looser Grammar.respected_contractRule hl (.initial text.toList) with
    heq | ⟨p, l, -, hdepth⟩
  · rw [heq]
  · refine absurd ?_ (h p l)
    rw [Reply.result, hdepth]

/-- Some limit is high enough for a text. -/
theorem exists_parseWithin_eq (text : String) :
    ∃ n, ∀ l ≥ n, Contract.parseWithin (some l) text = Contract.parseWithin none text := by
  have hunlimited := hereditary_unlimited.whole
    (hereditary_unlimited.tied Grammar.respected_contractRule (Grammar.callsFor text.toList))
  obtain ⟨n, hn⟩ := hunlimited (.initial text.toList)
  exact ⟨n, fun l hl => congrArg Reply.result (hn l hl)⟩

/-- The limits up to some number stop the reading of a text, and the others do nothing. -/
def Threshold (text : String) (n : Nat) : Prop :=
  ∀ l, (l < n → ∃ p, Contract.parseWithin (some l) text = .error (.depth p l)) ∧
    (n ≤ l → Contract.parseWithin (some l) text = Contract.parseWithin none text)

/-- There is a limit that is high enough, and so there is a least one. -/
theorem exists_threshold (text : String) : ∃ n, Threshold text n := by
  classical
  have hex : ∃ n, ∀ p, Contract.parseWithin (some n) text ≠ .error (.depth p n) := by
    obtain ⟨n, hn⟩ := exists_parseWithin_eq text
    refine ⟨n, fun p hp => ?_⟩
    rw [hn n le_rfl] at hp
    cases parseWithin_depth hp
  have hfree : ∀ p l, Contract.parseWithin (some (Nat.find hex)) text ≠ .error (.depth p l) := by
    intro p l hp
    have hl := parseWithin_depth hp
    rw [Option.some.injEq] at hl
    exact Nat.find_spec hex p (hl ▸ hp)
  have hnone := parseWithin_looser (looser_none _) text hfree
  refine ⟨Nat.find hex, fun l => ⟨fun hl => ?_, fun hl => ?_⟩⟩
  · by_contra hnone
    exact Nat.find_min hex hl fun p hp => hnone ⟨p, hp⟩
  · rw [hnone]
    refine parseWithin_looser (fun l' hl' => ⟨_, rfl, ?_⟩) text hfree
    cases hl'
    exact hl

/-- Two thresholds of a text are the same. -/
theorem Threshold.le {text : String} {n m : Nat} (hn : Threshold text n) (hm : Threshold text m) :
    n ≤ m := by
  by_contra hlt
  obtain ⟨p, hp⟩ := (hn m).1 (Nat.lt_of_not_le hlt)
  rw [(hm m).2 le_rfl] at hp
  cases parseWithin_depth hp

/-- **A limit on nesting adds errors of depth and changes nothing else.** A result that
is no error of depth is the result under every looser limit; an error of depth carries
the limit that was set; and for each text there is one threshold, below which a limit
stops the reading and from which on it does nothing. -/
theorem parseWithin_limits (text : String) :
    (∀ limit limit', Looser limit limit' →
      (∀ p l, Contract.parseWithin limit text ≠ .error (.depth p l)) →
        Contract.parseWithin limit' text = Contract.parseWithin limit text) ∧
    (∀ limit p l, Contract.parseWithin limit text = .error (.depth p l) → limit = some l) ∧
    ∃! n, Threshold text n := by
  refine ⟨fun _ _ hl h => parseWithin_looser hl text h, fun _ _ _ h => parseWithin_depth h, ?_⟩
  obtain ⟨n, hn⟩ := exists_threshold text
  exact ⟨n, hn, fun m hm => le_antisymm (hm.le hn) (hn.le hm)⟩

end Michelson
