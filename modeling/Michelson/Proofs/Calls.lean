import Michelson.Parse
import Michelson.Proofs.Lockstep

/-!
# Calls that are enough

A run of the grammar has a number of calls left, which bounds how often rules
call each other. The number for a text is never used up: at one place a rule is
called again at most once, by way of the block that a value may be. So the calls
can be forgotten: `Knot.full` is the grammar with as many calls left as the text
asks for, it solves the equation of the grammar, and a text is read by it.

A limit on nesting can be forgotten too, except that it may stop a run.

* `Knot.full_next` is the equation of the grammar.
* `run_eq_full` says that texts are read by the full grammar.
* `whole_of_looser` compares runs under two limits.
-/

namespace Michelson

open Rule

/-! ## Runs under two limits -/

/-- The second limit allows all nesting that the first one allows. -/
def Looser (limit limit' : Option Nat) : Prop :=
  ∀ l', limit' = some l' → ∃ l, limit = some l ∧ l ≤ l'

/-- A limit is as loose as itself. -/
theorem Looser.refl (limit : Option Nat) : Looser limit limit := fun l h => ⟨l, h, le_rfl⟩

theorem looser_none (limit : Option Nat) : Looser limit none := by
  intro l h
  cases h

/-- Runs that are the same but for the limit on nesting, which may stop the first. -/
def Setting.agreeing (limit limit' : Option Nat) : Setting where
  limit := limit
  limit' := limit'
  memory s s' := s = s'
  placed c c' := c = c'
  halts stop s stop' s' := stop = stop' ∧ s = s' ∧ stop ≠ .outOfFuel
  excused stop := limit ≠ limit' ∧ ∃ p l, limit = some l ∧ stop = .error (.depth p l)
  excused' _ := False
  moved := by
    rintro s s' c c' rfl rfl
    rfl

/-- Runs without a limit that begin with different memories. -/
def Setting.steady : Setting where
  limit := none
  limit' := none
  memory _ _ := True
  placed _ _ := True
  halts _ _ _ _ := True
  excused _ := False
  excused' _ := False
  moved _ _ := trivial

/-- Runs one level deeper end alike where the runs themselves do, if a change of depth
makes no difference. -/
theorem Setting.Alike.deeper {S : Setting} {α β : Type} {V : α → β → Prop}
    {post : Cursor → Cursor → Prop} {x : Reply α} {y : Reply β}
    (hmem : ∀ {t t' : State}, S.memory t t' →
      S.memory { t with depth := t.depth - 1 } { t' with depth := t'.depth - 1 })
    (hhalts : ∀ {stop stop' : Stop} {t t' : State}, S.halts stop t stop' t' →
      S.halts stop { t with depth := t.depth - 1 } stop' { t' with depth := t'.depth - 1 })
    (h : S.Alike post V x y) :
    S.Alike post V ⟨x.verdict, { x.state with depth := x.state.depth - 1 }⟩
      ⟨y.verdict, { y.state with depth := y.state.depth - 1 }⟩ := by
  revert h
  rcases x with ⟨a | _ | stop, t⟩ <;> rcases y with ⟨b | _ | stop', t'⟩ <;> intro h
  case ok.ok => exact ⟨h.1, h.2.1, hmem h.2.2⟩
  case miss.miss => exact hmem h
  case halt.halt => exact h.imp_right fun h => h.imp_right hhalts
  all_goals exact h

namespace SameText

/-- In this setting nothing is compared but the places. -/
theorem steady : SameText .steady where
  placed _ := trivial
  expect _ _ _ := trivial
  log _ _ := trivial
  raised _ _ _ := trivial
  nested _ h s s' hs _ :=
    (h { s with depth := s.depth + 1 } { s' with depth := s'.depth + 1 } hs trivial).deeper
      (fun _ => trivial) (fun _ => trivial)

/-- The looser limit stops a run later, if at all. Up to then both runs do the same. -/
theorem agreeing {limit limit' : Option Nat} (hl : Looser limit limit') :
    SameText (.agreeing limit limit') where
  placed _ := rfl
  expect what _ h := congrArg (State.expect · what) h
  log e h := congrArg (State.log · e) h
  raised e _ h := ⟨rfl, congrArg (State.log · _) h, by simp⟩
  nested := by
    intro α β V pre r r' _ h s s' hs hmem
    have hdeep : (Setting.agreeing limit limit').Alike pre V (deeper r limit s)
        (deeper r' limit' s') := by
      obtain rfl : s = s' := hmem
      refine (h { s with depth := s.depth + 1 } { s with depth := s.depth + 1 } hs rfl).deeper ?_ ?_
      · rintro t t' rfl
        rfl
      · rintro stop stop' t t' ⟨rfl, rfl, hfuel⟩
        exact ⟨rfl, rfl, hfuel⟩
    obtain rfl : s = s' := hmem
    change (Setting.agreeing limit limit').Alike pre V (Rule.nested r limit s)
      (Rule.nested r' limit' s)
    cases limit' with
    | none =>
      cases limit with
      | none => exact hdeep
      | some l =>
        -- only the first run can be stopped here, and then it is excused
        rw [nested_some]
        split
        · exact Setting.Alike.of_excused (S := .agreeing _ _) ⟨Option.some_ne_none l, _, l, rfl, rfl⟩ _
        · exact hdeep
    | some l' =>
      obtain ⟨l, rfl, hle⟩ := hl l' rfl
      rw [nested_some, nested_some]
      by_cases hd : s.depth ≥ l
      · rw [if_pos hd]
        -- the same limit stops both runs, a looser one may not
        by_cases heq : l = l'
        · subst heq
          rw [if_pos hd]
          exact .inr (.inr ⟨rfl, rfl, by simp⟩)
        · exact Setting.Alike.of_excused (S := .agreeing _ _) ⟨by simpa using heq, _, l, rfl, rfl⟩ _
      · rw [if_neg hd, if_neg (by omega)]
        exact hdeep

end SameText

namespace Setting.Alike

variable {α : Type} {limit limit' : Option Nat} {post : Cursor → Cursor → Prop} {x y : Reply α}

/-- Replies of runs that agree are the same, unless the limit has stopped the first. -/
theorem eq_or (h : (agreeing limit limit').Alike post Eq x y) :
    x = y ∨ limit ≠ limit' ∧ ∃ p l, limit = some l ∧ x.verdict = .halt (.error (.depth p l)) := by
  revert h
  rcases x with ⟨a | _ | stop, t⟩ <;> rcases y with ⟨b | _ | stop', t'⟩ <;> intro h
  case ok.ok =>
    obtain ⟨rfl, -, rfl⟩ := h
    exact .inl rfl
  case miss.miss =>
    obtain rfl : t = t' := h
    exact .inl rfl
  case halt.halt =>
    rcases h with ⟨hne, p, l, hlimit, rfl⟩ | h | ⟨rfl, rfl, -⟩
    · exact .inr ⟨hne, p, l, hlimit, rfl⟩
    · exact h.elim
    · exact .inl rfl
  case halt.ok | halt.miss =>
    obtain ⟨hne, p, l, hlimit, rfl⟩ := h
    exact .inr ⟨hne, p, l, hlimit, rfl⟩
  case ok.miss | miss.ok | ok.halt | miss.halt => exact h.elim

/-- Replies of runs that agree under one limit are the same. -/
theorem eq (h : (agreeing limit limit).Alike post Eq x y) : x = y :=
  h.eq_or.resolve_right fun hne => hne.1 rfl

end Setting.Alike

/-! ## The full grammar -/

namespace Grammar

open TypePlacement

/-- A rule that is built from the rules of a knot. -/
def Respected {α : Type} (rule : Knot → Rule α) : Prop :=
  ∀ ⦃F P : Nat → RuleRelation⦄ ⦃Q : Nat → Rule PairTree → Rule PairTree → Prop⦄,
    Congruence F P Q → ∀ ⦃n : Nat⦄ ⦃g g' : Knot⦄, Knot.Related F Q n g g' →
      F n Eq (rule g) (rule g')

/-- A contract is made of rules of the grammar. -/
theorem respected_contractRule : Respected contractRule :=
  fun _ _ _ C _ _ _ h => C.contractRule h.type h.block

theorem respected_plainType : Respected Knot.plainType := fun _ _ _ C _ _ _ h => C.plainType h.type

theorem respected_value : Respected Knot.value := fun _ _ _ _ _ _ _ h => h.value

theorem respected_block : Respected Knot.block := fun _ _ _ _ _ _ _ h => h.block

theorem respected_step : Respected step := fun _ _ _ C _ _ _ h => C.step h

namespace Knot

/-- The rules with as many calls left as are enough for a text of the given length. -/
def enough (length : Nat) : Knot := tied (2 * length + 2)

/-- The rules with as many calls left as the text asks for. -/
def full : Knot where
  type withField limit s := (enough s.cursor.rest.length).type withField limit s
  comparable limit s := (enough s.cursor.rest.length).comparable limit s
  value limit s := (enough s.cursor.rest.length).value limit s
  block limit s := (enough s.cursor.rest.length).block limit s
  pairTree limit s := (enough s.cursor.rest.length).pairTree limit s

/-- Knots whose rules agree where less than `n` characters are left. -/
abbrev Agree (limit : Option Nat) (n : Nat) (g g' : Knot) : Prop :=
  Related (Keeps (.agreeing limit limit) fun _ n => SameText.Within n)
    (SameText.KeepsTrees (.agreeing limit limit)) n g g'

variable (limit : Option Nat)

/-- More calls than enough make no difference. -/
theorem agree_tied (n : Nat) : ∀ {a b : Nat}, 2 * n ≤ a → 2 * n ≤ b →
    Agree limit n (tied a) (tied b) := by
  have C := (SameText.agreeing (Looser.refl limit)).congruence
  induction n with
  | zero => exact fun _ _ => (SameText.agreeing (Looser.refl limit)).related_zero _ _
  | succ n ih =>
    intro a b ha hb
    obtain ⟨a, rfl⟩ : ∃ c, a = c + 2 := ⟨a - 2, by omega⟩
    obtain ⟨b, rfl⟩ : ∃ c, b = c + 2 := ⟨b - 2, by omega⟩
    exact C.next (ih (by omega) (by omega)) (C.blockRule (ih (by omega) (by omega)))

/-- For a block one call less is enough. -/
theorem agree_tied_block {n a b : Nat} (ha : 2 * n ≤ a) (hb : 2 * n ≤ b) :
    Keeps (.agreeing limit limit) (fun _ n => SameText.Within n) (n + 1) Eq
      (tied (a + 1)).block (tied (b + 1)).block :=
  (SameText.agreeing (Looser.refl limit)).congruence.blockRule (agree_tied limit n ha hb)

/-- A rule agrees with another one if it does so at each length of the text. -/
theorem sim_of_each {α : Type} {n : Nat} {r r' : Rule α} (each : Nat → Rule α)
    (h : ∀ m < n, Sim (.agreeing limit limit) (SameText.Within (m + 1)) (SameText.Within (m + 1))
      Eq r (each m))
    (heach : ∀ s, r' limit s = each s.cursor.rest.length limit s) :
    Sim (.agreeing limit limit) (SameText.Within n) (SameText.Within n) Eq r r' := by
  intro s s' hs hmem
  have hlen := hs.2.2
  obtain rfl : s = s' := hmem
  have hrun := ((h s.cursor.rest.length hlen).weaken (fun _ _ h => h)
    (fun _ _ h => SamePlace.weaken h hlen) fun _ _ h => h) s s ⟨rfl, trivial, Nat.lt_succ_self _⟩ rfl
  change (Setting.agreeing limit limit).Alike _ Eq (r limit s) (r' limit s)
  rw [heach]
  exact hrun

/-- Rules that agree with those that have enough calls left agree with the full ones. -/
theorem agree_full {g : Knot} {n : Nat}
    (h : ∀ m < n, Agree limit (m + 1) g (enough m)) : Agree limit n g full where
  type b d m hd hm :=
    sim_of_each limit _ (fun k hk => (h k (by omega)).type b d _ hd le_rfl) fun _ => rfl
  comparable d m hd hm :=
    sim_of_each limit _ (fun k hk => (h k (by omega)).comparable d _ hd le_rfl) fun _ => rfl
  value d m hd hm :=
    sim_of_each limit _ (fun k hk => (h k (by omega)).value d _ hd le_rfl) fun _ => rfl
  block d m hd hm :=
    sim_of_each limit _ (fun k hk => (h k (by omega)).block d _ hd le_rfl) fun _ => rfl
  pairTree m hm :=
    sim_of_each limit _ (fun k hk => (h k (by omega)).pairTree _ le_rfl) fun _ => rfl

/-- With enough calls left, the rules are the full ones. -/
theorem agree_tied_full {n a : Nat} (ha : 2 * n ≤ a) : Agree limit n (tied a) full :=
  agree_full limit fun m hm => agree_tied limit (m + 1) (by omega) le_rfl

/-- With enough calls for a text, one call more changes nothing. -/
theorem agree_enough_next (n : Nat) : Agree limit (n + 1) (enough n) full.next := by
  have hblock : Keeps (.agreeing limit limit) (fun _ n => SameText.Within n) (n + 1) Eq
      (tied (2 * n + 1)).block full.block := fun d m hd hm =>
    sim_of_each limit (fun k => (enough k).block)
      (fun k hk => agree_tied_block limit (by omega) (Nat.le_succ _) d _ hd le_rfl) fun _ => rfl
  exact (SameText.agreeing (Looser.refl limit)).congruence.next
    (agree_tied_full limit (Nat.le_succ _)) hblock

/-- Rules that agree at each length of the text are the same. -/
theorem each_eq {α : Type} {r r' : Rule α} (each : Nat → Rule α)
    (heach : r = fun limit s => each s.cursor.rest.length limit s)
    (h : ∀ limit m, Keeps (.agreeing limit limit) (fun _ n => SameText.Within n) (m + 1) Eq
      (each m) r') : r = r' := by
  rw [heach]
  funext limit s
  exact (h limit s.cursor.rest.length 1 _ le_rfl le_rfl s s ⟨rfl, trivial, Nat.lt_succ_self _⟩
    rfl).eq

/-- **The equation of the grammar.** One call more than enough is enough. -/
theorem full_next : full.next = full := by
  have htype : full.type = full.next.type := funext fun b =>
    each_eq (fun m => (enough m).type b) rfl
      fun limit m => (agree_enough_next limit m).type b
  have hcomparable : full.comparable = full.next.comparable :=
    each_eq (fun m => (enough m).comparable) rfl
      fun limit m => (agree_enough_next limit m).comparable
  have hvalue : full.value = full.next.value :=
    each_eq (fun m => (enough m).value) rfl
      fun limit m => (agree_enough_next limit m).value
  have hblock : full.block = full.next.block :=
    each_eq (fun m => (enough m).block) rfl
      fun limit m => (agree_enough_next limit m).block
  have htree : full.pairTree = full.next.pairTree :=
    each_eq (fun m => (enough m).pairTree) rfl
      fun limit m _ k _ hk => (agree_enough_next limit m).pairTree k hk
  calc full.next
      = ⟨full.next.type, full.next.comparable, full.next.value, full.next.block,
          full.next.pairTree⟩ := rfl
    _ = ⟨full.type, full.comparable, full.value, full.block, full.pairTree⟩ := by
        rw [← htype, ← hcomparable, ← hvalue, ← hblock, ← htree]
    _ = full := rfl

end Knot

/-- A whole text is read behind the layout in front of it. -/
theorem whole_of_layout {α : Type} (r : Rule α) {limit : Option Nat} {s t : State}
    (h : layout limit s = ⟨.ok (), t⟩) :
    whole r limit s = (do
      let a ← r
      endOfInput
      pure a) limit t :=
  bind_ok h

/-- **Reading by the full grammar.** The calls that a text is given are enough. -/
theorem run_eq_full {α : Type} {rule : Knot → Rule α} (hr : Respected rule) (limit : Option Nat)
    (text : List Char) : run rule limit text = whole (rule Knot.full) limit (State.initial text) := by
  have T := SameText.agreeing (Looser.refl limit)
  have hagree := Knot.agree_tied_full limit (n := text.length + 1) (a := callsFor text) le_rfl
  have hs : SameText.Within (text.length + 1) (Cursor.ofText text) (Cursor.ofText text) :=
    ⟨rfl, trivial, Nat.lt_succ_self _⟩
  exact (T.whole (hr T.congruence hagree) (State.initial text) (State.initial text) hs rfl).eq

theorem typeRule_full (withField : Bool) :
    typeRule Knot.full withField = Knot.full.type withField :=
  congrFun (congrArg Knot.type Knot.full_next) withField

theorem comparableRule_full : comparableRule Knot.full = Knot.full.comparable :=
  congrArg Knot.comparable Knot.full_next

theorem valueRule_full : valueRule Knot.full = Knot.full.value :=
  congrArg Knot.value Knot.full_next

theorem blockRule_full : blockRule Knot.full = Knot.full.block :=
  congrArg Knot.block Knot.full_next

theorem pairTreeRule_full : pairTreeRule Knot.full = Knot.full.pairTree :=
  congrArg Knot.pairTree Knot.full_next

/-- The full grammar is related to itself in all degrees if it is in the least one. -/
theorem related_full {F P : Nat → RuleRelation}
    {Q : Nat → Rule PairTree → Rule PairTree → Prop} (C : Congruence F P Q)
    (hzero : Knot.Related F Q 0 Knot.full Knot.full) (n : Nat) :
    Knot.Related F Q n Knot.full Knot.full := by
  induction n with
  | zero => exact hzero
  | succ n ih =>
    have hblock := C.blockRule (n := n + 1) ih
    rw [blockRule_full] at hblock
    have hnext := C.next (n := n + 1) ih hblock
    rwa [Knot.full_next] at hnext

/-- What a rule of the full grammar reads under a limit it reads without one. -/
theorem rule_ok_of_limit {α : Type} {rule : Knot → Rule α} (hr : Respected rule)
    {limit : Option Nat} {s t : State} {a : α} (h : rule Knot.full limit s = ⟨.ok a, t⟩) :
    rule Knot.full none s = ⟨.ok a, t⟩ := by
  have T := SameText.agreeing (looser_none limit)
  have hrun := hr T.congruence (related_full T.congruence (T.related_zero _ _) _) 1
    (s.cursor.rest.length + 1) le_rfl le_rfl s s ⟨rfl, trivial, Nat.lt_succ_self _⟩ rfl
  rcases hrun.eq_or with heq | ⟨-, p, l, -, hdepth⟩
  · exact heq.symm.trans h
  · rw [show rule Knot.full (Setting.agreeing limit none).limit s = _ from h] at hdepth
    cases hdepth

/-- A looser limit makes no difference to a run that the stricter one does not stop. -/
theorem whole_of_looser {α : Type} {rule : Knot → Rule α} (hr : Respected rule)
    {limit limit' : Option Nat} (hl : Looser limit limit') (s : State) :
    whole (rule Knot.full) limit s = whole (rule Knot.full) limit' s ∨
      ∃ p l, limit = some l ∧
        (whole (rule Knot.full) limit s).verdict = .halt (.error (.depth p l)) := by
  have T := SameText.agreeing hl
  have hrun := T.whole (hr T.congruence (related_full T.congruence (T.related_zero _ _) _)) s s
    ⟨rfl, trivial, Nat.lt_succ_self _⟩ rfl
  exact hrun.eq_or.imp_right And.right

end Grammar

end Michelson
