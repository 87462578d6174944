import Michelson.Proofs.Fitting.Grammar
import Michelson.Proofs.Limits
import Michelson.Proofs.RoundTrip

/-!
# The lowest limit for a contract

A text without parentheses is read under all limits that leave the contract its levels, and
under no others. The levels are the nesting of the contract, with one exception: the name
of a projection is tried as the name of a pair tree first, which takes a level before it
looks at the letters. So a projection nests like an instruction with one part, and a
contract that is deepest at a projection is refused under the limit that it nests to.

* `Contract.threshold_of_areBare` is the statement about texts.
* `Contract.parseWithin_source_iff` is the one about source text.
-/

namespace Michelson

open Rule Grammar

/-! ## Levels and nesting

A level more for the names of projections is a level more, at most, for what they stand in:
the levels of a name stand beside those of the parts, and not on top of them.
-/

section Levels

variable (path : Nat)

mutual

/-- One level more for a path is one level more for the value at most. -/
theorem Data.levels_succ (d : Data) :
    d.levels path ≤ d.levels (path + 1) ∧ d.levels (path + 1) ≤ d.levels path + 1 := by
  -- a level is one more than the largest of some numbers, each of which grows by one at most
  cases d with
  | int | string | bytes | constant => exact ⟨le_rfl, Nat.le_succ _⟩
  | wrapped w d =>
    have hd := d.levels_succ
    simp only [Data.levels]
    omega
  | pair l r =>
    have hl := l.levels_succ
    have hr := r.levels_succ
    simp only [Data.levels]
    omega
  | seq ds =>
    have hds := itemLevels_succ ds
    simp only [Data.levels]
    omega
  | map es =>
    have hes := entryLevels_succ es
    simp only [Data.levels]
    omega
  | code b =>
    have hb := stepLevels_succ b
    simp only [Data.levels]
    omega

theorem itemLevels_succ (ds : List Data) :
    itemLevels path ds ≤ itemLevels (path + 1) ds ∧
      itemLevels (path + 1) ds ≤ itemLevels path ds + 1 := by
  cases ds with
  | nil => exact ⟨le_rfl, Nat.le_succ _⟩
  | cons d ds =>
    have hd := d.levels_succ
    have hds := itemLevels_succ ds
    simp only [itemLevels]
    omega

theorem Entry.levels_succ (e : Entry) :
    e.levels path ≤ e.levels (path + 1) ∧ e.levels (path + 1) ≤ e.levels path + 1 := by
  cases e with
  | mk k v =>
    have hk := k.levels_succ
    have hv := v.levels_succ
    simp only [Entry.levels]
    omega

theorem entryLevels_succ (es : List Entry) :
    entryLevels path es ≤ entryLevels (path + 1) es ∧
      entryLevels (path + 1) es ≤ entryLevels path es + 1 := by
  cases es with
  | nil => exact ⟨le_rfl, Nat.le_succ _⟩
  | cons e es =>
    have he := e.levels_succ
    have hes := entryLevels_succ es
    simp only [entryLevels]
    omega

theorem Op.levels_succ (o : Op) :
    o.levels path ≤ o.levels (path + 1) ∧ o.levels (path + 1) ≤ o.levels path + 1 := by
  cases o with
  | prim i =>
    have hi := i.levels_succ
    simp only [Op.levels]
    omega
  | mac m =>
    have hm := m.levels_succ
    simp only [Op.levels]
    omega
  | seq b =>
    have hb := stepLevels_succ b
    simp only [Op.levels]
    omega

theorem stepLevels_succ (os : List Op) :
    stepLevels path os ≤ stepLevels (path + 1) os ∧
      stepLevels (path + 1) os ≤ stepLevels path os + 1 := by
  cases os with
  | nil => exact ⟨le_rfl, Nat.le_succ _⟩
  | cons o os =>
    have ho := o.levels_succ
    have hos := stepLevels_succ os
    simp only [stepLevels]
    omega

theorem Instr.levels_succ (i : Instr) :
    i.levels path ≤ i.levels (path + 1) ∧ i.levels (path + 1) ≤ i.levels path + 1 := by
  cases i with
  | branch name yes no =>
    have hyes := stepLevels_succ yes
    have hno := stepLevels_succ no
    simp only [Instr.levels]
    omega
  | enclosing name body | traversal name v body | lambda v d c body =>
    have hbody := stepLevels_succ body
    simp only [Instr.levels]
    omega
  | push v t d =>
    have hd := d.levels_succ
    simp only [Instr.levels]
    omega
  | originate v w parameter storage code =>
    have hcode := stepLevels_succ code
    simp only [Instr.levels]
    omega
  | _ => exact ⟨le_rfl, Nat.le_succ _⟩

theorem Macro.levels_succ (m : Macro) :
    m.levels path ≤ m.levels (path + 1) ∧ m.levels (path + 1) ≤ m.levels path + 1 := by
  cases m with
  | ifCompared c yes no | ifCompare c v yes no | ifSome yes no =>
    have hyes := stepLevels_succ yes
    have hno := stepLevels_succ no
    simp only [Macro.levels]
    omega
  | dipDeep depth body | mapPath path v f body =>
    have hbody := stepLevels_succ body
    simp only [Macro.levels]
    omega
  | getPath path v f | setPath path v f => exact ⟨Nat.le_succ _, le_rfl⟩
  | _ => exact ⟨le_rfl, Nat.le_succ _⟩

end

end Levels

/-- A level for the names of projections is at most one level more for the contract. -/
theorem Contract.levels_one (c : Contract) :
    c.nesting ≤ c.levels 1 ∧ c.levels 1 ≤ c.nesting + 1 := by
  have := stepLevels_succ 0 c.code
  simp only [Contract.nesting, Contract.levels, Block.levels, Nat.zero_add] at *
  omega

/-! ## Source text without parentheses -/

/-- No parenthesis opens among the tokens. -/
def Token.AreBare (ts : List Token) : Prop := .mark '(' ∉ ts

namespace Token

@[simp]
theorem areBare_nil : AreBare [] := List.not_mem_nil

@[simp]
theorem areBare_append {ts us : List Token} : AreBare (ts ++ us) ↔ AreBare ts ∧ AreBare us := by
  simp [AreBare]

/-- Words open no parentheses. -/
@[simp]
theorem areBare_word {w : List Char} {ts : List Token} : AreBare (.word w :: ts) ↔ AreBare ts := by
  simp [AreBare]

@[simp]
theorem areBare_ofWord {w : String} {ts : List Token} : AreBare (.ofWord w :: ts) ↔ AreBare ts :=
  areBare_word

@[simp]
theorem areBare_mark {c : Char} (hc : c ≠ '(') {ts : List Token} :
    AreBare (.mark c :: ts) ↔ AreBare ts := by
  simp [AreBare, hc.symm]

/-- Tokens in parts are bare if all parts are. -/
@[simp]
theorem areBare_flatMap {α : Type} {f : α → List Token} {as : List α} :
    AreBare (as.flatMap f) ↔ ∀ a ∈ as, AreBare (f a) := by
  simp [AreBare]

/-- Notes open no parentheses. -/
@[simp]
theorem areBare_noteTokens {σ : Sigil} (n : Note σ) : AreBare n.tokens := by
  rw [Note.tokens]
  split <;> simp [AreBare]

/-- The separators are semicolons. -/
theorem areBare_separated {items : List (List Token)} (h : ∀ ts ∈ items, AreBare ts) :
    AreBare (Style.plain.separated items) := by
  induction items with
  | nil => exact areBare_nil
  | cons ts items ih =>
    obtain ⟨hts, hitems⟩ := List.forall_mem_cons.mp h
    cases items with
    | nil => simpa [Style.separated, Style.plain] using hts
    | cons us items => simpa [Style.separated, hts] using ih hitems

/-- Braces are no parentheses. -/
@[simp]
theorem areBare_braced {items : List (List Token)} (h : ∀ ts ∈ items, AreBare ts) :
    AreBare (Style.plain.braced items) := by
  simp [Style.braced, areBare_separated h]

end Token

open Token

/-- A plain type has its parts behind its word, and no parentheses around them. -/
@[simp]
theorem Ty.areBare_tokensWith (t : Ty) (field : Note .field) :
    AreBare (t.tokensWith .plain field) := by
  induction t generalizing field with
  | _ => simp_all [tokensWith, Comparable.tokens]

@[simp]
theorem Ty.areBare_tokens (t : Ty) : AreBare (t.tokens .plain) := t.areBare_tokensWith _

@[simp]
theorem Comparable.areBare_tokens (c : Comparable) : AreBare (c.tokens .plain) := by
  simp [tokens]

/-- The sections are as bare as the code. -/
theorem Contract.areBare_sectionTokens (parameter storage : Ty) {code : List Token}
    (h : AreBare code) : AreBare (sectionTokens .plain parameter storage code) := by
  simp [sectionTokens, h]

mutual

/-- A plain value is written without parentheses. -/
theorem Data.areBare_tokens (d : Data) : AreBare (d.tokens .plain) := by
  cases d with
  | int | string | bytes | constant =>
    simp [Data.tokens, AreBare, ofInt, ofText, ofBytes, ofWord]
  | wrapped w d => simp [Data.tokens, d.areBare_tokens]
  | pair l r => simp [Data.tokens, l.areBare_tokens, r.areBare_tokens]
  | seq ds => simp [Data.tokens, areBare_braced (areBare_itemTokens ds)]
  | map es => simp [Data.tokens, areBare_braced (areBare_entryTokens es)]
  | code b => simp [Data.tokens, areBare_braced (areBare_stepTokens b)]

theorem areBare_itemTokens (ds : List Data) : ∀ ts ∈ itemTokens .plain ds, AreBare ts := by
  cases ds with
  | nil => simp [itemTokens]
  | cons d ds => simpa [itemTokens, d.areBare_tokens] using areBare_itemTokens ds

theorem Entry.areBare_tokens (e : Entry) : AreBare (e.tokens .plain) := by
  cases e with
  | mk k v => simp [Entry.tokens, k.areBare_tokens, v.areBare_tokens]

theorem areBare_entryTokens (es : List Entry) : ∀ ts ∈ entryTokens .plain es, AreBare ts := by
  cases es with
  | nil => simp [entryTokens]
  | cons e es => simpa [entryTokens, e.areBare_tokens] using areBare_entryTokens es

theorem Op.areBare_tokens (o : Op) : AreBare (o.tokens .plain) := by
  cases o with
  | prim i => exact i.areBare_tokens
  | mac m => exact m.areBare_tokens
  | seq b => exact areBare_braced (areBare_stepTokens b)

theorem areBare_stepTokens (os : List Op) : ∀ ts ∈ stepTokens .plain os, AreBare ts := by
  cases os with
  | nil => simp [stepTokens]
  | cons o os => simpa [stepTokens, o.areBare_tokens] using areBare_stepTokens os

theorem Instr.areBare_tokens (i : Instr) : AreBare (i.tokens .plain) := by
  cases i with
  | branch name yes no =>
    simp [Instr.tokens, areBare_braced (areBare_stepTokens yes),
      areBare_braced (areBare_stepTokens no)]
  | enclosing name body | traversal name v body | lambda v d c body =>
    simp [Instr.tokens, areBare_braced (areBare_stepTokens body)]
  | push v t d => simp [Instr.tokens, d.areBare_tokens]
  | originate v w parameter storage code =>
    simp [Instr.tokens, Contract.areBare_sectionTokens, areBare_braced (areBare_stepTokens code)]
  | _ => simp [Instr.tokens]

theorem Macro.areBare_tokens (m : Macro) : AreBare (m.tokens .plain) := by
  cases m with
  | ifCompared c yes no | ifCompare c v yes no | ifSome yes no =>
    simp [Macro.tokens, areBare_braced (areBare_stepTokens yes),
      areBare_braced (areBare_stepTokens no)]
  | dipDeep depth body | mapPath path v f body =>
    simp [Macro.tokens, areBare_braced (areBare_stepTokens body)]
  | _ => simp [Macro.tokens]

end

/-- Source text opens no parentheses. -/
theorem Contract.areBare_tokens (c : Contract) : AreBare (c.tokens .plain) :=
  areBare_sectionTokens _ _ (areBare_braced (areBare_stepTokens c.code))

/-! ## Texts -/

namespace Grammar

variable {α : Type} {rule : Knot → Rule α} {T : Track} {front : List Char}

/-- What is read from a text is read from each track that it lays out. -/
theorem exists_yields_of_run (hr : Respected rule) (hfront : Layout.Fills front T.text)
    (horigin : T.origin = Position.start.after front) {a : α}
    (h : (run rule none (front ++ T.text)).result = .ok a) :
    ∃ j, T.Yields (rule Knot.full) 0 a j := by
  obtain ⟨s, t, u, hlayout, hrule, -⟩ := parts_of_run hr h
  obtain ⟨-, rfl⟩ := Reply.mk.inj (hlayout.symm.trans (Track.layout_initial hfront horigin none))
  obtain ⟨j, hj, -⟩ := (Track.kept_of_respected hr).yields (Nat.zero_le _) rfl hrule
  exact ⟨j, hj⟩

/-- A limit that leaves a track the levels that it needs makes no difference to the text. -/
theorem run_eq_of_fits (hr : Respected rule) (hfront : Layout.Fills front T.text)
    (horigin : T.origin = Position.start.after front) {n l : Nat}
    (h : T.Fits (rule Knot.full) 0 n) (hn : n ≤ l) :
    run rule (some l) (front ++ T.text) = run rule none (front ++ T.text) := by
  have H := handedFlat_flat
  rw [run_eq_full hr, run_eq_full hr, whole_of_layout _ (Track.layout_initial hfront horigin _),
    whole_of_layout _ (Track.layout_initial hfront horigin _)]
  have hwhole := h.then_flat fun a => H.next H.endOfInput fun _ => H.pure a
  have hroom : 0 + n ≤ l := (Nat.zero_add n).le.trans hn
  exact (hwhole { State.initial (front ++ T.text) with cursor := T.place 0 } rfl).same l hroom

end Grammar

namespace Contract

/-- **The lowest limit.** Where no parenthesis opens, a contract is read under the limits
that leave it its levels, and the limits below stop the reading. -/
theorem threshold_of_areBare {ts : List Token} (hvalid : ∀ t ∈ ts, t.isValid = true)
    (hbare : AreBare ts) {text : String} (htext : LaysOut ts text.toList) {c : Contract}
    (hc : Contract.parse text = .ok c) : Threshold text (c.levels 1) := by
  obtain ⟨front, T, heq, hfront, horigin, rfl⟩ := htext.exists_track hvalid
  have hT : T.Bare := fun k hk => hbare (List.mem_of_getElem? hk)
  have hread : Contract.parseWithin (some (c.levels 1)) text = .ok c := by
    rw [← hc, Contract.parse, parseWithin, parseWithin, read, read]
    rw [Contract.parse, parseWithin, read] at hc
    rw [heq] at hc ⊢
    obtain ⟨j, hj⟩ := exists_yields_of_run respected_contractRule hfront horigin hc
    have hfits := hj.of_gives (Track.sized_contractRule hT hT.sizedFrom (Nat.zero_le _))
    rw [run_eq_of_fits respected_contractRule hfront horigin hfits le_rfl]
  obtain ⟨n, hn⟩ := exists_threshold text
  have hle : n ≤ c.levels 1 := by
    by_contra hlt
    obtain ⟨p, hp⟩ := (hn (c.levels 1)).1 (Nat.lt_of_not_le hlt)
    cases hread.symm.trans hp
  have hge : c.levels 1 ≤ n := parseWithin_bounded le_rfl (((hn n).2 le_rfl).trans hc)
  exact le_antisymm hge hle ▸ hn

/-- Source text opens no parenthesis. -/
theorem threshold_source {c : Contract} (h : c.isWellFormed = true) :
    Threshold c.source (c.levels 1) := by
  have hlaid : LaysOut (c.tokens .plain) c.source.toList := by
    rw [source, sourceIn, String.toList_ofList]
    exact Token.laysOut_spaced _
  exact threshold_of_areBare (written_contract h .plain).valid c.areBare_tokens hlaid
    ((c.parse_sourceIn_iff .plain).mpr h)

/-- **A limit refuses what nests too deep, and the projections at the limit.** The source
text of a contract is read as the contract under a limit if and only if the contract is
well formed and the limit leaves it its levels. These are as many as it nests, or one more
where a name of a projection is as deep as anything else. -/
theorem parseWithin_source_iff (c : Contract) :
    (∀ l, Contract.parseWithin (some l) c.source = .ok c ↔
        c.isWellFormed = true ∧ c.levels 1 ≤ l) ∧
      c.nesting ≤ c.levels 1 ∧ c.levels 1 ≤ c.nesting + 1 := by
  refine ⟨fun l => ⟨fun h => ⟨?_, parseWithin_bounded le_rfl h⟩, fun ⟨hwf, hl⟩ => ?_⟩, c.levels_one⟩
  · exact (c.parse_sourceIn_iff .plain).mp (run_ok_of_limit respected_contractRule h)
  · exact ((threshold_source hwf l).2 hl).trans ((c.parse_sourceIn_iff .plain).mpr hwf)

/-- The code does nothing but to take the left and then the right part of what it is given. -/
def projecting : Contract :=
  ⟨.atom .absent .unit, .atom .absent .unit, [.mac (.getPath [.left, .right] .absent .absent)]⟩

/-- The contract nests twice, and yet the limit two refuses its source text for its depth. -/
theorem parseWithin_projecting :
    projecting.source = "parameter unit ; storage unit ; code \x7b CADR \x7d ;" ∧
      Contract.parse projecting.source = .ok projecting ∧ projecting.nesting = 2 ∧
      ∃ p, Contract.parseWithin (some 2) projecting.source = .error (.depth p 2) := by
  have hwf : projecting.isWellFormed = true := by decide
  have hlevels : projecting.levels 1 = 3 := by decide
  refine ⟨by decide +kernel, (parse_sourceIn_iff _ .plain).mpr hwf, by decide, ?_⟩
  exact (threshold_source hwf 2).1 (hlevels ▸ Nat.lt_succ_self 2)

end Contract

end Michelson
