import Michelson.Command.Run
import Michelson.Proofs.Answers

/-!
# The verdict of the front ends

A contract can be judged by three tasks of the command line and by three calls. The tasks
find their text and their limit in the same way, so their statuses agree. The calls have
no limit; where a task has none either, it says what the corresponding call says.

* `Command.verdict` is the status that a file deserves. `Command.status_runOnFile` says that
  a task ends with it.
* `Command.Agrees` tells what a task and the calls have in common.
  `Command.agrees_of_found` says that they do have it in common.
* `Command.front_ends_agree` is the statement about tasks and calls.
-/

namespace Michelson.Command

/-! ## What a file deserves -/

/-- The text of a file, if it can be read and is UTF-8. -/
def Files.text? (files : Files) (path : String) : Option String := do
  let bytes ← (files path).toOption
  String.fromUTF8? bytes.toByteArray

/-- The options in a file, if there are some in it. Without a file no option is set. -/
def Files.options? (files : Files) : Option String → Option Options
  | none => some {}
  | some path => do
    let text ← files.text? path
    (Options.parse text).toOption

/-- The status that a file deserves, given the file of options and the limit of the command
line: two if one of the files is of no use, and else zero for a valid contract and one for
any other text. -/
def verdict (files : Files) (config : Option String) (limit : Option Nat) (file : String) : Nat :=
  match files.options? config, files.text? file with
  | some options, some text =>
    match Contract.parseWithin (limit.or options.maxDepth) text with
    | .ok _ => 0
    | .error _ => 1
  | _, _ => 2

/-- The file that a task is about. -/
def Task.file? : Task → Option String
  | .parse file _ => some file
  | .check file _ => some file
  | .hash file => some file
  | .version => none

/-- The call whose result a task writes. -/
def Task.service? : Task → Option (Option (List UInt8) → CallInterface.Answer)
  | .parse _ true => some CallInterface.parseContract
  | .check _ true => some CallInterface.check
  | .hash _ => some CallInterface.fingerprint
  | _ => none

/-! ## Reading the files -/

/-- What reading amounts to: a value, or a failure that has nothing to do with contracts. -/
def Finds {α : Type} (r : Except Failure α) : Option α → Prop
  | some a => r = .ok a
  | none => ∃ f, r = .error f ∧ f.status = 2

theorem Finds.bind {α β : Type} {r : Except Failure α} {a? : Option α} {q : α → Except Failure β}
    {b? : α → Option β} (h : Finds r a?) (hq : ∀ a, Finds (q a) (b? a)) :
    Finds (r >>= q) (a?.bind b?) := by
  cases a? with
  | none =>
    obtain ⟨f, rfl, hstatus⟩ := h
    exact ⟨f, rfl, hstatus⟩
  | some a =>
    obtain rfl : r = .ok a := h
    exact hq a

theorem finds_readText (files : Files) (path : String) :
    Finds (readText files path) (files.text? path) := by
  rw [readText, Files.text?]
  cases files path with
  | error fault => exact ⟨_, rfl, rfl⟩
  | ok bytes =>
    change Finds _ (String.fromUTF8? bytes.toByteArray)
    dsimp only
    cases String.fromUTF8? bytes.toByteArray with
    | none => exact ⟨_, rfl, rfl⟩
    | some text => rfl

/-- The options in force: the limit of the command line goes before that of the options. -/
def inForce (i : Invocation) (options : Options) : Options := ⟨i.maxDepth.or options.maxDepth⟩

/-- What is said about options that are refused does not tell which ones are. -/
theorem toOption_parse (text : String) (detail : String → String) :
    (Options.parse text detail).toOption = (Options.parse text).toOption := by
  rw [Options.parse, Options.parse]
  cases Options.decoder.parse text <;> rfl

theorem finds_loadOptions (files : Files) (detail : String → String) (i : Invocation) :
    Finds (loadOptions files detail i) ((files.options? i.config).map (inForce i)) := by
  rw [loadOptions]
  cases i.config with
  | none => cases hlimit : i.maxDepth <;> simp [Finds, Files.options?, inForce, hlimit] <;> rfl
  | some path =>
    change Finds _ (((files.text? path).bind fun text => (Options.parse text).toOption).map _)
    rw [Option.map_bind]
    refine (finds_readText files path).bind fun text => ?_
    rw [Function.comp_apply, ← toOption_parse text detail]
    cases Options.parse text detail with
    | error e => exact ⟨.badOptions e, rfl, rfl⟩
    | ok options =>
      change _ = Except.ok (inForce i options)
      rw [inForce]
      cases i.maxDepth <;> rfl

section Runs

variable {files : Files} {detail : String → String} {i : Invocation} {file text : String}
  {options : Options}

/-- A run on a file that is found comes down to reading a contract. -/
theorem runOnFile_of_found (hoptions : files.options? i.config = some options)
    (htext : files.text? file = some text) :
    runOnFile files detail i file =
      ⟨Log.ofOptions (inForce i options) ::
          Log.ofReply (Contract.read (i.maxDepth.or options.maxDepth) text),
        output i (Contract.parseWithin (i.maxDepth.or options.maxDepth) text),
        match Contract.parseWithin (i.maxDepth.or options.maxDepth) text with
        | .ok _ => none
        | .error e => some (.invalid file e)⟩ := by
  have hload := finds_loadOptions files detail i
  have hread := finds_readText files file
  rw [hoptions] at hload
  rw [htext] at hread
  rw [runOnFile, show loadOptions files detail i = .ok (inForce i options) from hload,
    show readText files file = .ok text from hread]
  rfl

theorem runTask_eq (files : Files) (detail : String → String)
    (hfile : i.task.file? = some file) :
    runTask files detail i = runOnFile files detail i file := by
  obtain ⟨quiet, verbose, limit, config, task⟩ := i
  cases task with
  | parse | check | hash =>
    obtain rfl := Option.some.inj hfile
    rfl
  | version => cases hfile

/-! ## The status of a run -/

/-- The status of a result. -/
def TaskResult.status (r : TaskResult) : Nat := (r.failure.map Failure.status).getD 0

theorem status_outcome (filter : Log.Filter) (warnings : List String) (i : Invocation)
    (r : TaskResult) : (outcome filter warnings i r).status = r.status := by
  rw [outcome, TaskResult.status]
  cases r.failure <;> rfl

theorem status_runOnFile (files : Files) (detail : String → String) (i : Invocation)
    (file : String) :
    (runOnFile files detail i file).status = verdict files i.config i.maxDepth file := by
  rw [verdict]
  cases hoptions : files.options? i.config with
  | none =>
    obtain ⟨f, hf, hstatus⟩ : Finds (loadOptions files detail i) none := by
      simpa [hoptions] using finds_loadOptions files detail i
    rw [runOnFile, hf]
    exact hstatus
  | some options =>
    cases htext : files.text? file with
    | none =>
      have hload : Finds (loadOptions files detail i) (some (inForce i options)) := by
        simpa [hoptions] using finds_loadOptions files detail i
      obtain ⟨f, hf, hstatus⟩ : Finds (readText files file) none :=
        htext ▸ finds_readText files file
      rw [runOnFile, show loadOptions files detail i = .ok (inForce i options) from hload, hf]
      exact hstatus
    | some text =>
      rw [runOnFile_of_found hoptions htext]
      dsimp only
      cases Contract.parseWithin (i.maxDepth.or options.maxDepth) text <;> rfl

end Runs

/-! ## What is logged -/

/-- Everything that is told about reading a contract matters less than a warning. -/
theorem rank_of_mem_ofReply {r : Reply Contract} :
    ∀ record ∈ Log.ofReply r, Log.Level.warn.rank < record.level.rank := by
  intro record hrecord
  rw [Log.ofReply, List.mem_append, List.mem_singleton] at hrecord
  rcases hrecord with hevent | rfl
  · obtain ⟨event, -, hevent⟩ := List.mem_filterMap.mp hevent
    cases event with
    | missed | raised => cases hevent
    | part | block | macroRead =>
      obtain rfl := Option.some.inj hevent
      exact (by decide : Log.Level.warn.rank < Log.Level.trace.rank)
  · cases r.result with
    | ok | error => exact (by decide : Log.Level.warn.rank < Log.Level.debug.rank)

/-- The filter that is used unless one is asked for. -/
theorem read_warn : Log.Filter.read "warn".toList = (⟨[⟨none, .warn⟩], none⟩, []) := by
  decide

/-- A filter for all targets shows the levels up to its own. -/
theorem rank_le_of_shows {level : Log.Level} {record : Log.Record}
    (h : Log.Filter.shows ⟨[⟨none, level⟩], none⟩ record = true) :
    record.level.rank ≤ level.rank := by
  have hle : (decide (record.level.rank ≤ level.rank) && true) = true := h
  rwa [Bool.and_true, decide_eq_true_eq] at hle

/-- The filter for warnings shows no records that matter less. -/
theorem filter_warn_eq_nil {records : List Log.Record}
    (h : ∀ record ∈ records, Log.Level.warn.rank < record.level.rank) :
    records.filter (Log.Filter.shows ⟨[⟨none, .warn⟩], none⟩) = [] :=
  List.filter_eq_nil_iff.mpr fun record hrecord hshows =>
    absurd (h record hrecord) (Nat.not_lt.mpr (rank_le_of_shows hshows))

/-! ## Tasks and calls -/

section Agreement

variable {files : Files} {detail : String → String} {i : Invocation} {file text : String}
  {options : Options}

/-- A run of a task on a file says what the calls say about an argument. `r` is what reading
the contract leads to. -/
structure Agrees (filter : Option String) (i : Invocation) (file : String) (o : Outcome)
    (argument : Option (List UInt8)) (r : Except Error Contract) : Prop where
  /-- About a valid contract a task that is not quiet writes the result of its call. -/
  accepted (c : Contract) : r = .ok c → i.quiet = false →
    ∀ service, i.task.service? = some service → ∃ result, service argument = .ok result ∧ o.out = result ++ "\n"
  /-- A check with a document for its output writes the result of its call about other
  texts as well. -/
  reported (e : Error) : r = .error e → i.task = .check file true →
    ∃ result, CallInterface.check argument = .ok result ∧ o.out = result ++ "\n"
  /-- Any other task writes the failure of the call behind the file, and nothing else. -/
  refused (e : Error) : r = .error e → i.task ≠ .check file true → filter = none →
    i.verbose = false → ∃ failure, CallInterface.parseContract argument = .error failure ∧
      o.err = "error: " ++ file ++ ": " ++ failure ++ "\n"

variable {argument : Option (List UInt8)}

theorem out_outcome (f : Log.Filter) (warnings : List String) (i : Invocation) (r : TaskResult) :
    (outcome f warnings i r).out = r.out := by
  rw [outcome]
  cases r.failure <;> rfl

theorem output_accepted {c : Contract} (hserved : CallInterface.Served argument (.ok c))
    (hquiet : i.quiet = false) {service : Option (List UInt8) → CallInterface.Answer}
    (hservice : i.task.service? = some service) :
    ∃ result, service argument = .ok result ∧ output i (.ok c) = result ++ "\n" := by
  obtain ⟨quiet, verbose, limit, config, task⟩ := i
  obtain rfl : quiet = false := hquiet
  obtain ⟨hparse, hhash⟩ := hserved.read c rfl
  cases task with
  | parse f json =>
    cases json with
    | true =>
      obtain rfl := Option.some.inj hservice
      exact ⟨_, hparse, rfl⟩
    | false => cases hservice
  | check f json =>
    cases json with
    | true =>
      obtain rfl := Option.some.inj hservice
      exact ⟨_, hserved.check, rfl⟩
    | false => cases hservice
  | hash f =>
    obtain rfl := Option.some.inj hservice
    exact ⟨_, hhash, rfl⟩
  | version => cases hservice

theorem output_reported {e : Error} (hserved : CallInterface.Served argument (.error e))
    (htask : i.task = .check file true) :
    ∃ result, CallInterface.check argument = .ok result ∧ output i (.error e) = result ++ "\n" := by
  obtain ⟨quiet, verbose, limit, config, task⟩ := i
  obtain rfl : task = .check file true := htask
  exact ⟨_, hserved.check, by cases quiet <;> rfl⟩

/-- Nothing is logged unless it is asked for, so the failure is all there is. -/
theorem err_refused {e : Error} (hfile : i.task.file? = some file)
    (htask : i.task ≠ .check file true) {r : TaskResult} (hr : r.failure = some (.invalid file e))
    (hrank : ∀ record ∈ r.records, Log.Level.warn.rank < record.level.rank) :
    (outcome ⟨[⟨none, .warn⟩], none⟩ [] i r).err =
      "error: " ++ file ++ ": " ++ e.message ++ "\n" := by
  have hreported : isReported i (.invalid file e) = false := by
    obtain ⟨quiet, verbose, limit, config, task⟩ := i
    cases task with
    | check f json =>
      cases json with
      | true =>
        obtain rfl := Option.some.inj hfile
        exact absurd rfl htask
      | false => rfl
    | parse | hash | version => rfl
  rw [outcome, hr, filter_warn_eq_nil hrank]
  dsimp only
  rw [hreported]
  simp [Failure.line, Failure.message, String.join, String.append_assoc]

theorem agrees_of_found {filter : Option String} (hfile : i.task.file? = some file)
    (hoptions : files.options? i.config = some options) (htext : files.text? file = some text)
    (hlimit : i.maxDepth.or options.maxDepth = none)
    (hserved : CallInterface.Served argument (Contract.parse text)) :
    Agrees filter i file
      (outcome (Log.Filter.read (filterText i filter).toList).1
        (Log.Filter.read (filterText i filter).toList).2 i (runOnFile files detail i file))
      argument (Contract.parse text) := by
  have hrun : runOnFile files detail i file = _ := runOnFile_of_found hoptions htext
  rw [hlimit] at hrun
  have hout : (runOnFile files detail i file).out = output i (Contract.parse text) := by
    rw [hrun]
    rfl
  refine ⟨fun c hc hquiet service hservice => ?_, fun e he htask => ?_,
    fun e he htask hfilter hverbose => ?_⟩
  · rw [out_outcome, hout, hc]
    exact output_accepted (hc ▸ hserved) hquiet hservice
  · rw [out_outcome, hout, he]
    exact output_reported (he ▸ hserved) htask
  · have hdefault : filterText i filter = "warn" := by simp [filterText, hfilter, hverbose]
    refine ⟨e.message, (hserved.refused e he).1, ?_⟩
    rw [hdefault, read_warn]
    refine err_refused hfile htask ?_ ?_
    · rw [hrun]
      change (match Contract.parse text with | .ok _ => none | .error e => _) = _
      rw [he]
    · rw [hrun]
      refine List.forall_mem_cons.mpr ⟨?_, rank_of_mem_ofReply⟩
      exact (by decide : Log.Level.warn.rank < Log.Level.debug.rank)

end Agreement

/-- An argument that ends at a zero byte holds what stands before the zero. -/
theorem argumentText?_of_zero {bytes : List UInt8} (hzero : 0 ∉ bytes) (more : List UInt8) :
    CallInterface.argumentText? (some (bytes ++ 0 :: more)) =
      String.fromUTF8? bytes.toByteArray := by
  have htake : (bytes ++ 0 :: more).takeWhile (· != 0) = bytes := by
    rw [List.takeWhile_append_of_pos fun b hb => by simpa using ne_of_mem_of_not_mem hb hzero]
    simp
  rw [CallInterface.argumentText?, Option.bind_eq_bind, Option.bind_some, htake]

/-- A run of a task on a file shows what the run on the file leads to. -/
theorem run_of_words {filter : Option String} {words : List String}
    (hwords : Request.ofWords words = .run i) (hfile : i.task.file? = some file) :
    run files filter words detail =
      outcome (Log.Filter.read (filterText i filter).toList).1
        (Log.Filter.read (filterText i filter).toList).2 i (runOnFile files detail i file) := by
  rw [run, hwords]
  dsimp only
  rw [runTask_eq files detail hfile]

/-- **The front ends agree.** A task on a file ends with the status that the file deserves,
whichever task it is and whatever is logged, written or said about options. And where no limit
is in force and the file is the text of an argument, the task agrees with the calls about that
argument. -/
theorem front_ends_agree (files : Files) (detail : String → String) (filter : Option String)
    {words : List String} {i : Invocation} {file : String}
    (hwords : Request.ofWords words = .run i) (hfile : i.task.file? = some file) :
    (run files filter words detail).status = verdict files i.config i.maxDepth file ∧
    ∀ (options : Options) (bytes more : List UInt8) (text : String),
      files.options? i.config = some options → i.maxDepth.or options.maxDepth = none →
      files file = .ok bytes → String.fromUTF8? bytes.toByteArray = some text → 0 ∉ bytes →
      Agrees filter i file (run files filter words detail) (some (bytes ++ 0 :: more))
        (Contract.parse text) := by
  rw [run_of_words hwords hfile]
  refine ⟨?_, fun options bytes more text hoptions hlimit hbytes hutf8 hzero => ?_⟩
  · rw [status_outcome, status_runOnFile]
  · have htext : files.text? file = some text := by
      rw [Files.text?, hbytes]
      exact hutf8
    have hargument := (argumentText?_of_zero hzero more).trans hutf8
    exact agrees_of_found hfile hoptions htext hlimit (CallInterface.served_of_text hargument)

/-- The hash of a contract, and what becomes of a file in which the code is missing. -/
theorem front_ends_agree_on_two_files :
    let valid := "parameter unit ; storage unit ; code { } ;"
    let invalid := "parameter unit ; storage unit ;"
    let bytes (text : String) : List UInt8 := text.toUTF8.data.toList
    let files : Files := fun path => .ok (bytes (if path = "valid.tz" then valid else invalid))
    let hashed := run files none ["hash", "valid.tz"]
    let parsed := run files none ["parse", "invalid.tz"]
    let checked := run files none ["--quiet", "check", "invalid.tz", "--json"]
    (hashed.status = 0 ∧ ∃ hash,
      CallInterface.fingerprint (some (bytes valid ++ [0])) = .ok hash ∧
        hashed.out = hash ++ "\n") ∧
    (parsed.status = 1 ∧ ∃ failure,
      CallInterface.parseContract (some (bytes invalid ++ [0])) = .error failure ∧
        parsed.err = "error: " ++ "invalid.tz" ++ ": " ++ failure ++ "\n") ∧
    checked.status = 1 ∧ ∃ report,
      CallInterface.check (some (bytes invalid ++ [0])) = .ok report ∧
        checked.out = report ++ "\n" := by
  intro valid invalid bytes files hashed parsed checked
  have hvalid : String.fromUTF8? (bytes valid).toByteArray = some valid := by decide +kernel
  have hinvalid : String.fromUTF8? (bytes invalid).toByteArray = some invalid := by decide +kernel
  obtain ⟨c, hc⟩ : ∃ c, Contract.parse valid = .ok c := by
    have hsome : (Contract.parse valid).toOption.isSome = true := by decide +kernel
    cases hread : Contract.parse valid with
    | ok c => exact ⟨c, rfl⟩
    | error e => rw [hread] at hsome; cases hsome
  obtain ⟨e, he⟩ : ∃ e, Contract.parse invalid = .error e := by
    have hnone : (Contract.parse invalid).toOption.isSome = false := by decide +kernel
    cases hread : Contract.parse invalid with
    | ok c => rw [hread] at hnone; cases hnone
    | error e => exact ⟨e, rfl⟩
  obtain ⟨hhashed, hhash⟩ := front_ends_agree files (fun _ => "") none
    (by decide : Request.ofWords ["hash", "valid.tz"] =
      .run ⟨false, false, none, none, .hash "valid.tz"⟩) rfl
  obtain ⟨hparsed, hparse⟩ := front_ends_agree files (fun _ => "") none
    (by decide : Request.ofWords ["parse", "invalid.tz"] =
      .run ⟨false, false, none, none, .parse "invalid.tz" false⟩) rfl
  obtain ⟨hchecked, hcheck⟩ := front_ends_agree files (fun _ => "") none
    (by decide : Request.ofWords ["--quiet", "check", "invalid.tz", "--json"] =
      .run ⟨true, false, none, none, .check "invalid.tz" true⟩) rfl
  refine ⟨⟨hhashed.trans ?_, ?_⟩, ⟨hparsed.trans ?_, ?_⟩, hchecked.trans ?_, ?_⟩
  · decide +kernel
  · exact (hhash {} _ [] valid rfl rfl rfl hvalid (by decide +kernel)).accepted c hc rfl _ rfl
  · decide +kernel
  · exact (hparse {} _ [] invalid rfl rfl rfl hinvalid (by decide +kernel)).refused e he
      (by decide) rfl rfl
  · decide +kernel
  · exact (hcheck {} _ [] invalid rfl rfl rfl hinvalid (by decide +kernel)).reported e he rfl

end Michelson.Command
