import Michelson.Proofs.ErrorLines
import Michelson.Proofs.FrontEnds

/-!
# What a run writes

A run on a file writes a result, and what it tells about itself: the records that are shown,
and then the line about its failure if it fails. A quiet run is to write no result when it
succeeds. The task that computes a hash does not ask whether the run is quiet.

* `Command.Course` is how a run on a file goes. `Command.course_runOnFile` says that every run
  goes in one of these ways.
* `Command.Disciplined` tells what is written at which status.
* `Command.errorLines_outcome` counts the lines about a failure.
* `Command.output_discipline` puts these together for command lines.
-/

namespace Michelson.Command

variable {files : Files} {detail : String → String} {i : Invocation} {file : String}

/-! ## The course of a run -/

/-- Reading the file under the options in force leads to `r`. -/
def Reads (files : Files) (detail : String → String) (i : Invocation) (file : String)
    (r : Except Error Contract) : Prop :=
  ∃ options text, loadOptions files detail i = .ok options ∧ readText files file = .ok text ∧
    Contract.parseWithin options.maxDepth text = r

/-- How a run on a file goes: what it logs, what it writes, and how it fails. -/
inductive Course (files : Files) (detail : String → String) (i : Invocation) (file : String) :
    TaskResult → Prop
  /-- There are no options to be found. -/
  | unconfigured {f : Failure} : loadOptions files detail i = .error f →
      Course files detail i file ⟨[], "", some f⟩
  /-- There is no text to be found. -/
  | unread {options : Options} {f : Failure} : readText files file = .error f →
      Course files detail i file ⟨[Log.ofOptions options], "", some f⟩
  | accepted {options : Options} {reply : Reply Contract} {c : Contract} :
      Reads files detail i file (.ok c) → reply.result = .ok c →
      Course files detail i file ⟨Log.ofOptions options :: Log.ofReply reply, output i (.ok c), none⟩
  | rejected {options : Options} {reply : Reply Contract} {e : Error} :
      Reads files detail i file (.error e) → reply.result = .error e →
      Course files detail i file
        ⟨Log.ofOptions options :: Log.ofReply reply, output i (.error e), some (.invalid file e)⟩

/-- A run on a file goes in one of the four ways. -/
theorem course_runOnFile (files : Files) (detail : String → String) (i : Invocation)
    (file : String) :
    Course files detail i file (runOnFile files detail i file) := by
  rw [runOnFile]
  cases hoptions : loadOptions files detail i with
  | error f => exact .unconfigured hoptions
  | ok options =>
    dsimp only
    cases htext : readText files file with
    | error f => exact .unread htext
    | ok text =>
      dsimp only
      cases hresult : (Contract.read options.maxDepth text).result with
      | ok c => exact .accepted ⟨options, text, hoptions, htext, hresult⟩ hresult
      | error e => exact .rejected ⟨options, text, hoptions, htext, hresult⟩ hresult

/-- What cannot be found is no fault of the contract, so the status is two. -/
theorem Finds.status_eq {α : Type} {r : Except Failure α} {a? : Option α} {f : Failure}
    (h : Finds r a?) (hf : r = .error f) : f.status = 2 := by
  cases a? with
  | some a => exact nomatch hf.symm.trans h
  | none =>
    obtain ⟨f', hf', hstatus⟩ := h
    obtain rfl := Except.error.inj (hf.symm.trans hf')
    exact hstatus

/-! ## What is written at which status -/

/-- What is written by a run on a file. `log` is what it shows of its records. -/
structure Disciplined (files : Files) (detail : String → String) (i : Invocation)
    (file log : String) (o : Outcome) : Prop where
  /-- A run that succeeds tells of no failure. -/
  succeeded : o.status = 0 → o.err = log
  /-- If it is quiet as well, it writes nothing, unless it is for a hash. -/
  quiet : o.status = 0 → i.quiet = true → i.task ≠ .hash file → o.out = ""
  /-- A hash is written whether or not the run is quiet. -/
  hash : o.status = 0 → i.task = .hash file →
    ∃ c, Reads files detail i file (.ok c) ∧ o.out = c.fingerprint ++ "\n"
  /-- The check of an invalid contract with a document for its output writes the report, and
  does not tell of the failure again. -/
  reported : o.status = 1 → i.task = .check file true →
    ∃ e, Reads files detail i file (.error e) ∧
      o.out = (Report.ofResult (.error e : Except Error Contract)).render ++ "\n" ∧ o.err = log
  /-- Any other run that fails writes nothing, and tells of its failure. -/
  failed : o.status ≠ 0 → ¬ (o.status = 1 ∧ i.task = .check file true) →
    o.out = "" ∧ ∃ f : Failure, f.status = o.status ∧ o.err = log ++ f.line

/-- What a filter shows of some records, behind the warnings about the filter. -/
def shown (filter : Log.Filter) (warnings : List String) (records : List Log.Record) : String :=
  String.join (warnings.map (· ++ "\n") ++ (records.filter filter.shows).map Log.Record.line)

/-- What a run tells behind its log. -/
def closing (i : Invocation) : Option Failure → String
  | none => ""
  | some f => if isReported i f then "" else f.line

/-- The log comes first, and the line about the failure behind it. -/
theorem outcome_eq (filter : Log.Filter) (warnings : List String) (i : Invocation)
    (r : TaskResult) :
    outcome filter warnings i r =
      ⟨r.status, r.out, shown filter warnings r.records ++ closing i r.failure⟩ := by
  rw [outcome, TaskResult.status]
  cases r.failure with
  | none => simp [closing, shown]
  | some f => rfl

/-- A report stands for the line about the failure, where there is a report. -/
theorem isReported_iff (hfile : i.task.file? = some file) (f : Failure) :
    isReported i f = true ↔ f.status = 1 ∧ i.task = .check file true := by
  obtain ⟨quiet, verbose, limit, config, task⟩ := i
  cases task with
  | check path json =>
    obtain rfl := Option.some.inj hfile
    cases json <;> cases f <;> simp [isReported, Failure.status]
  | parse | hash | version => simp [isReported]

/-- About a valid contract a quiet run writes nothing, unless it is for a hash. -/
theorem output_quiet {c : Contract} (hfile : i.task.file? = some file) (hquiet : i.quiet = true)
    (htask : i.task ≠ .hash file) : output i (.ok c) = "" := by
  obtain ⟨quiet, verbose, limit, config, task⟩ := i
  obtain rfl : quiet = true := hquiet
  cases task with
  | parse => rfl
  | check path json => cases json <;> rfl
  | hash path =>
    obtain rfl := Option.some.inj hfile
    exact absurd rfl htask
  | version => rfl

/-- A hash is written whether or not the run is quiet. -/
theorem output_hash (htask : i.task = .hash file) (c : Contract) :
    output i (.ok c) = c.fingerprint ++ "\n" := by
  obtain ⟨quiet, verbose, limit, config, task⟩ := i
  obtain rfl : task = .hash file := htask
  rfl

/-- A report on an invalid contract is written whether or not the run is quiet. -/
theorem output_report (htask : i.task = .check file true) (e : Error) :
    output i (.error e) = (Report.ofResult (.error e : Except Error Contract)).render ++ "\n" := by
  obtain ⟨quiet, verbose, limit, config, task⟩ := i
  obtain rfl : task = .check file true := htask
  cases quiet <;> rfl

/-- About an invalid contract a run writes nothing but the report of a check. -/
theorem output_error {e : Error} (hfile : i.task.file? = some file)
    (htask : i.task ≠ .check file true) : output i (.error e) = "" := by
  obtain ⟨quiet, verbose, limit, config, task⟩ := i
  cases task with
  | check path json =>
    cases json with
    | true =>
      obtain rfl := Option.some.inj hfile
      exact absurd rfl htask
    | false => rfl
  | parse | hash | version => rfl

/-- In whichever way a run goes, it writes what it should. -/
theorem Course.disciplined {r : TaskResult} (h : Course files detail i file r)
    (hfile : i.task.file? = some file) (log : String) :
    Disciplined files detail i file log ⟨r.status, r.out, log ++ closing i r.failure⟩ := by
  -- a failure that has nothing to do with contracts
  have hother {f : Failure} (hf : f.status = 2) :
      Disciplined files detail i file log ⟨f.status, "", log ++ closing i (some f)⟩ := by
    have hclosing : closing i (some f) = f.line :=
      if_neg fun hreported => by simp [isReported_iff hfile, hf] at hreported
    rw [hclosing]
    constructor
    case failed => exact fun _ _ => ⟨rfl, f, rfl, rfl⟩
    all_goals
      intro hstatus
      rw [hf] at hstatus
      cases hstatus
  cases h with
  | unconfigured hf => exact hother ((finds_loadOptions files detail i).status_eq hf)
  | unread hf => exact hother ((finds_readText files file).status_eq hf)
  | @accepted _ _ c hreads _ =>
    constructor
    case succeeded => exact fun _ => String.append_empty
    case quiet => exact fun _ => output_quiet hfile
    case hash => exact fun _ htask => ⟨c, hreads, output_hash htask c⟩
    case reported => exact fun hstatus => nomatch hstatus
    case failed => exact fun hstatus => absurd rfl hstatus
  | @rejected _ _ e hreads _ =>
    constructor
    case succeeded => exact fun hstatus => nomatch hstatus
    case quiet => exact fun hstatus => nomatch hstatus
    case hash => exact fun hstatus => nomatch hstatus
    case reported =>
      intro _ htask
      refine ⟨e, hreads, output_report htask e, ?_⟩
      have hreported := (isReported_iff hfile (.invalid file e)).mpr ⟨rfl, htask⟩
      rw [closing, if_pos hreported, String.append_empty]
    case failed =>
      intro _ hother
      have htask : i.task ≠ .check file true := fun htask => hother ⟨rfl, htask⟩
      refine ⟨output_error hfile htask, .invalid file e, rfl, ?_⟩
      have hreported : isReported i (.invalid file e) ≠ true :=
        fun hreported => hother ((isReported_iff hfile _).mp hreported)
      rw [closing, if_neg hreported]

/-! ## The lines about a failure -/

/-- The names of the files, what is said about files that cannot be read, and what is said
about options that are refused have no line feeds. -/
structure OnOneLine (files : Files) (detail : String → String) (i : Invocation)
    (file : String) : Prop where
  file : '\n' ∉ file.toList
  config : ∀ path, i.config = some path → '\n' ∉ path.toList
  faults : ∀ path fault, files path = .error fault → '\n' ∉ fault.describe.toList
  options : ∀ path text, i.config = some path → readText files path = .ok text →
    '\n' ∉ (detail text).toList

/-- What is told of the failure has one line that begins as such a line does. -/
def Failure.HasOneLine (f : Failure) : Prop := errorLines f.line.toList = 1

/-- A name without line feeds may stand in front of a message. -/
theorem Failure.hasOneLine {f : Failure} {front message : List Char}
    (h : f.message.toList = front ++ message) (hfront : '\n' ∉ front) (hmessage : IsTame message) :
    f.HasOneLine := by
  have hline : f.line.toList = "error: ".toList ++ (front ++ message) ++ ['\n'] := by
    simp [line, h]
  rw [HasOneLine, hline]
  exact errorLines_line hfront hmessage

/-- A file that is not UTF-8 has a wording of its own, other faults have the one that is stated. -/
theorem hasOneLine_of_readText {path : String} {f : Failure} (hpath : '\n' ∉ path.toList)
    (hfaults : ∀ path fault, files path = .error fault → '\n' ∉ fault.describe.toList)
    (h : readText files path = .error f) : f.HasOneLine := by
  obtain ⟨fault, rfl, hfault⟩ :
      ∃ fault, f = .unreadable path fault ∧ '\n' ∉ fault.describe.toList := by
    rw [readText] at h
    split at h
    · rename_i fault hfile
      cases h
      exact ⟨fault, rfl, hfaults path fault hfile⟩
    · split at h
      · cases h
      · cases h
        exact ⟨.notUtf8, rfl, by decide⟩
  have hmessage : (Failure.unreadable path fault).message.toList =
      ("cannot read ".toList ++ path.toList) ++ (": ".toList ++ fault.describe.toList) := by
    simp [Failure.message]
  refine Failure.hasOneLine hmessage ?_ (.inl ?_)
  · simp [hpath]
  · simp [hfault]

/-- The options that are refused are told with what is said about them. -/
theorem hasOneLine_of_parse {text : String} {e : Error} (hdetail : '\n' ∉ (detail text).toList)
    (h : Options.parse text detail = .error e) : (Failure.badOptions e).HasOneLine := by
  obtain rfl : e = .options (detail text) := by
    rw [Options.parse] at h
    split at h
    · cases h
    · exact (Except.error.inj h).symm
  have hmessage : (Failure.badOptions (.options (detail text))).message.toList =
      "Configuration error: ".toList ++ (detail text).toList := by
    simp [Failure.message, Error.message]
  exact Failure.hasOneLine hmessage (by decide) (.inl hdetail)

theorem hasOneLine_of_loadOptions {f : Failure} (hone : OnOneLine files detail i file)
    (h : loadOptions files detail i = .error f) : f.HasOneLine := by
  rw [loadOptions] at h
  cases hconfig : i.config with
  | none =>
    rw [hconfig] at h
    cases hlimit : i.maxDepth <;> rw [hlimit] at h <;> cases h
  | some path =>
    rw [hconfig] at h
    dsimp only at h
    cases hread : readText files path with
    | error f' =>
      rw [hread] at h
      cases h
      exact hasOneLine_of_readText (hone.config path hconfig) hone.faults hread
    | ok text =>
      rw [hread] at h
      dsimp only [bind, Except.bind] at h
      cases hparse : Options.parse text detail with
      | error e =>
        rw [hparse] at h
        cases h
        exact hasOneLine_of_parse (hone.options path text hconfig hread) hparse
      | ok options =>
        rw [hparse] at h
        cases hlimit : i.maxDepth <;> rw [hlimit] at h <;> cases h

theorem isTame_message_of_reads {e : Error} (h : Reads files detail i file (.error e)) :
    IsTame e.message.toList := by
  obtain ⟨options, text, -, -, hparse⟩ := h
  have htells : e.TellsOnly text := Grammar.tellsOnly_run Grammar.respected_contractRule
    (fun calls => (Grammar.Knot.notes_tied calls).contractRule) hparse
  exact htells.isTame_message

/-- The error of a reading quotes a line feed at most in the middle of fixed wording. -/
theorem hasOneLine_of_reads {e : Error} (hfile : '\n' ∉ file.toList)
    (h : Reads files detail i file (.error e)) : (Failure.invalid file e).HasOneLine := by
  have hmessage : (Failure.invalid file e).message.toList =
      (file.toList ++ ": ".toList) ++ e.message.toList := by
    simp [Failure.message]
  refine Failure.hasOneLine hmessage ?_ (isTame_message_of_reads h)
  simp [hfile]

theorem Course.hasOneLine {r : TaskResult} (h : Course files detail i file r)
    (hone : OnOneLine files detail i file) : ∀ f, r.failure = some f → f.HasOneLine := by
  intro f hf
  cases h with
  | unconfigured hload =>
    cases hf
    exact hasOneLine_of_loadOptions hone hload
  | unread hread =>
    cases hf
    exact hasOneLine_of_readText hone.file hone.faults hread
  | accepted => cases hf
  | rejected hreads =>
    cases hf
    exact hasOneLine_of_reads hone.file hreads

/-! ## The records -/

theorem isWorded_commandTarget : IsWorded [] Log.commandTarget.toList := isWorded_of_all (by decide)

theorem isWorded_contractTarget : IsWorded [] Log.contractTarget.toList :=
  isWorded_of_all (by decide)

/-- The record of the options is made of fixed wording and a number. -/
theorem isSilent_ofOptions (o : Options) : IsSilent (Log.ofOptions o).line.toList := by
  have hrender : IsWorded [] o.render.toList := by
    rw [Options.render]
    cases o.maxDepth <;> simp [isWording]
  have hmessage : IsWorded [] (Log.ofOptions o).message.toList := by
    simp [Log.ofOptions, isWording, hrender]
  exact isSilent_record isWorded_commandTarget
    (.inl (hmessage.newline_not_mem List.not_mem_nil))

theorem isSilent_ofResult {r : Except Error Contract}
    (h : ∀ e, r = .error e → IsTame e.message.toList) :
    IsSilent (Log.ofResult r).line.toList := by
  cases r with
  | ok c =>
    have hmessage : IsWorded [] (Log.ofResult (.ok c)).message.toList := by
      simp [Log.ofResult, isWording]
    exact isSilent_record isWorded_contractTarget
      (.inl (hmessage.newline_not_mem List.not_mem_nil))
  | error e =>
    have hfront : IsWorded [] "Contract rejected: ".toList := isWorded_of_all (by decide)
    have hmessage : IsTame (Log.ofResult (.error e)).message.toList := by
      simpa [Log.ofResult] using (h e rfl).append hfront
    exact isSilent_record isWorded_contractTarget hmessage

/-- What is told of the events on the way are traces. -/
theorem isSilent_ofReply {reply : Reply Contract} {record : Log.Record}
    (h : ∀ e, reply.result = .error e → IsTame e.message.toList)
    (hrecord : record ∈ Log.ofReply reply) (hrank : record.level.rank ≤ Log.Level.debug.rank) :
    IsSilent record.line.toList := by
  rw [Log.ofReply, List.mem_append, List.mem_singleton] at hrecord
  rcases hrecord with hevent | rfl
  · obtain ⟨event, -, hevent⟩ := List.mem_filterMap.mp hevent
    cases event with
    | missed | raised => cases hevent
    | part | block | macroRead =>
      obtain rfl := Option.some.inj hevent
      exact absurd hrank (by decide : ¬ Log.Level.trace.rank ≤ Log.Level.debug.rank)
  · exact isSilent_ofResult h

/-- Unless traces are shown as well, no line of the log tells of an error. -/
theorem Course.isSilent {r : TaskResult} (h : Course files detail i file r) :
    ∀ record ∈ r.records, record.level.rank ≤ Log.Level.debug.rank →
      IsSilent record.line.toList := by
  intro record hrecord hrank
  cases h with
  | unconfigured => cases hrecord
  | unread =>
    obtain rfl := List.mem_singleton.mp hrecord
    exact isSilent_ofOptions _
  | accepted _ hresult =>
    rcases List.mem_cons.mp hrecord with rfl | hreply
    · exact isSilent_ofOptions _
    · refine isSilent_ofReply (fun e he => ?_) hreply hrank
      cases hresult.symm.trans he
  | rejected hreads hresult =>
    rcases List.mem_cons.mp hrecord with rfl | hreply
    · exact isSilent_ofOptions _
    · refine isSilent_ofReply (fun e he => ?_) hreply hrank
      obtain rfl := Except.error.inj (hresult.symm.trans he)
      exact isTame_message_of_reads hreads

theorem isSilent_shown {level : Log.Level} (hlevel : level.rank ≤ Log.Level.debug.rank)
    {records : List Log.Record} (h : ∀ record ∈ records,
      record.level.rank ≤ Log.Level.debug.rank → IsSilent record.line.toList) :
    IsSilent (shown ⟨[⟨none, level⟩], none⟩ [] records).toList := by
  refine isSilent_join fun line hline => ?_
  obtain ⟨record, hrecord, rfl⟩ := List.mem_map.mp hline
  obtain ⟨hmem, hshows⟩ := List.mem_filter.mp hrecord
  exact h record hmem ((rank_le_of_shows hshows).trans hlevel)

/-- The filter that is used for verbose runs unless another one is asked for. -/
theorem read_debug : Log.Filter.read "debug".toList = (⟨[⟨none, .debug⟩], none⟩, []) := by
  decide

/-! ## Runs -/

/-- How many lines about a failure a run writes that ends with a status. -/
def expectedLines (i : Invocation) (file : String) (status : Nat) : Nat :=
  if status = 0 ∨ (status = 1 ∧ i.task = .check file true) then 0 else 1

theorem Failure.status_ne_zero (f : Failure) : f.status ≠ 0 := by
  cases f <;> exact Nat.succ_ne_zero _

theorem Course.errorLines_closing {r : TaskResult} (h : Course files detail i file r)
    (hfile : i.task.file? = some file) (hone : OnOneLine files detail i file) :
    errorLines (closing i r.failure).toList = expectedLines i file r.status := by
  cases hf : r.failure with
  | none =>
    have hstatus : r.status = 0 := by rw [TaskResult.status, hf]; rfl
    rw [expectedLines, if_pos (.inl hstatus)]
    rfl
  | some f =>
    have hstatus : r.status = f.status := by rw [TaskResult.status, hf]; rfl
    rw [closing, expectedLines, hstatus]
    by_cases hreported : isReported i f = true
    · rw [if_pos hreported, if_pos (.inr ((isReported_iff hfile f).mp hreported))]
      rfl
    · rw [if_neg hreported, if_neg]
      · exact h.hasOneLine hone f hf
      · rintro (hzero | hcheck)
        · exact f.status_ne_zero hzero
        · exact hreported ((isReported_iff hfile f).mpr hcheck)

/-- What a run shows of its records, given the filter that is asked for. -/
def logText (asked : Option String) (i : Invocation) (records : List Log.Record) : String :=
  shown (Log.Filter.read (filterText i asked).toList).1
    (Log.Filter.read (filterText i asked).toList).2 records

/-- Unless a filter is asked for, all that tells of an error is the line about the failure. -/
theorem Course.isSilent_logText {r : TaskResult} (h : Course files detail i file r) :
    IsSilent (logText none i r.records).toList := by
  have hfilter : ∃ level : Log.Level, level.rank ≤ Log.Level.debug.rank ∧
      Log.Filter.read (filterText i none).toList = (⟨[⟨none, level⟩], none⟩, []) := by
    rw [filterText]
    cases i.verbose
    · exact ⟨.warn, by decide, read_warn⟩
    · exact ⟨.debug, by decide, read_debug⟩
  obtain ⟨level, hlevel, hread⟩ := hfilter
  rw [logText, hread]
  exact isSilent_shown hlevel h.isSilent

/-- Unless it is asked for, nothing is logged. -/
theorem logText_eq_empty {records : List Log.Record} (hverbose : i.verbose = false)
    (h : ∀ record ∈ records, Log.Level.warn.rank < record.level.rank) :
    logText none i records = "" := by
  have hdefault : filterText i none = "warn" := by simp [filterText, hverbose]
  rw [logText, hdefault, read_warn, shown, filter_warn_eq_nil h]
  rfl

/-- Everything that is told about a run matters less than a warning. -/
theorem Course.rank_of_mem {r : TaskResult} (h : Course files detail i file r) :
    ∀ record ∈ r.records, Log.Level.warn.rank < record.level.rank := by
  have hdebug : Log.Level.warn.rank < Log.Level.debug.rank := by decide
  cases h with
  | unconfigured => exact fun _ => nofun
  | unread => exact List.forall_mem_singleton.mpr hdebug
  | accepted | rejected => exact List.forall_mem_cons.mpr ⟨hdebug, rank_of_mem_ofReply⟩

/-- A run writes what the task does, behind the log. -/
theorem run_eq {asked : Option String} {words : List String} (hwords : Request.ofWords words = .run i)
    (hfile : i.task.file? = some file) :
    run files asked words detail =
      ⟨(runOnFile files detail i file).status, (runOnFile files detail i file).out,
        logText asked i (runOnFile files detail i file).records ++
          closing i (runOnFile files detail i file).failure⟩ := by
  rw [run_of_words hwords hfile, outcome_eq]
  rfl

/-- Every run on a file is disciplined, whatever is logged. -/
theorem disciplined_run {asked : Option String} {words : List String}
    (hwords : Request.ofWords words = .run i) (hfile : i.task.file? = some file) :
    Disciplined files detail i file (logText asked i (runOnFile files detail i file).records)
      (run files asked words detail) := by
  rw [run_eq hwords hfile]
  exact (course_runOnFile files detail i file).disciplined hfile _

/-- **What a run writes.** Of a run on a file, whatever files there are, whatever is asked for
and whatever is said about options that are refused, the status tells what is written where.
And unless a filter is asked for, a run that is not verbose logs nothing, and every run has at
most one line that tells of an error: one if it fails, and none if it succeeds or has reported
the failure. -/
theorem output_discipline (files : Files) (detail : String → String) (asked : Option String)
    {words : List String} {i : Invocation} {file : String}
    (hwords : Request.ofWords words = .run i) (hfile : i.task.file? = some file) :
    Disciplined files detail i file (logText asked i (runOnFile files detail i file).records)
      (run files asked words detail) ∧
    (asked = none → i.verbose = false →
      logText asked i (runOnFile files detail i file).records = "") ∧
    (asked = none → OnOneLine files detail i file →
      errorLines (run files asked words detail).err.toList =
        expectedLines i file (run files asked words detail).status) := by
  have hcourse := course_runOnFile files detail i file
  refine ⟨disciplined_run hwords hfile, ?_, ?_⟩
  · rintro rfl hverbose
    exact logText_eq_empty hverbose hcourse.rank_of_mem
  · rintro rfl hone
    rw [run_eq hwords hfile, String.toList_append, hcourse.isSilent_logText]
    exact hcourse.errorLines_closing hfile hone

/-- A quiet run that prints a contract, and one that checks a file in which the code is
missing. -/
theorem output_discipline_on_two_files :
    let valid := "parameter unit ; storage unit ; code { } ;"
    let invalid := "parameter unit ; storage unit ;"
    let bytes (text : String) : List UInt8 := text.toUTF8.data.toList
    let files : Files := fun path => .ok (bytes (if path = "valid.tz" then valid else invalid))
    let parsed := run files none ["--quiet", "parse", "valid.tz", "--json"]
    let checked := run files none ["--quiet", "check", "invalid.tz"]
    (parsed.status = 0 ∧ parsed.out = "" ∧ parsed.err = "") ∧
    checked.status = 1 ∧ checked.out = "" ∧ errorLines checked.err.toList = 1 := by
  intro valid invalid bytes files parsed checked
  have hparse : Request.ofWords ["--quiet", "parse", "valid.tz", "--json"] =
      .run ⟨true, false, none, none, .parse "valid.tz" true⟩ := by decide
  have hcheck : Request.ofWords ["--quiet", "check", "invalid.tz"] =
      .run ⟨true, false, none, none, .check "invalid.tz" false⟩ := by decide
  have hparsed : parsed.status = 0 := by
    change (run files none _).status = 0
    rw [run_eq hparse rfl, status_runOnFile]
    decide +kernel
  have hchecked : checked.status = 1 := by
    change (run files none _).status = 1
    rw [run_eq hcheck rfl, status_runOnFile]
    decide +kernel
  obtain ⟨hvalid, hlog, -⟩ := output_discipline files (fun _ => "") none hparse rfl
  obtain ⟨hinvalid, -, hlines⟩ := output_discipline files (fun _ => "") none hcheck rfl
  have hone : OnOneLine files (fun _ => "") ⟨true, false, none, none, .check "invalid.tz" false⟩
      "invalid.tz" := by
    refine ⟨by decide, nofun, fun path fault h => ?_, nofun⟩
    cases h
  have hfails : checked.status ≠ 0 := by
    rw [hchecked]
    exact Nat.one_ne_zero
  refine ⟨⟨hparsed, hvalid.quiet hparsed rfl nofun, ?_⟩, hchecked, ?_, ?_⟩
  · exact (hvalid.succeeded hparsed).trans (hlog rfl rfl)
  · exact (hinvalid.failed hfails (by simp)).1
  · exact (hlines rfl hone).trans (by rw [hchecked]; decide)

/-- A hash is written though the run is to be quiet. -/
theorem quiet_hash_writes :
    let text := "parameter unit ; storage unit ; code { } ;"
    let files : Files := fun _ => .ok text.toUTF8.data.toList
    let words := ["--quiet", "hash", "c.tz"]
    Request.ofWords words = .run ⟨true, false, none, none, .hash "c.tz"⟩ ∧
      (run files none words).status = 0 ∧ (run files none words).out ≠ "" := by
  intro text files words
  have hwords : Request.ofWords words = .run ⟨true, false, none, none, .hash "c.tz"⟩ := by
    decide
  have hstatus : (run files none words).status = 0 := by
    rw [run_eq hwords rfl, status_runOnFile]
    decide +kernel
  obtain ⟨c, -, hout⟩ := (disciplined_run hwords rfl).hash hstatus rfl
  refine ⟨hwords, hstatus, fun hempty => ?_⟩
  have hlength := congrArg String.length (hout.symm.trans hempty)
  simp at hlength

end Michelson.Command
