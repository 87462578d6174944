import Michelson.Command.Invocation
import Michelson.Command.Log
import Michelson.Fingerprint
import Michelson.Report

/-!
# Running command lines

A run is a function of the command line, the filter of the log and the files
that can be read. Its outcome is a status and two texts. The status is zero for
success, one for an invalid contract and two for everything else that can go
wrong.

The time that a log puts in front of its lines is left out, and so are the
colours of a terminal. The text of the help is made up here, and what is said of
a document for the options that cannot be used is told from outside.
-/

namespace Michelson.Command

/-- Why a file cannot be read. -/
inductive ReadFault where
  | notFound
  | permissionDenied
  /-- a part of the path before the last is no directory -/
  | notDirectory
  | isDirectory
  | notUtf8
  | stated (text : String)
deriving DecidableEq, Repr

/-- The wording of a fault. -/
def ReadFault.describe : ReadFault → String
  | notFound => "No such file or directory (os error 2)"
  | permissionDenied => "Permission denied (os error 13)"
  | notDirectory => "Not a directory (os error 20)"
  | isDirectory => "Is a directory (os error 21)"
  | notUtf8 => "stream did not contain valid UTF-8"
  | stated text => text

/-- The files that a run can read. -/
def Files : Type := String → Except ReadFault (List UInt8)

/-- Why a run fails. -/
inductive Failure where
  | unreadable (path : String) (fault : ReadFault)
  | badOptions (error : Error)
  | invalid (path : String) (error : Error)
deriving DecidableEq, Repr

namespace Failure

/-- The status of a run that fails. -/
def status : Failure → Nat
  | unreadable _ _ => 2
  | badOptions _ => 2
  | invalid _ _ => 1

/-- The wording of a failure. -/
def message : Failure → String
  | unreadable path fault => String.join ["cannot read ", path, ": ", fault.describe]
  | badOptions e => e.message
  | invalid path e => String.join [path, ": ", e.message]

/-- The line about a failure. -/
def line (f : Failure) : String := String.join ["error: ", f.message, "\n"]

end Failure

/-- The outcome of a run. -/
structure Outcome where
  status : Nat
  out : String
  err : String
deriving DecidableEq, Repr

/-- How far a task got: the records it logged, what it wrote, and its failure, if
there is one. -/
structure TaskResult where
  records : List Log.Record
  out : String
  failure : Option Failure

/-- The version of the program. -/
def version : String := "0.1.0"

/-- The text of a file. -/
def readText (files : Files) (path : String) : Except Failure String :=
  match files path with
  | .error fault => .error (.unreadable path fault)
  | .ok bytes =>
    match String.fromUTF8? bytes.toByteArray with
    | some text => .ok text
    | none => .error (.unreadable path .notUtf8)

/-- The options in force: those of the file of options, with the limit of the
command line in place of theirs. `detail` is what is said about the text of a file of
options that is refused. -/
def loadOptions (files : Files) (detail : String → String) (i : Invocation) :
    Except Failure Options := do
  let options ← match i.config with
    | none => pure {}
    | some path => do
      let text ← readText files path
      match Options.parse text detail with
      | .ok options => pure options
      | .error e => throw (.badOptions e)
  match i.maxDepth with
  | some limit => pure { options with maxDepth := some limit }
  | none => pure options

/-- What a task writes about the result of reading a contract. -/
def output (i : Invocation) (result : Except Error Contract) : String :=
  match i.task, result with
  | .parse _ json, .ok c =>
    if i.quiet then ""
    else if json then c.document.pretty ++ "\n"
    else (Form.ofContract c).outline ++ "\n"
  | .parse _ _, .error _ => ""
  | .check file json, r =>
    let report := Report.ofResult r
    if json then if i.quiet && report.valid then "" else report.render ++ "\n"
    else if report.valid && !i.quiet then String.join ["✓ ", file, " is valid\n"] else ""
  | .hash _, .ok c => c.fingerprint ++ "\n"
  | .hash _, .error _ => ""
  | .version, _ => ""

/-- Runs a task on a contract. -/
def runOnFile (files : Files) (detail : String → String) (i : Invocation) (file : String) :
    TaskResult :=
  match loadOptions files detail i with
  | .error f => ⟨[], "", some f⟩
  | .ok options =>
    match readText files file with
    | .error f => ⟨[Log.ofOptions options], "", some f⟩
    | .ok text =>
      let reply := Contract.read options.maxDepth text
      let failure := match reply.result with
        | .ok _ => none
        | .error e => some (.invalid file e)
      ⟨Log.ofOptions options :: Log.ofReply reply, output i reply.result, failure⟩

/-- Runs a task. -/
def runTask (files : Files) (detail : String → String) (i : Invocation) : TaskResult :=
  match i.task with
  | .parse file _ => runOnFile files detail i file
  | .check file _ => runOnFile files detail i file
  | .hash file => runOnFile files detail i file
  | .version =>
    ⟨[], String.join ["michelson ", version, " (michelson-core ", version, ")\n"], none⟩

/-- Whether the output of a task tells of a failure already. -/
def isReported (i : Invocation) (f : Failure) : Bool :=
  match i.task, f with
  | .check _ true, .invalid _ _ => true
  | _, _ => false

/-- The outcome of a task, with the records that a filter shows. -/
def outcome (filter : Log.Filter) (warnings : List String) (i : Invocation)
    (r : TaskResult) : Outcome :=
  let log := String.join (warnings.map (· ++ "\n") ++
    (r.records.filter filter.shows).map Log.Record.line)
  match r.failure with
  | none => ⟨0, r.out, log⟩
  | some f => ⟨f.status, r.out, log ++ if isReported i f then "" else f.line⟩

/-- The filter of the log: the one that is asked for, or else one for warnings,
or for progress as well when the run is to be verbose. -/
def filterText (i : Invocation) (asked : Option String) : String :=
  asked.getD (if i.verbose then "debug" else "warn")

/-- How to use the program. The wording is made up: the reader of command lines has a text
of its own for those that ask for help or make no sense. -/
def usage : String :=
  String.join
    ["Usage: michelson [OPTIONS] <COMMAND>\n\n",
      "Commands:\n",
      "  parse FILE [--json]  Parse a contract and print its tree\n",
      "  check FILE [--json]  Check that a contract parses\n",
      "  hash FILE            Compute the hash of a contract\n",
      "  version              Show the version\n\n",
      "Options:\n",
      "  -q, --quiet          Suppress output on success\n",
      "  -v, --verbose        Log progress\n",
      "      --max-depth N    Maximum nesting depth; overrides the options file\n",
      "      --config FILE    Options file, a JSON document\n",
      "  -h, --help           Print help\n",
      "  -V, --version        Print version\n"]

/-- Runs a command line. `filter` is the filter of the log that is asked for, and `detail`
is what is said about options that are refused. -/
def run (files : Files) (filter : Option String) (words : List String)
    (detail : String → String := fun _ => "") : Outcome :=
  match Request.ofWords words with
  | .refused => ⟨2, "", usage⟩
  | .help => ⟨0, usage, ""⟩
  | .version => ⟨0, String.join ["michelson ", version, "\n"], ""⟩
  | .run i =>
    let (f, warnings) := Log.Filter.read (filterText i filter).toList
    outcome f warnings i (runTask files detail i)

end Michelson.Command
