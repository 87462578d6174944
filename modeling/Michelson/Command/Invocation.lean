import Michelson.Text.Numeral

/-!
# Command lines

A command line is a list of words. It names one task, and flags may stand
before the task and after it. A flag may be given once in each of these places;
one given after the task wins.

A word that begins with a dash is a flag, or several one-letter flags, unless
it is a lone dash. A flag with a value takes it from the same word, after an
equals sign, or from the next word. After a word `--` no word is a flag.
-/

namespace Michelson.Command

/-- What is to be done. -/
inductive Task where
  | parse (file : String) (json : Bool)
  | check (file : String) (json : Bool)
  | hash (file : String)
  | version
deriving DecidableEq, Repr

/-- A command line that makes sense. -/
structure Invocation where
  quiet : Bool
  verbose : Bool
  maxDepth : Option Nat
  config : Option String
  task : Task
deriving DecidableEq, Repr

/-- What a command line asks for. -/
inductive Request where
  | run (invocation : Invocation)
  | version
  | help
  /-- the command line makes no sense -/
  | refused
deriving DecidableEq, Repr

/-- The word that names a task. -/
inductive TaskName where
  | parse
  | check
  | hash
  | version
deriving DecidableEq, Repr

namespace TaskName

/-- The task that a word names. -/
def ofWord? : String → Option TaskName
  | "parse" => some parse
  | "check" => some check
  | "hash" => some hash
  | "version" => some version
  | _ => none

/-- Whether the task works on a file. -/
def takesFile : TaskName → Bool
  | parse => true
  | check => true
  | hash => true
  | version => false

/-- Whether the output of the task can be JSON. -/
def takesJson : TaskName → Bool
  | parse => true
  | check => true
  | hash => false
  | version => false

end TaskName

/-- What stands in one place of a command line, before the task or after it. -/
structure Given where
  quiet : Bool := false
  verbose : Bool := false
  json : Bool := false
  maxDepth : Option Nat := none
  config : Option String := none
  file : Option String := none
deriving DecidableEq, Repr

/-- A flag without a value. -/
inductive Switch where
  | quiet
  | verbose
  | json
  | version
  | help
deriving DecidableEq, Repr

/-- A flag with a value. -/
inductive Setting where
  | maxDepth
  | config
deriving DecidableEq, Repr

/-- What is reached by reading one more word: more to gather, or an end. -/
inductive Progress where
  | gathered (given : Given)
  | ended (request : Request)

/-- The switch that a letter stands for. The version can be asked for before the
task only. -/
def Switch.ofLetter? (task : Option TaskName) : Char → Option Switch
  | 'q' => some quiet
  | 'v' => some verbose
  | 'h' => some help
  | 'V' => if task.isNone then some version else none
  | _ => none

/-- The switch that a long name stands for. -/
def Switch.ofName? (task : Option TaskName) : String → Option Switch
  | "quiet" => some quiet
  | "verbose" => some verbose
  | "help" => some help
  | "version" => if task.isNone then some version else none
  | "json" => if task.any TaskName.takesJson then some json else none
  | _ => none

/-- The setting that a long name stands for. -/
def Setting.ofName? : String → Option Setting
  | "max-depth" => some maxDepth
  | "config" => some config
  | _ => none

/-- Turns a switch on. It may be turned on once. -/
def Given.turnOn (g : Given) : Switch → Progress
  | .quiet => if g.quiet then .ended .refused else .gathered { g with quiet := true }
  | .verbose => if g.verbose then .ended .refused else .gathered { g with verbose := true }
  | .json => if g.json then .ended .refused else .gathered { g with json := true }
  | .version => .ended .version
  | .help => .ended .help

/-- The limit on nesting that a word denotes: a decimal number of 64 bits,
with a plus sign or without. -/
def limitOfWord? (word : String) : Option Nat :=
  let digits := match word.toList with
    | '+' :: rest => rest
    | cs => cs
  if digits.isEmpty || !digits.all Char.isDigit then none
  else
    let n := Numeral.value 10 digits
    if n < Numeral.bound64 then some n else none

/-- Gives a setting its value. It may be given one once. -/
def Given.set (g : Given) (setting : Setting) (value : String) : Progress :=
  match setting with
  | .maxDepth =>
    match g.maxDepth, limitOfWord? value with
    | none, some n => .gathered { g with maxDepth := some n }
    | _, _ => .ended .refused
  | .config =>
    if g.config.isNone && !value.isEmpty then .gathered { g with config := some value }
    else .ended .refused

/-- Turns on the switches of a word of one-letter flags. -/
def Given.turnOnAll (task : Option TaskName) (g : Given) : List Char → Progress
  | [] => .gathered g
  | letter :: letters =>
    match Switch.ofLetter? task letter with
    | none => .ended .refused
    | some s =>
      match g.turnOn s with
      | .gathered g' => turnOnAll task g' letters
      | .ended r => .ended r

/-- Takes a word that is no flag. -/
def Given.takeFile (task : TaskName) (g : Given) (word : String) : Progress :=
  if task.takesFile && g.file.isNone && !word.isEmpty then .gathered { g with file := some word }
  else .ended .refused

/-- Takes words none of which is a flag. -/
def Given.takeFiles (task : TaskName) (g : Given) : List String → Progress
  | [] => .gathered g
  | word :: words =>
    match g.takeFile task word with
    | .gathered g' => takeFiles task g' words
    | .ended r => .ended r

/-- Splits the name of a long flag from its value. -/
def splitFlag (cs : List Char) : String × Option String :=
  let name := cs.takeWhile (· != '=')
  match cs.drop name.length with
  | [] => (String.ofList name, none)
  | _ :: value => (String.ofList name, some (String.ofList value))

/-- The meaning of a word. -/
inductive Word where
  /-- a long flag with the value in the same word -/
  | long (name : String) (value : Option String)
  | short (letters : List Char)
  | separator
  | plain
deriving DecidableEq, Repr

/-- The meaning of a word. -/
def Word.of (word : String) : Word :=
  match word.toList with
  | ['-', '-'] => .separator
  | '-' :: '-' :: cs =>
    let (name, value) := splitFlag cs
    .long name value
  | ['-'] => .plain
  | '-' :: letters => .short letters
  | _ => .plain

/-- The request that is made by what was gathered before and after the name of
a task. -/
def request (task : TaskName) (before after : Given) : Request :=
  let make (t : Task) : Request :=
    .run ⟨before.quiet || after.quiet, before.verbose || after.verbose,
      after.maxDepth.or before.maxDepth, after.config.or before.config, t⟩
  match task, after.file with
  | .parse, some file => make (.parse file after.json)
  | .check, some file => make (.check file after.json)
  | .hash, some file => make (.hash file)
  | .version, _ => make .version
  | _, none => .refused

/-- Reads the words after the name of a task. -/
def readAfter (task : TaskName) (before : Given) (g : Given) : List String → Request
  | [] => request task before g
  | word :: words =>
    match Word.of word with
    | .separator =>
      match g.takeFiles task words with
      | .gathered g' => request task before g'
      | .ended r => r
    | .short letters =>
      match g.turnOnAll (some task) letters with
      | .gathered g' => readAfter task before g' words
      | .ended r => r
    | .plain =>
      match g.takeFile task word with
      | .gathered g' => readAfter task before g' words
      | .ended r => r
    | .long name value =>
      match Switch.ofName? (some task) name, Setting.ofName? name, value with
      | some s, _, none =>
        match g.turnOn s with
        | .gathered g' => readAfter task before g' words
        | .ended r => r
      | _, some s, some v =>
        match g.set s v with
        | .gathered g' => readAfter task before g' words
        | .ended r => r
      | _, some s, none =>
        match words with
        | v :: words' =>
          if Word.of v = .plain then
            match g.set s v with
            | .gathered g' => readAfter task before g' words'
            | .ended r => r
          else .refused
        | [] => .refused
      | _, _, _ => .refused

/-- What the word `help` asks for, given the words after it: at most the name of
a task, or the word `help` itself. -/
def helpFor : List String → Request
  | [] => .help
  | [word] => if word = "help" || (TaskName.ofWord? word).isSome then .help else .refused
  | _ => .refused

/-- Reads the words up to the name of a task, and those after it. -/
def readBefore (g : Given) : List String → Request
  | [] => .refused
  | word :: words =>
    match Word.of word with
    | .separator => .refused
    | .short letters =>
      match g.turnOnAll none letters with
      | .gathered g' => readBefore g' words
      | .ended r => r
    | .plain =>
      if word = "help" then helpFor words
      else
        match TaskName.ofWord? word with
        | some task => readAfter task g {} words
        | none => .refused
    | .long name value =>
      match Switch.ofName? none name, Setting.ofName? name, value with
      | some s, _, none =>
        match g.turnOn s with
        | .gathered g' => readBefore g' words
        | .ended r => r
      | _, some s, some v =>
        match g.set s v with
        | .gathered g' => readBefore g' words
        | .ended r => r
      | _, some s, none =>
        match words with
        | v :: words' =>
          if Word.of v = .plain then
            match g.set s v with
            | .gathered g' => readBefore g' words'
            | .ended r => r
          else .refused
        | [] => .refused
      | _, _, _ => .refused

/-- What a command line asks for. -/
def Request.ofWords (words : List String) : Request := readBefore {} words

end Michelson.Command
