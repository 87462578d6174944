import Michelson.Form.Dump
import Michelson.Options
import Michelson.Parse
import Michelson.Pattern
import Michelson.Text.Blank

/-!
# Logging

What a run tells about its progress. Every record has a level and a target, and
a filter decides which records are shown. A filter is a list of directives: a
level for all targets, or for those that begin with some name. The directive
with the longest fitting name decides. A filter may also have a pattern that
occurs in the messages shown.
-/

namespace Michelson.Log

/-- How much a record matters. A filter shows the levels up to its own. -/
inductive Level where
  | off
  | error
  | warn
  | info
  | debug
  | trace
deriving DecidableEq, Repr

namespace Level

/-- Every level, the ones that matter most first. -/
def all : List Level := [off, error, warn, info, debug, trace]

/-- The name of a level. -/
def name : Level → String
  | off => "OFF"
  | error => "ERROR"
  | warn => "WARN"
  | info => "INFO"
  | debug => "DEBUG"
  | trace => "TRACE"

/-- The place of a level in the order. -/
def rank : Level → Nat
  | off => 0
  | error => 1
  | warn => 2
  | info => 3
  | debug => 4
  | trace => 5

/-- The level that a word names, in capital or small letters. -/
def ofWord? (word : List Char) : Option Level :=
  all.find? fun l => l.name.toList == word.map Char.toUpper

end Level

/-- One thing told. -/
structure Record where
  level : Level
  target : String
  message : String
deriving DecidableEq, Repr

/-- One directive of a filter. Without a name it is for all targets. -/
structure Directive where
  name : Option (List Char)
  level : Level
deriving DecidableEq, Repr

/-- A filter: directives, and perhaps a pattern that occurs in shown messages. -/
structure Filter where
  directives : List Directive
  pattern : Option Pattern.Expr := none
deriving DecidableEq, Repr

/-! ## Reading filters -/

/-- The parts of a text between the characters `separator`. -/
def splitAt (separator : Char) : List Char → List (List Char)
  | [] => [[]]
  | c :: cs =>
    match splitAt separator cs with
    | [] => [[c]]
    | part :: parts => if c = separator then [] :: part :: parts else (c :: part) :: parts

/-- A text without the blanks at its ends. -/
def trim (cs : List Char) : List Char :=
  ((cs.dropWhile isBlank).reverse.dropWhile isBlank).reverse

/-- The directive that a text denotes; if it denotes none, the part at fault. -/
def directive (cs : List Char) : Except (List Char) Directive :=
  match splitAt '=' cs with
  | [word] =>
    match Level.ofWord? word with
    | some l => .ok ⟨none, l⟩
    | none => .ok ⟨some word, .trace⟩
  | [name, word] =>
    match trim word with
    | [] => .ok ⟨some name, .trace⟩
    | w =>
      match Level.ofWord? w with
      | some l => .ok ⟨some name, l⟩
      | none => .error w
  | _ => .error cs

/-- The warning about a part of a filter that makes no sense. -/
def warning (part : List Char) (detail : String) : String :=
  String.join ["warning: invalid logging spec '", String.ofList part, "'", detail, ", ignoring it"]

/-- The warning about a pattern that cannot be used. -/
def patternWarning (pattern : List Char) (f : Pattern.Failure) : String :=
  String.join ["warning: invalid regex filter - ", f.message pattern, ", ignoring it"]

/-- The directives of a list of them, and warnings about those that make no
sense. -/
def readDirectives : List (List Char) → List Directive × List String
  | [] => ([], [])
  | part :: parts =>
    let (ds, warnings) := readDirectives parts
    if (trim part).isEmpty then (ds, warnings)
    else
      match directive (trim part) with
      | .ok d => (d :: ds, warnings)
      | .error fault => (ds, warning fault "" :: warnings)

/-- A directive put into a list, in place of one with the same name. -/
def replace (d : Directive) : List Directive → List Directive
  | [] => [d]
  | e :: es => if e.name = d.name then d :: es else e :: replace d es

/-- The filter of some directives. Without any, errors alone are shown. -/
def Filter.ofDirectives (ds : List Directive) (pattern : Option Pattern.Expr) : Filter :=
  match ds with
  | [] => ⟨[⟨none, .error⟩], pattern⟩
  | _ => ⟨ds.foldl (fun kept d => replace d kept) [], pattern⟩

/-- The filter that a text denotes, and warnings about it. After a slash stands
the pattern; one that cannot be used is left out. -/
def Filter.read (text : List Char) : Filter × List String :=
  match splitAt '/' text with
  | [spec] =>
    let (ds, warnings) := readDirectives (splitAt ',' spec)
    (Filter.ofDirectives ds none, warnings)
  | [spec, pattern] =>
    let (ds, warnings) := readDirectives (splitAt ',' spec)
    match Pattern.compile pattern with
    | .ok e => (Filter.ofDirectives ds (some e), warnings)
    | .error f => (Filter.ofDirectives ds none, warnings ++ [patternWarning pattern f])
  | _ => (Filter.ofDirectives [] none, [warning text " (too many '/'s)"])

/-! ## Showing records -/

/-- The length of the name of a directive. -/
def Directive.weight (d : Directive) : Nat :=
  match d.name with
  | some name => name.length
  | none => 0

/-- Whether a directive is for a target. -/
def Directive.fits (target : String) (d : Directive) : Bool :=
  match d.name with
  | some name => name.isPrefixOf target.toList
  | none => true

/-- The heavier of two directives; of two equally heavy ones, the later. -/
def heavier (best : Option Directive) (d : Directive) : Option Directive :=
  match best with
  | none => some d
  | some b => if d.weight ≥ b.weight then some d else some b

/-- Whether a filter shows a record. -/
def Filter.shows (f : Filter) (r : Record) : Bool :=
  match (f.directives.filter (Directive.fits r.target)).foldl heavier none with
  | some d =>
    r.level.rank ≤ d.level.rank && f.pattern.all fun e => e.occursIn r.message.toList
  | none => false

/-- What is left of a message on a medium without control sequences. An escape
character takes the characters of its sequence along. -/
def visible : Bool → List Char → List Char
  | _, [] => []
  | inSequence, c :: cs =>
    if c.toNat = 0x1B then visible true cs
    else if c = '\t' ∨ c = '\n' ∨ c = '\r' ∨ c.toNat = 0x0C then c :: visible inSequence cs
    else if c.toNat < 0x20 ∨ c.toNat = 0x7F then visible inSequence cs
    -- an intermediate character keeps the sequence open, any other ends it
    else if inSequence then visible (0x20 ≤ c.toNat && c.toNat < 0x30) cs
    else c :: visible false cs

/-- A message with the lines after the first indented. -/
def indentLines (cs : List Char) : List Char :=
  cs.flatMap fun c => if c = '\n' then "\n    ".toList else [c]

/-- The line of a record, without the time that a log puts in front of the level. -/
def Record.line (r : Record) : String :=
  String.ofList <| visible false <|
    '[' :: (r.level.name.toList ++ ' ' :: (r.target.toList ++ ']' :: ' ' ::
      (indentLines r.message.toList ++ ['\n'])))

/-! ## What is told -/

/-- The target of the records about whole contracts. -/
def contractTarget : String := "michelson_core::parser"

/-- The target of the records about blocks. -/
def codeTarget : String := "michelson_core::parser::instr"

/-- The target of the records about macros. -/
def macroTarget : String := "michelson_core::parser::macros"

/-- The target of the records about command lines. -/
def commandTarget : String := "michelson_cli"

/-- The record of an event in a run of the grammar, if it is worth one. -/
def ofEvent : Event → Option Record
  | .missed _ _ => none
  | .raised _ => none
  | .part part p =>
    some ⟨.trace, contractTarget, String.join [part.keyword, " section at ", p.render]⟩
  | .block p => some ⟨.trace, codeTarget, String.join ["block at ", p.render]⟩
  | .macroRead p m =>
    some ⟨.trace, macroTarget, String.join ["macro at ", p.render, ": ", (Form.ofMacro m).line]⟩

/-- The record of the result of a run. -/
def ofResult : Except Error Contract → Record
  | .ok c =>
    ⟨.debug, contractTarget, String.join ["Parsed contract with ",
      String.ofList (Numeral.decimal c.code.length), " top-level ops"]⟩
  | .error e => ⟨.debug, contractTarget, String.join ["Contract rejected: ", e.message]⟩

/-- The records of a run. -/
def ofReply (r : Reply Contract) : List Record :=
  r.events.filterMap ofEvent ++ [ofResult r.result]

/-- The record of the options in force. -/
def ofOptions (o : Options) : Record :=
  ⟨.debug, commandTarget, String.join ["Parse options: ", o.render]⟩

end Michelson.Log
