import Michelson.Command.Run

/-!
# The program

Reads the files that the command line names, runs it, and writes the outcome.
-/

namespace Michelson.Command

/-- The files that a command line names. -/
def namedFiles (words : List String) : List String :=
  match Request.ofWords words with
  | .run i =>
    i.config.toList ++ match i.task with
      | .parse file _ => [file]
      | .check file _ => [file]
      | .hash file => [file]
      | .version => []
  | _ => []

/-- Reads a file from the disk. -/
def readDisk (path : String) : IO (Except ReadFault (List UInt8)) := do
  try
    let bytes ← IO.FS.readBinFile path
    return .ok bytes.toList
  catch e =>
    return .error <| match e with
      | .noFileOrDirectory .. => .notFound
      | .permissionDenied .. => .permissionDenied
      | .inappropriateType _ code _ => if code = 21 then .isDirectory else .notDirectory
      | other => .stated (toString other)

/-- Reads several files from the disk. -/
def readAll (paths : List String) : IO Files := do
  let read ← paths.mapM fun path => do
    let contents ← readDisk path
    return (path, contents)
  return fun path => (read.lookup path).getD (.error .notFound)

end Michelson.Command

open Michelson.Command in
/-- Runs the command line of the process. -/
def main (words : List String) : IO UInt32 := do
  let files ← readAll (namedFiles words)
  let filter ← IO.getEnv "RUST_LOG"
  let outcome := run files filter words fun _ =>
    "not an object with a natural number or null as max_depth"
  IO.print outcome.out
  IO.eprint outcome.err
  return UInt32.ofNat outcome.status
