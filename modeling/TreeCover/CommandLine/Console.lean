import TreeCover.CommandLine.FilePlace
import TreeCover.CommandLine.Run

/-!
# Consoles

A host without a process around it: three channels, and the places of a small system. Runs on it
are values, so what a command line does can be computed.

The working directory is empty. Anything can be written to a new file in a directory that stores
its names; since no run reads back what it wrote, such files are not kept.
-/

namespace TreeCover

/-- The channels of a run. -/
structure Console where
  input : ByteArray := .empty
  output : String := ""
  errors : String := ""

/-! ## The host -/

namespace Console

/-- Reads a file. -/
def read (c : Console) (path : String) : Except FileFault ByteArray := do
  match (← FilePlace.toRead path).lookup? with
  | none => throw .notFound
  | some .directory => throw .isDirectory
  | some (.file f) =>
    match ← f.source with
    | .text content => return content.toUTF8
    | .input => return c.input

/-- Writes a file. -/
def write (c : Console) (path text : String) : Except FileFault Console := do
  let p ← FilePlace.toWrite path
  match p.lookup? with
  | none =>
    p.creation
    return c
  | some .directory => throw .isDirectory
  | some (.file f) =>
    match ← f.sink with
    | .nowhere => return c
    | .output => return { c with output := c.output ++ text }
    | .errors => return { c with errors := c.errors ++ text }

/-- The host whose channels are those of the console. -/
def host : Host (StateM Console) where
  readInput := return .ok (← get).input
  readFile path := return (← get).read path
  writeOutput text := do
    modify fun c ↦ { c with output := c.output ++ text }
    return .ok ()
  writeFile path text := do
    match (← get).write path text with
    | .ok c => set c; return .ok ()
    | .error fault => return .error fault
  complain text := modify fun c ↦ { c with errors := c.errors ++ text }

/-- Carries out a command line on a given standard input. -/
def run (args : List String) (input : ByteArray) : UInt32 × Console :=
  (Options.run host args).run { input }

end Console

end TreeCover
