import TreeCover.CommandLine.Run

/-!
# The program

The compiler as a process: files and channels are those of the operating system.
-/

namespace TreeCover

/-- The fault that a system error stands for, by its number. -/
def FileFault.ofNumber (number : UInt32) (details : String) : FileFault :=
  match number with
  | 2 => .notFound
  | 5 => .inputOutput
  | 6 => .noDevice
  | 13 => .permissionDenied
  | 20 => .notDirectory
  | 21 => .isDirectory
  | 22 => .invalidArgument
  | 26 => .busyProgram
  | 28 => .noSpace
  | 36 => .nameTooLong
  | n => .other (details ++ " (os error " ++ toString n ++ ")")

/-- The fault that an error of the system stands for. -/
def FileFault.ofError : IO.Error → FileFault
  | .noFileOrDirectory _ n details | .permissionDenied _ n details
  | .resourceExhausted _ n details | .inappropriateType _ n details
  | .invalidArgument _ n details | .noSuchThing _ n details | .alreadyExists _ n details
  | .interrupted _ n details | .otherError n details | .resourceBusy n details
  | .resourceVanished n details | .unsupportedOperation n details | .hardwareFault n details
  | .unsatisfiedConstraints n details | .illegalOperation n details | .protocolError n details
  | .timeExpired n details => .ofNumber n details
  | e => .other (toString e)

/-- Collects what a stream holds. -/
partial def readStream (s : IO.FS.Stream) (read : ByteArray) : IO ByteArray := do
  let chunk ← s.read 65536
  if chunk.isEmpty then return read else readStream s (read ++ chunk)

/-- Turns system errors into faults. -/
def guarded {α : Type} (act : IO α) : IO (Except FileFault α) := do
  try return .ok (← act) catch e => return .error (.ofError e)

/-- The host that is the running process. -/
def systemHost : Host IO where
  readInput := guarded do readStream (← IO.getStdin) .empty
  readFile path := guarded (IO.FS.withFile path .read (·.readBinToEnd))
  writeOutput text := guarded do
    let out ← IO.getStdout
    out.putStr text
    out.flush
  writeFile path text := guarded <| IO.FS.withFile path .write fun file ↦ do
    file.putStr text
    file.flush
  complain text := IO.eprint text

end TreeCover

/-- Runs the compiler on the command line of the process. -/
def main (args : List String) : IO UInt32 := TreeCover.Options.run TreeCover.systemHost args
