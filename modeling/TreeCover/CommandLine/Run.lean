import TreeCover.CommandLine.Options
import TreeCover.Compile

/-!
# Runs

What the compiler does from its command line to its exit status. A run reads one text, compiles
it, writes the assembly and reports on the error channel. The text is compiled as a whole before
anything is written, so a run that stops at an error leaves no output behind.

Files and channels belong to a `Host`, in any monad: the surroundings can be those of a process, or
a value that a proof can compute with.
-/

namespace TreeCover

/-- The surroundings of a run. -/
structure Host (m : Type → Type) where
  /-- All bytes of standard input. -/
  readInput : m (Except FileFault ByteArray)
  /-- All bytes of a file. -/
  readFile : String → m (Except FileFault ByteArray)
  /-- Appends to standard output. -/
  writeOutput : String → m (Except FileFault Unit)
  /-- Replaces the content of a file. -/
  writeFile : String → String → m (Except FileFault Unit)
  /-- Appends to the error channel. -/
  complain : String → m Unit

/-- What compiling a text leaves to be written. -/
structure Draft where
  assembly : String
  /-- The functions that failed, with the reasons, in the order of the text. -/
  failures : List (String × CompileError) := []
  stats : Stats

namespace Options

/-- Compiles a text. Unless the run keeps going, the first function that fails is an error. -/
def compile (o : Options) (text : String) : Except CompileError Draft := do
  let (functions, session) ← result ((readSource text).run { config := o.config })
  if o.keepGoing then
    let (r, session) := compileEach functions session
    return ⟨assemblyText r.compiled, r.failures, session.stats⟩
  else
    let (compiled, session) ← result ((compileAll functions).run session)
    return ⟨assemblyText compiled, [], session.stats⟩
where
  /-- The value of finished work with its session, or the error. -/
  result {α : Type} : EStateM.Result CompileError Session α → Except CompileError (α × Session)
    | .ok a s => .ok (a, s)
    | .error e _ => .error e

/-- The line that reports an error about a file or a function. -/
def complaint (subject : String) (e : CompileError) : String :=
  "bursc: " ++ subject ++ ": " ++ e.message ++ "\n"

variable {m : Type → Type} [Monad m]

/-- The input as a text. -/
def readText (h : Host m) (o : Options) : ExceptT CompileError m String := do
  match ← (if o.input = "-" then h.readInput else h.readFile o.input : m _) with
  | .error fault => throw (.file fault)
  | .ok bytes =>
    match String.fromUTF8? bytes with
    | some text => return text
    | none => throw (.file .notText)

/-- Writes the assembly to its place. -/
def writeAssembly (h : Host m) (o : Options) (assembly : String) : ExceptT CompileError m Unit := do
  let written ← match o.output with
    | none => h.writeOutput assembly
    | some path => h.writeFile path assembly
  match written with
  | .ok () => return
  | .error fault => throw (.file fault)

/-- Goes from the input to the output, and tells whether every function was compiled. Failures of
functions are reported before anything is written, and statistics only once the assembly is. -/
def attempt (h : Host m) (o : Options) : ExceptT CompileError m Bool := do
  let text ← readText h o
  let draft ← (o.compile text : Except CompileError Draft)
  draft.failures.forM fun (name, e) ↦ h.complain (complaint name e)
  writeAssembly h o draft.assembly
  if o.stats then h.complain draft.stats.text
  return draft.failures.isEmpty

/-- Carries out a command line, and gives the exit status: 0 for success, 1 for a text that does
not compile in full, 2 for a command line that is refused. -/
def run (h : Host m) (args : List String) : m UInt32 := do
  match parse args with
  | .error e =>
    h.complain ("error: " ++ e.message ++ "\n")
    return 2
  | .ok o =>
    match ← (attempt h o).run with
    | .ok complete => return if complete then 0 else 1
    | .error e =>
      h.complain (complaint o.input e)
      return 1

end Options

end TreeCover
