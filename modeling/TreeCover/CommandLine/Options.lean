import TreeCover.Session.Basic

/-!
# Options

The command line of the compiler: switches, settings with a value, and at most one input path, in
any order. A lone dash is a path; after `--` everything is.

Reading goes in two steps. Arguments are first cut into items, each of which means something on its
own; items are then gathered into `Options`, which refuses to be told the same thing twice.
-/

namespace TreeCover

/-- What a command line asks for. -/
structure Options where
  /-- Where the text comes from; a dash means standard input. -/
  input : String := "-"
  /-- Where the assembly goes; standard output if nothing is said. -/
  output : Option String := none
  config : Config := {}
  /-- Whether to go on after a function that fails. -/
  keepGoing : Bool := false
  /-- Whether to finish with the statistics of the session. -/
  stats : Bool := false
deriving DecidableEq, Repr

/-! ## Items -/

/-- An option without a value. -/
inductive Switch where
  | keepGoing | traceCover | stats
deriving DecidableEq, Repr

/-- An option with a value. -/
inductive Setting where
  | output | registerBudget | threshold
deriving DecidableEq, Repr

def Switch.long : Switch → String
  | keepGoing => "keep-going"
  | traceCover => "trace-cover"
  | stats => "stats"

def Setting.long : Setting → String
  | output => "output"
  | registerBudget => "num-regs"
  | threshold => "threshold"

/-- What a single option or path asks for. -/
inductive Item where
  | switch (s : Switch)
  | setting (s : Setting) (value : String)
  | input (path : String)
deriving DecidableEq, Repr

/-- Why a command line is refused. -/
inductive UsageError where
  | unexpected (arg : String)
  | missingValue (s : Setting)
  | invalidValue (s : Setting) (value : String)
  | repeated (option : String)
deriving DecidableEq, Repr

def UsageError.message : UsageError → String
  | unexpected arg => "unexpected argument '" ++ arg ++ "' found"
  | missingValue s => "a value is required for '--" ++ s.long ++ "' but none was supplied"
  | invalidValue s value => "invalid value '" ++ value ++ "' for '--" ++ s.long ++ "'"
  | repeated option => "the argument '--" ++ option ++ "' cannot be used multiple times"

namespace Options

def switches : List Switch := [.keepGoing, .traceCover, .stats]

def settings : List Setting := [.output, .registerBudget, .threshold]

/-- The items of one argument, and the setting that takes its value from the next argument. -/
abbrev Parsed := List Item × Option Setting

/-- An option by its long name, with the value after its equals sign if it has one. -/
def readLong (name : String) (value : Option String) : Except UsageError Parsed :=
  match switches.find? (·.long == name), settings.find? (·.long == name), value with
  | some s, _, none => .ok ([.switch s], none)
  | none, some s, some v => .ok ([.setting s v], none)
  | none, some s, none => .ok ([], some s)
  | _, _, _ => .error (.unexpected ("--" ++ name))

/-- Options by their letters. The letter of a setting takes the rest as its value, less an equals
sign. -/
def readShort : List Char → Except UsageError Parsed
  | [] => .ok ([], none)
  | 'k' :: cs => (readShort cs).map fun (items, s) ↦ (.switch .keepGoing :: items, s)
  | ['o'] => .ok ([], some .output)
  | 'o' :: '=' :: value => .ok ([.setting .output (String.ofList value)], none)
  | 'o' :: value => .ok ([.setting .output (String.ofList value)], none)
  | c :: _ => .error (.unexpected ("-" ++ c.toString))

/-- The items of one argument by its leading dashes. -/
def readArgument (arg : List Char) : Except UsageError Parsed :=
  match arg with
  | '-' :: '-' :: body =>
    let name := String.ofList (body.takeWhile (· != '='))
    match body.dropWhile (· != '=') with
    | [] => readLong name none
    | _ :: value => readLong name (some (String.ofList value))
  | '-' :: c :: cs => readShort (c :: cs)
  | _ => .ok ([.input (String.ofList arg)], none)

/-- Whether an argument is read as an option, so that it cannot be the value of one. -/
def looksLikeOption (arg : String) : Bool := arg.startsWith "-" && arg != "-"

/-- The items of a command line. -/
def items : List String → Except UsageError (List Item)
  | [] => .ok []
  | "--" :: paths => .ok (paths.map .input)
  | arg :: rest => do
    match ← readArgument arg.toList, rest with
    | (here, none), rest => return here ++ (← items rest)
    | (_, some s), [] => throw (.missingValue s)
    | (here, some s), value :: rest =>
      if looksLikeOption value then throw (.missingValue s)
      return here ++ .setting s value :: (← items rest)

/-! ## Gathering -/

/-- A number of registers: below 2⁶⁴, after an optional plus sign. -/
def readBudget? (text : String) : Option Nat :=
  let digits := match text.toList with
    | '+' :: cs => cs
    | cs => cs
  (readNat? digits).filter (· < 0x10000000000000000)

/-- A number of uses: an integer with an optional sign that is in the range from 0 to 2³² - 1, so
that a minus can only stand before zero. -/
def readThreshold? (text : String) : Option Nat :=
  let n? := match text.toList with
    | '+' :: cs => (readNat? cs).map Int.ofNat
    | cs => readInt? cs
  (n?.bind Int.toNat?).filter (· < 0x100000000)

/-- Follows one item. -/
def gather (o : Options) : Item → Except UsageError Options
  | .switch .keepGoing => .ok { o with keepGoing := true }
  | .switch .traceCover => .ok { o with config := { o.config with traceCover := true } }
  | .switch .stats => .ok { o with stats := true }
  | .input "" => .error (.unexpected "")
  | .input path => .ok { o with input := path }
  | .setting .output "" => .error (.invalidValue .output "")
  | .setting .output path => .ok { o with output := some path }
  | .setting .registerBudget text =>
    match readBudget? text with
    | some n => .ok { o with config := { o.config with registerBudget := n } }
    | none => .error (.invalidValue .registerBudget text)
  | .setting .threshold text =>
    match readThreshold? text with
    | some n => .ok { o with config := { o.config with threshold := n } }
    | none => .error (.invalidValue .threshold text)

/-- Whether two items ask for the same thing. -/
def sameSubject : Item → Item → Bool
  | .switch s, .switch t => s == t
  | .setting s _, .setting t _ => s == t
  | .input _, .input _ => true
  | _, _ => false

/-- The complaint about an item that repeats an earlier one. -/
def repetition : Item → UsageError
  | .switch s => .repeated s.long
  | .setting s _ => .repeated s.long
  | .input path => .unexpected path

/-- Refuses items that repeat an earlier one. -/
def checkRepeats : List Item → Except UsageError Unit
  | [] => .ok ()
  | i :: is =>
    match is.find? (sameSubject i) with
    | some j => .error (repetition j)
    | none => checkRepeats is

/-- Reads a command line. -/
def parse (args : List String) : Except UsageError Options := do
  let is ← items args
  checkRepeats is
  is.foldlM gather {}

end Options

end TreeCover
