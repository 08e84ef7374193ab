import TreeCover.Session.Event

/-!
# Compilation sessions

A session spans all functions compiled in one run. It holds the configuration, hands out labels,
counts, and keeps the events in order. All other data belongs to the compilation of one function.
-/

namespace TreeCover

/-! ## Configuration -/

/-- What shapes the generated code. -/
structure Config where
  /-- How many registers may hold values. -/
  registerBudget : Nat := 16
  /-- A shared tree gets a register of its own when its height times its uses exceeds this. -/
  threshold : Nat := 5
  /-- Whether to report the cover of every tree. -/
  traceCover : Bool := false
deriving DecidableEq, Repr

/-! ## Statistics -/

/-- How often each mnemonic was emitted, in order of first use. -/
abbrev Tally := List (String × Nat)

/-- Counts one more occurrence. -/
def Tally.add (m : String) : Tally → Tally
  | [] => [(m, 1)]
  | (k, n) :: rest => if k = m then (k, n + 1) :: rest else (k, n) :: Tally.add m rest

/-- What a session has counted. -/
structure Stats where
  functions : Nat := 0
  instructions : Nat := 0
  mnemonics : Tally := []
  trees : Nat := 0
  registers : Nat := 0
  spills : Nat := 0
  /-- The size of the largest function, in finished instructions, and its name. -/
  largest : Nat := 0
  largestName : String := ""
deriving Repr

namespace Stats

/-- By decreasing count, and by name among equals. -/
def ranksBefore (a b : String × Nat) : Bool := b.2 < a.2 || (a.2 == b.2 && a.1 ≤ b.1)

/-- How many mnemonics are listed. -/
def listed : Nat := 10

/-- The statistics as text, with the most frequent mnemonics. -/
def text (s : Stats) : String :=
  let largest := if s.largestName.isEmpty then [] else
    ["  Largest function: " ++ s.largestName ++ " (" ++ toString s.largest ++ " instructions)"]
  let breakdown := if s.mnemonics.isEmpty then [] else
    "  Instruction breakdown:" ::
      ((s.mnemonics.mergeSort ranksBefore).take listed).map fun (m, n) ↦
        "    " ++ m ++ ": " ++ toString n
  let lines :=
    ["Compilation Session Statistics:",
      "  Functions compiled: " ++ toString s.functions,
      "  Instructions emitted: " ++ toString s.instructions,
      "  Trees materialized: " ++ toString s.trees,
      "  Registers allocated: " ++ toString s.registers,
      "  Spills generated: " ++ toString s.spills] ++ largest ++ breakdown
  String.join (lines.map (· ++ "\n"))

end Stats

/-! ## Sessions -/

/-- What the functions of one run share. -/
structure Session where
  config : Config := {}
  nextLabel : Machine.LabelId := 0
  stats : Stats := {}
  /-- What was reported, latest first. -/
  events : List Event := []

namespace Session

/-- Hands out a label that was never handed out before. -/
def freshLabel (s : Session) : Machine.LabelId × Session :=
  (s.nextLabel, { s with nextLabel := s.nextLabel + 1 })

/-- Adds an event. -/
def report (s : Session) (e : Event) : Session := { s with events := e :: s.events }

/-- Adds events in order. -/
def reportAll (s : Session) (es : List Event) : Session := es.foldl report s

def updateStats (s : Session) (f : Stats → Stats) : Session := { s with stats := f s.stats }

/-- Counts a finished function; the first of the largest ones is remembered. -/
def countFunction (s : Session) (name : String) (size : Nat) : Session :=
  s.updateStats fun st ↦
    let st := { st with functions := st.functions + 1 }
    if st.largest < size then { st with largest := size, largestName := name } else st

def countInst (s : Session) (mnemonic : String) : Session :=
  s.updateStats fun st ↦
    { st with instructions := st.instructions + 1, mnemonics := Tally.add mnemonic st.mnemonics }

def countTree (s : Session) : Session := s.updateStats fun st ↦ { st with trees := st.trees + 1 }

def countRegister (s : Session) : Session :=
  s.updateStats fun st ↦ { st with registers := st.registers + 1 }

def countSpill (s : Session) : Session :=
  s.updateStats fun st ↦ { st with spills := st.spills + 1 }

/-- The lines of the log at a level or above, in order. -/
def log (s : Session) (level : Level) : List String :=
  (s.events.reverse.filter fun e ↦ e.level.rank ≤ level.rank).map (·.line)

end Session

end TreeCover
