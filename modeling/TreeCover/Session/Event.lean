import TreeCover.Liveness.Build
import TreeCover.Session.Error

/-!
# Events

What a compilation reports about its progress, each event with a level of importance. Events are
data; their text is made when somebody asks for it.
-/

namespace TreeCover

open Machine

/-- Levels of importance, the most important first. -/
inductive Level where
  | error | warn | info | debug | trace
deriving DecidableEq, Inhabited, Repr

namespace Level

def all : List Level := [error, warn, info, debug, trace]

def text : Level → String
  | error => "ERROR"
  | warn => "WARN"
  | info => "INFO"
  | debug => "DEBUG"
  | trace => "TRACE"

def rank : Level → Nat
  | error => 0
  | warn => 1
  | info => 2
  | debug => 3
  | trace => 4

end Level

/-- Something that happened in a compilation. -/
inductive Event where
  | parsed (func : String) (blocks : Nat)
  | compiling (func : String) (blocks : Nat)
  | failed (func : String) (error : CompileError)
  | unorderedLayout (func : String)
  | built (func block : String) (trees : Nat)
  | left (func : String) (node : Nat)
  | labeled (node : Nat) (nt : Nonterminal) (rule : String) (cost : Nat)
  | chained (node : Nat) (nt : Nonterminal) (rule : String)
  | covered (func tree : String) (goal : Nonterminal) (cost : Nat)
  | reduced (func : String) (node : Nat) (nt : Nonterminal) (rule : String)
  | emitted (func : String) (inst : Inst)
  | slotMade (func : String) (key : LocalKey) (bytes : Nat) (slot : Mem)
  | extended (loop : LoopExtension)
  | assigned (func : String) (v : VReg) (r : PhysReg)
  | spilled (func : String) (v : VReg) (slot : Mem)
  | edgeCopies (block : Nat) (target : Operand) (label : LabelId)
  | cycleBroken (operand : Operand)
  | finished (func : String) (instructions frameBytes : Nat)

namespace Event

/-- How important an event is. -/
def level : Event → Level
  | failed .. => .error
  | unorderedLayout .. => .warn
  | compiling .. | built .. | covered .. | spilled .. | finished .. => .debug
  | _ => .trace

def nodeText (id : Nat) : String := "#" ++ toString id

def regText (v : VReg) : String := (Reg.virt v).text 8

/-- The text of an event. -/
def message : Event → String
  | parsed func blocks => "parsed function @" ++ func ++ " with " ++ toString blocks ++ " blocks"
  | compiling func blocks => "compiling function " ++ func ++ " (" ++ toString blocks ++ " blocks)"
  | failed func error => func ++ ": " ++ error.message
  | unorderedLayout func =>
    func ++ ": block layout is not a reverse post-order, live intervals may be imprecise"
  | built func block trees =>
    func ++ ": block " ++ block ++ " built into " ++ toString trees ++ " trees"
  | left func node => func ++ ": leaving " ++ nodeText node ++ " for its consumers"
  | labeled node nt rule cost =>
    nodeText node ++ " " ++ nt.tagged ++ " <- " ++ rule ++ " cost " ++ toString cost
  | chained node nt rule => nodeText node ++ " " ++ nt.tagged ++ " <- " ++ rule ++ " (chain)"
  | covered func tree goal cost =>
    func ++ ": cover " ++ tree ++ " as " ++ goal.tagged ++ " at cost " ++ toString cost
  | reduced func node nt rule =>
    func ++ ": reduce " ++ nodeText node ++ " to " ++ nt.tagged ++ " with " ++ rule
  | emitted func inst => func ++ ": " ++ inst.text
  | slotMade func key bytes slot =>
    func ++ ": local " ++ key.tagged ++ " of " ++ toString bytes ++ " bytes at " ++
      toString slot.disp
  | extended loop =>
    "loop header " ++ toString loop.header ++ " extends " ++ toString loop.count ++ " values to " ++
      toString loop.last
  | assigned func v r => func ++ ": " ++ regText v ++ " -> " ++ (Reg.phys r).text 8
  | spilled func v slot =>
    func ++ ": spilling " ++ regText v ++ " to " ++ toString slot.disp ++ "(%rbp)"
  | edgeCopies block target label =>
    "edge " ++ toString block ++ " -> " ++ target.text ++ " copies through " ++ LabelId.text label
  | cycleBroken operand => "breaking phi move cycle through " ++ operand.text
  | finished func instructions frameBytes =>
    func ++ ": " ++ toString instructions ++ " instructions, frame " ++ toString frameBytes ++
      " bytes"

/-- An event as a line of a log. -/
def line (e : Event) : String := e.level.text ++ " " ++ e.message

end Event

end TreeCover
