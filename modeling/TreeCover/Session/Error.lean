import TreeCover.Ir.Reader
import TreeCover.Machine.Frame
import TreeCover.Tiling.Nonterminal

/-!
# Errors

Every way in which a compilation can fail, by cause. An error ends the compilation of one function.
Running out of registers is not among them, because a value can always live in the frame.
-/

namespace TreeCover

open Ir Machine

/-- Why an operand of an instruction has no node. -/
inductive OperandFault where
  | usedBeforeDefinition
  | noIncoming (pred : String)
deriving DecidableEq, Repr

def OperandFault.message : OperandFault → String
  | usedBeforeDefinition => "value is used before its definition"
  | noIncoming pred => "no incoming value for predecessor " ++ pred

/-- What an action needs a result for. -/
inductive Use where
  | value | register | immediate | address | label | memory | condition | arguments
deriving DecidableEq, Repr

def Use.text : Use → String
  | value => "a value"
  | register => "a register"
  | immediate => "an immediate"
  | address => "an address"
  | label => "a label"
  | memory => "memory"
  | condition => "a condition"
  | arguments => "an argument list"

/-- Why an action cannot use what it was given. -/
inductive BindingFault where
  | isNot (found : Bound) (use : Use)
  | cannotStore (found : Bound)
  | missing (idx : Nat)
  | constantWithoutImmediate
  | computedWithoutRegister
  | argumentWithoutSlot
  | labelWithoutLabel
  | foldedNonInstruction
  | doesNotFold (op : Opcode)
  | allocaWithoutSource
  | displacementRange
  | comparisonWithoutPredicate
  | phiMoveWithoutTarget
  | phiWithoutRegister
deriving Repr

def BindingFault.message : BindingFault → String
  | isNot found use => found.tagged ++ " is not " ++ use.text
  | cannotStore found => "cannot store " ++ found.tagged
  | missing idx => "missing operand " ++ toString idx
  | constantWithoutImmediate => "constant without an immediate slot"
  | computedWithoutRegister => "computed node without a register"
  | argumentWithoutSlot => "argument without a frame slot"
  | labelWithoutLabel => "label node without a label"
  | foldedNonInstruction => "folded node is not an instruction"
  | doesNotFold op => op.text ++ " does not fold"
  | allocaWithoutSource => "alloca without a source instruction"
  | displacementRange => "displacement out of range"
  | comparisonWithoutPredicate => "comparison without a predicate"
  | phiMoveWithoutTarget => "phi move without a target"
  | phiWithoutRegister => "phi without a register"

/-- Why a file cannot be read or written. -/
inductive FileFault where
  | notFound
  | inputOutput
  | noDevice
  | permissionDenied
  | notDirectory
  | isDirectory
  | invalidArgument
  | busyProgram
  | noSpace
  | nameTooLong
  | notText
  | other (message : String)
deriving DecidableEq, Repr

def FileFault.message : FileFault → String
  | notFound => "No such file or directory (os error 2)"
  | inputOutput => "Input/output error (os error 5)"
  | noDevice => "No such device or address (os error 6)"
  | permissionDenied => "Permission denied (os error 13)"
  | notDirectory => "Not a directory (os error 20)"
  | isDirectory => "Is a directory (os error 21)"
  | invalidArgument => "Invalid argument (os error 22)"
  | busyProgram => "Text file busy (os error 26)"
  | noSpace => "No space left on device (os error 28)"
  | nameTooLong => "File name too long (os error 36)"
  | notText => "stream did not contain valid UTF-8"
  | other message => message

/-- Why a compilation fails. -/
inductive CompileError where
  | uncovered (func : String) (node : Nat) (op : String)
  | unresolvedOperand (inst : InstId) (op : Opcode) (operand : Nat) (fault : OperandFault)
  | constantWidth (bits : Nat)
  | floatLiteral (value : Binary64) (op : Opcode)
  | binding (rule : String) (fault : BindingFault)
  | noSlot (key : LocalKey)
  | noLocation (v : VReg)
  | read (e : ReadError)
  | file (fault : FileFault)
deriving Repr

namespace CompileError

/-- The text of an error. -/
def message : CompileError → String
  | uncovered func node op =>
    "no rule covers " ++ op ++ " node #" ++ toString node ++ " in function " ++ func
  | unresolvedOperand inst op operand fault =>
    "unresolved operand " ++ toString operand ++ " of instruction #" ++ toString inst ++ " (" ++
      op.text ++ "): " ++ fault.message
  | constantWidth bits => "unsupported " ++ toString bits ++ "-bit integer constant"
  | floatLiteral value op =>
    "unsupported constant kind: floating-point literal " ++ value.plain ++ " in " ++ op.text ++
      " context"
  | binding rule fault =>
    "rule " ++ rule ++ " received an operand it cannot use: " ++ fault.message
  | noSlot key => "no stack slot has been allocated for " ++ key.tagged
  | noLocation v => "no stack slot has been allocated for location of " ++ (Reg.virt v).text 8
  | read e => e.message
  | file fault => "I/O error: " ++ fault.message

/-- Whether the input, and not the program in it, is at fault. -/
def isInputError : CompileError → Bool
  | read _ | file _ => true
  | _ => false

end CompileError

end TreeCover
