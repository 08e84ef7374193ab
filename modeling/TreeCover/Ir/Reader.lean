import TreeCover.Ir.Func
import TreeCover.Ir.Token

/-!
# Reading functions

The reader works line by line. A line is a function header, a block label, an instruction or a
closing brace. While a function is open its references are names; when it closes, all value names
are resolved first and then all block names, so an operand may name what is defined further down.

A text is cut into tokens completely before anything is read from it, so of two faults one in the
spelling of a token is reported first wherever it stands.
-/

namespace TreeCover.Ir

/-! ## Faults -/

/-- Why a line or a function cannot be read. -/
inductive ReadFault where
  | scan (fault : ScanFault)
  | unexpectedEnd
  | trailing (found : Token)
  | missing (text : String)
  | wordExpected (found : Token)
  | localExpected (found : Token)
  | globalExpected (found : Token)
  | operandExpected (found : Token)
  | unknownType (name : String)
  | unknownPredicate (name : String)
  | unknownInstruction (name : String)
  | duplicateParam (name : String)
  | duplicateBlock (name : String)
  | duplicateValue (name : String)
  | undefinedValue (name : String)
  | undefinedBlock (name : String)
  | unterminatedBlock (name : String)
  | afterTerminator
  | latePhi
  | noBlocks (func : String)
  | unclosed (func : String)
deriving DecidableEq, Repr

def ScanFault.message : ScanFault → String
  | nameExpected sigil => "expected a name after '" ++ sigil.toString ++ "'"
  | malformedNumber literal => "malformed number '" ++ literal ++ "'"
  | unexpectedChar c => "unexpected character '" ++ c.toString ++ "'"

def ReadFault.message : ReadFault → String
  | scan fault => fault.message
  | unexpectedEnd => "unexpected end of line"
  | trailing t => "trailing input " ++ t.tagged
  | missing text => "expected '" ++ text ++ "'"
  | wordExpected t => "expected identifier, found " ++ t.tagged
  | localExpected t => "expected %name, found " ++ t.tagged
  | globalExpected t => "expected @name, found " ++ t.tagged
  | operandExpected t => "expected operand, found " ++ t.tagged
  | unknownType name => "unknown type '" ++ name ++ "'"
  | unknownPredicate name => "unknown predicate '" ++ name ++ "'"
  | unknownInstruction name => "unknown instruction '" ++ name ++ "'"
  | duplicateParam name => "duplicate argument %" ++ name
  | duplicateBlock name => "duplicate block " ++ name
  | duplicateValue name => "value %" ++ name ++ " defined twice"
  | undefinedValue name => "undefined value %" ++ name
  | undefinedBlock name => "undefined block %" ++ name
  | unterminatedBlock name => "block " ++ name ++ " does not end with a terminator"
  | afterTerminator => "instruction after block terminator"
  | latePhi => "phi after non-phi instruction"
  | noBlocks func => "function @" ++ func ++ " has no blocks"
  | unclosed func => "function @" ++ func ++ " is not closed"

/-- A fault and the line it is reported for, counted from one. -/
structure ReadError where
  line : Nat
  fault : ReadFault
deriving DecidableEq, Repr

def ReadError.message (e : ReadError) : String :=
  "line " ++ toString e.line ++ ": " ++ e.fault.message

/-! ## Reading within a line -/

/-- A reading step consumes tokens of one line. -/
abbrev LineReader := StateT (List Token) (Except ReadFault)

namespace LineReader

/-- The next token, which must exist. -/
def next : LineReader Token := do
  match ← get with
  | t :: ts => set ts; return t
  | [] => throw .unexpectedEnd

/-- Consumes `t` if it comes next. -/
def accept (t : Token) : LineReader Bool := do
  match ← get with
  | u :: ts => if u = t then set ts; return true else return false
  | [] => return false

/-- Consumes a punctuation mark, which must come next. -/
def punct (c : Char) : LineReader Unit := do
  unless ← accept (.punct c) do throw (.missing c.toString)

/-- Consumes a word, which must come next. -/
def keyword (s : String) : LineReader Unit := do
  unless ← accept (.word s) do throw (.missing s)

/-- Demands that nothing is left. -/
def endOfLine : LineReader Unit := do
  match ← get with
  | [] => return
  | t :: _ => throw (.trailing t)

def word : LineReader String := do
  match ← next with
  | .word s => return s
  | t => throw (.wordExpected t)

def localName : LineReader String := do
  match ← next with
  | .localName s => return s
  | t => throw (.localExpected t)

def globalName : LineReader String := do
  match ← next with
  | .globalName s => return s
  | t => throw (.globalExpected t)

/-- Reads items up to `)`, with commas between them; an item sees those before it. -/
def itemsToParen {α : Type} (item : List α → LineReader α) : Nat → List α → LineReader (List α)
  | 0, _ => throw .unexpectedEnd
  | fuel + 1, items => do
    let items := items ++ [← item items]
    if ← accept (.punct ')') then return items
    punct ','
    itemsToParen item fuel items

/-- A parenthesised list, whose opening parenthesis comes next. Every item takes a token, so the
number of tokens bounds the number of items. -/
def parenthesized {α : Type} (item : List α → LineReader α) : LineReader (List α) := do
  punct '('
  if ← accept (.punct ')') then return []
  itemsToParen item ((← get).length + 1) []

/-- Reads items for as long as a comma follows. -/
def itemsWhileComma {α : Type} (item : LineReader α) : Nat → LineReader (List α)
  | 0 => throw .unexpectedEnd
  | fuel + 1 => do
    let x ← item
    if ← accept (.punct ',') then return x :: (← itemsWhileComma item fuel)
    return [x]

/-- A nonempty list with commas between the items. -/
def commaSeparated {α : Type} (item : LineReader α) : LineReader (List α) := do
  itemsWhileComma item ((← get).length + 1)

end LineReader

/-! ## Types and operands -/

/-- `void`, `ptr`, `double`, or `i` and a positive 32-bit width. -/
def Ty.ofText? (s : String) : Option Ty :=
  if s = "void" then some .void
  else if s = "ptr" then some .ptr
  else if s = "double" then some .double
  else match s.toList with
    | 'i' :: ds => ((readNat? ds).filter fun n ↦ 0 < n && n < 0x100000000).map .int
    | _ => none

open LineReader

def readTy : LineReader Ty := do
  let name ← word
  match Ty.ofText? name with
  | some t => return t
  | none => throw (.unknownType name)

/-- An operand after its type has been read; `true`, `false` and `null` are one and zero. -/
def readOperand (ty : Ty) : LineReader (Operand String) := do
  match ← next with
  | .localName s => return .value s
  | .int n => return .int n ty.bits
  | .float x => return .float x
  | .word "true" => return .int 1 ty.bits
  | .word "false" | .word "null" => return .int 0 ty.bits
  | t => throw (.operandExpected t)

/-- A type and an operand of that type. -/
def readTypedOperand : LineReader (Ty × Operand String) := do
  let ty ← readTy
  return (ty, ← readOperand ty)

/-- A type and two operands of that type. -/
def readOperandPair : LineReader (Ty × Operand String × Operand String) := do
  let (ty, a) ← readTypedOperand
  punct ','
  return (ty, a, ← readOperand ty)

/-- A comma and an operand of pointer type. -/
def readPointer : LineReader (Operand String) := do
  punct ','
  keyword "ptr"
  readOperand .ptr

/-- A value and the block it comes from, in brackets. -/
def readIncoming (ty : Ty) : LineReader (Operand String × String) := do
  punct '['
  let v ← readOperand ty
  punct ','
  let b ← localName
  punct ']'
  return (v, b)

/-! ## Instructions -/

/-- A type and an operation, before the result is named. -/
abbrev RawOperation := Ty × Operation String String

/-- The result type, the name and the arguments of a call. -/
def readCall : LineReader RawOperation := do
  let ty ← readTy
  let callee ← globalName
  let args ← parenthesized fun _ ↦ return (← readTypedOperand).2
  return (ty, .call callee args)

/-- An operation that stands after `%name =`. -/
def readDefinition : LineReader RawOperation := do
  let op ← word
  if let some b := BinaryOp.ofText? op then
    let (ty, x, y) ← readOperandPair
    return (ty, .binary b x y)
  if let some c := CastOp.ofText? op then
    let (_, x) ← readTypedOperand
    keyword "to"
    return (← readTy, .cast c x)
  match op with
  | "icmp" =>
    let name ← word
    match Predicate.ofText? name with
    | some p =>
      let (_, x, y) ← readOperandPair
      return (.int 1, .icmp p x y)
    | none => throw (.unknownPredicate name)
  | "alloca" =>
    let ty ← readTy
    if ← accept (.punct ',') then
      keyword "align"
      discard next
    return (ty, .alloca)
  | "load" =>
    let ty ← readTy
    return (ty, .load (← readPointer))
  | "phi" =>
    let ty ← readTy
    return (ty, .phi (← commaSeparated (readIncoming ty)))
  | "call" => readCall
  | _ => throw (.unknownInstruction op)

/-- An operation that stands at the start of a line. -/
def readStatement : LineReader RawOperation := do
  match ← word with
  | "store" =>
    let (ty, v) ← readTypedOperand
    return (ty, .store v (← readPointer))
  | "br" =>
    if ← accept (.word "label") then
      return (.void, .br (← localName))
    let (_, c) ← readTypedOperand
    punct ','; keyword "label"
    let t ← localName
    punct ','; keyword "label"
    return (.void, .condBr c t (← localName))
  | "ret" =>
    if ← accept (.word "void") then return (.void, .ret none)
    let (ty, v) ← readTypedOperand
    return (ty, .ret (some v))
  | "call" => readCall
  | op => throw (.unknownInstruction op)

/-- An instruction; a result's name must not be among those already `taken`. -/
def readInst (taken : List String) : LineReader (Inst String String) := do
  match ← get with
  | .localName name :: ts =>
    set ts
    punct '='
    let (ty, operation) ← readDefinition
    if name ∈ taken then throw (.duplicateValue name)
    return ⟨some name, ty, operation⟩
  | _ =>
    let (ty, operation) ← readStatement
    return ⟨none, ty, operation⟩

/-! ## Functions under construction -/

/-- An instruction with the line it stands on. -/
structure DraftInst (ν β : Type) where
  line : Nat
  inst : Inst ν β

/-- A block read so far, its instructions newest first. -/
structure DraftBlock where
  name : String
  insts : List (DraftInst String String)

/-- A function read so far, its blocks newest first. -/
structure Draft where
  name : String
  ret : Ty
  params : List Param
  blocks : List DraftBlock

/-- Whether a block has reached its terminator. -/
def DraftBlock.isTerminated (b : DraftBlock) : Bool :=
  b.insts.head?.any (·.inst.opcode.isTerminator)

namespace Draft

/-- All instructions read so far, in order. -/
def insts (d : Draft) : List (DraftInst String String) :=
  d.blocks.reverse.flatMap (·.insts.reverse)

/-- The names of values defined so far. -/
def taken (d : Draft) : List String :=
  d.params.map (·.name) ++ d.insts.filterMap (·.inst.name)

/-- `define <ty> @name(<ty> %a, …)` and an opening brace. -/
def header : LineReader Draft := do
  keyword "define"
  let ret ← readTy
  let name ← globalName
  let params ← parenthesized fun before ↦ do
    let ty ← readTy
    let name ← localName
    if before.any (·.name == name) then throw (.duplicateParam name)
    return (⟨name, ty⟩ : Param)
  punct '\x7b'
  endOfLine
  return ⟨name, ret, params, []⟩

/-- Opens a block; the one before it must have ended. -/
def openBlock (d : Draft) (name : String) : Except ReadFault Draft := do
  if let some b := d.blocks.head? then
    unless b.isTerminated do throw (.unterminatedBlock b.name)
  if d.blocks.any (·.name == name) then throw (.duplicateBlock name)
  return { d with blocks := ⟨name, []⟩ :: d.blocks }

/-- Adds an instruction to the newest block; the first block is named `entry` if nothing else
names it. -/
def addInst (d : Draft) (line : Nat) : LineReader Draft := do
  let d ← if d.blocks.isEmpty then d.openBlock "entry" else pure d
  match d.blocks with
  | [] => return d
  | b :: bs =>
    if b.isTerminated then throw .afterTerminator
    let inst ← readInst d.taken
    endOfLine
    if inst.operation.isPhi && b.insts.any (!·.inst.operation.isPhi) then throw .latePhi
    return { d with blocks := { b with insts := ⟨line, inst⟩ :: b.insts } :: bs }

/-- Reads a label or an instruction. -/
def addLine (d : Draft) (line : Nat) : List Token → Except ReadFault Draft
  | .word label :: .punct ':' :: rest => do
    discard <| endOfLine.run rest
    d.openBlock label
  | tokens => return (← (d.addInst line).run tokens).1

/-- What a value name stands for once the whole function is read. -/
def value? (d : Draft) (name : String) : Option Value :=
  match d.params.findIdx? (·.name == name) with
  | some k => some (.arg k)
  | none => (d.insts.findIdx? (·.inst.name == some name)).map .inst

/-- What a block name stands for once the whole function is read. -/
def block? (d : Draft) (name : String) : Option BlockId :=
  d.blocks.reverse.findIdx? (·.name == name)

end Draft

/-- Replaces the references of an instruction, reporting a failure for its line. -/
def DraftInst.resolve {ν ν' β β' : Type} (f : ν → Except ReadFault ν') (g : β → Except ReadFault β')
    (i : DraftInst ν β) : Except ReadError (DraftInst ν' β') :=
  match i.inst.operation.resolve f g with
  | .ok op => .ok ⟨i.line, i.inst.name, i.inst.ty, op⟩
  | .error e => .error ⟨i.line, e⟩

/-- A result, or a fault if there is none. -/
def orFault {α : Type} (x : Option α) (fault : ReadFault) : Except ReadFault α :=
  match x with
  | some a => .ok a
  | none => .error fault

/-- Completes a function at its closing brace, on `line`. -/
def Draft.finish (d : Draft) (line : Nat) : Except ReadError Func := do
  match d.blocks with
  | [] => throw ⟨line, .noBlocks d.name⟩
  | b :: _ => unless b.isTerminated do throw ⟨line, .unterminatedBlock b.name⟩
  let valued ← d.blocks.reverse.mapM fun b ↦
    return (b.name, ← b.insts.reverse.mapM fun i ↦
      i.resolve (fun v ↦ orFault (d.value? v) (.undefinedValue v)) pure)
  let blocks ← valued.mapM fun (name, insts) ↦
    return ⟨name, (← insts.mapM fun i ↦
      i.resolve pure fun b ↦ orFault (d.block? b) (.undefinedBlock b)).map (·.inst)⟩
  return ⟨d.name, d.ret, d.params, blocks⟩

/-! ## Texts -/

/-- The functions read before the end of the text or the first fault. -/
structure Reading where
  functions : List Func
  error : Option ReadError

def Reading.toExcept (r : Reading) : Except ReadError (List Func) :=
  match r.error with
  | none => .ok r.functions
  | some e => .error e

/-- A line with its number and tokens. -/
abbrev Line := Nat × List Token

/-- The lines that have tokens. -/
def scan (text : String) : Except ReadError (List Line) := do
  let lines ← (splitLines text.toList).zipIdx.mapM fun (cs, k) ↦
    match scanLine cs with
    | .ok tokens => pure (k + 1, tokens)
    | .error e => throw ⟨k + 1, .scan e⟩
  return lines.filter fun (_, tokens) ↦ !tokens.isEmpty

/-- Where the reader stands: between functions, or in one whose header is on a known line. -/
abbrev Position := Option (Nat × Draft)

/-- Reads one line; a closing brace gives a function. -/
def readLine (at? : Position) : Line → Except ReadError (Position × Option Func)
  | (line, tokens) =>
    match at? with
    | none =>
      match Draft.header.run tokens with
      | .ok (d, _) => .ok (some (line, d), none)
      | .error e => .error ⟨line, e⟩
    | some (start, d) =>
      if tokens = [.punct '\x7d'] then do return (none, some (← d.finish line))
      else match d.addLine line tokens with
        | .ok d => .ok (some (start, d), none)
        | .error e => .error ⟨line, e⟩

/-- Reads line after line. -/
def readLines : Position → List Line → Reading
  | none, [] => ⟨[], none⟩
  | some (start, d), [] => ⟨[], some ⟨start, .unclosed d.name⟩⟩
  | at?, line :: lines =>
    match readLine at? line with
    | .error e => ⟨[], some e⟩
    | .ok (at?, func) =>
      let rest := readLines at? lines
      { rest with functions := func.toList ++ rest.functions }

/-- Reads a text as a list of functions. -/
def readText (text : String) : Reading :=
  match scan text with
  | .ok lines => readLines none lines
  | .error e => ⟨[], some e⟩

/-- The functions of a text, or the first fault. -/
def parse (text : String) : Except ReadError (List Func) := (readText text).toExcept

end TreeCover.Ir
