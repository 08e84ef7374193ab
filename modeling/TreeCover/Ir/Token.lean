import TreeCover.Number.Shortest

/-!
# Tokens

The words of the intermediate language. A line is cut into tokens from left to right; blanks
separate tokens and a semicolon opens a comment that runs to the end of the line. Everything
outside comments is ASCII.

The scanner takes one token at a time and says how many further characters it covers, so the rest
of the line gets shorter with each token.
-/

namespace TreeCover.Ir

/-- A word of the language. -/
inductive Token where
  | word (s : String)
  /-- A name after `%`. -/
  | localName (s : String)
  /-- A name after `@`. -/
  | globalName (s : String)
  | int (n : Int)
  | float (x : Binary64)
  | punct (c : Char)
deriving DecidableEq, Repr

/-- A token as it is shown in messages: its kind around its content. -/
def Token.tagged : Token → String
  | word s => "Ident(\"" ++ s ++ "\")"
  | localName s => "Local(\"" ++ s ++ "\")"
  | globalName s => "Global(\"" ++ s ++ "\")"
  | int n => "Int(" ++ toString n ++ ")"
  | float x => "Float(" ++ x.tagged ++ ")"
  | punct c => "Punct('" ++ c.toString ++ "')"

/-- Why a line cannot be cut into tokens. -/
inductive ScanFault where
  | nameExpected (sigil : Char)
  | malformedNumber (literal : String)
  | unexpectedChar (c : Char)
deriving DecidableEq, Repr

/-! ## Character classes -/

def isBlank (c : Char) : Bool := c ∈ [' ', '\t', '\n', '\x0c', '\r']

def isNameChar (c : Char) : Bool := c.isAlphanum || c == '_' || c == '.'

def isWordStart (c : Char) : Bool := c.isAlpha || c == '_'

def isPunct (c : Char) : Bool := c ∈ [',', '(', ')', '[', ']', '\x7b', '\x7d', '=', ':']

/-- The first byte of a character's UTF-8 encoding, as a character. -/
def leadingByte (c : Char) : Char :=
  let n := c.toNat
  if n < 0x80 then c
  else if n < 0x800 then Char.ofNat (0xc0 + n / 0x40)
  else if n < 0x10000 then Char.ofNat (0xe0 + n / 0x1000)
  else Char.ofNat (0xf0 + n / 0x40000)

/-! ## Numbers -/

/-- The characters that continue a number after `prev`: digits, points, exponent marks, and a sign
right after an exponent mark. -/
def numberTail (prev : Char) : List Char → List Char
  | [] => []
  | c :: cs =>
    let signed := (c == '-' || c == '+') && (prev == 'e' || prev == 'E')
    if c.isDigit || c == '.' || c == 'e' || c == 'E' || signed then c :: numberTail c cs else []

/-- Whether a number starts at `c`. -/
def startsNumber (c : Char) (rest : List Char) : Bool :=
  c.isDigit || (c == '-' && rest.head?.any Char.isDigit)

/-- A literal is a double if it has a point or an exponent, and else a 128-bit integer. -/
def readNumber? (literal : List Char) : Option Token :=
  if literal.any (fun c ↦ c == '.' || c == 'e' || c == 'E') then
    (Binary64.read? literal).map .float
  else
    ((readInt? literal).filter (fitsSigned 128)).map .int

/-! ## Lines -/

/-- The token that starts at `c`, with the number of further characters it covers. -/
def scanToken (c : Char) (rest : List Char) : Except ScanFault (Token × Nat) :=
  if c == '%' || c == '@' then
    let name := rest.takeWhile isNameChar
    if name.isEmpty then throw (.nameExpected c)
    else
      let s := String.ofList name
      return (if c == '%' then .localName s else .globalName s, name.length)
  else if startsNumber c rest then
    let tail := numberTail c rest
    match readNumber? (c :: tail) with
    | some t => return (t, tail.length)
    | none => throw (.malformedNumber (String.ofList (c :: tail)))
  else if isWordStart c then
    let tail := rest.takeWhile isNameChar
    return (.word (String.ofList (c :: tail)), tail.length)
  else if isPunct c then return (.punct c, 0)
  else throw (.unexpectedChar (leadingByte c))

/-- The tokens of a line. -/
def scanLine : List Char → Except ScanFault (List Token)
  | [] => return []
  | c :: cs =>
    if c == ';' then return []
    else if isBlank c then scanLine cs
    else do
      let (t, n) ← scanToken c cs
      return t :: (← scanLine (cs.drop n))
termination_by cs => cs.length
decreasing_by all_goals (simp only [List.length_cons, List.length_drop]; omega)

/-- The lines of a text, cut at line feeds. -/
def splitLines : List Char → List (List Char)
  | [] => [[]]
  | c :: cs =>
    match splitLines cs with
    | line :: lines => if c == '\n' then [] :: line :: lines else (c :: line) :: lines
    | [] => [[c]]

end TreeCover.Ir
