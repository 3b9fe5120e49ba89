import WorkerBroker.Text.Decimal
import WorkerBroker.Text.Utf8
/-!
# Faults of a JSON text

A reader of JSON text answers what it read and the bytes that follow, or the fault that stopped
it and the bytes it had not got to (`Halt`). The place of a fault is counted from the unread
bytes: the line is one more than the number of line feeds read, the column is the number of
bytes read since the last of them.
-/

namespace WorkerBroker

/-- What can be wrong with a JSON text. -/
inductive SyntaxFault where
  | eofInValue
  | eofInList
  | eofInObject
  | eofInString
  | expectedValue
  | expectedWord
  | expectedColon
  | expectedListEnd
  | expectedObjectEnd
  | keyNotString
  | trailingComma
  | trailingCharacters
  | invalidNumber
  | numberOutOfRange
  | tooDeep
  | controlInString
  | invalidEscape
  | invalidCodePoint
  | brokenSurrogatePair
  | loneSurrogate
  deriving DecidableEq, Repr

/-- The words for a fault. -/
def SyntaxFault.message : SyntaxFault → String
  | .eofInValue => "EOF while parsing a value"
  | .eofInList => "EOF while parsing a list"
  | .eofInObject => "EOF while parsing an object"
  | .eofInString => "EOF while parsing a string"
  | .expectedValue => "expected value"
  | .expectedWord => "expected ident"
  | .expectedColon => "expected `:`"
  | .expectedListEnd => "expected `,` or `]`"
  | .expectedObjectEnd => "expected `,` or `\x7d`"
  | .keyNotString => "key must be a string"
  | .trailingComma => "trailing comma"
  | .trailingCharacters => "trailing characters"
  | .invalidNumber => "invalid number"
  | .numberOutOfRange => "number out of range"
  | .tooDeep => "recursion limit exceeded"
  | .controlInString =>
    "control character (\\u0000-\\u001F) found while parsing a string"
  | .invalidEscape => "invalid escape"
  | .invalidCodePoint => "invalid unicode code point"
  | .brokenSurrogatePair => "unexpected end of hex escape"
  | .loneSurrogate => "lone leading surrogate in hex escape"

/-- A reader stopped: the fault, and the bytes behind the place it is reported at. -/
structure Halt where
  fault : SyntaxFault
  unread : Bytes
  deriving DecidableEq, Repr

/-- A fault at the byte in front, which counts as read; at the end there is none. -/
def Halt.at (fault : SyntaxFault) (bytes : Bytes) : Halt := ⟨fault, bytes.tail⟩

/-- What a reader answers: a value with the bytes after it, or where it stopped. -/
abbrev Reading (α : Type) := Except Halt (α × Bytes)

/-- Where in a text a reader stopped. -/
structure TextPlace where
  line : Nat
  column : Nat
  deriving DecidableEq, Repr

/-- The place in `text` behind which `unread` bytes are left. -/
def placeBefore (text unread : Bytes) : TextPlace :=
  let read := text.take (text.length - unread.length)
  { line := 1 + read.count 0x0a
    column := (read.reverse.takeWhile (· != 0x0a)).length }

/-- A fault with its place in the text. -/
def Halt.message (text : Bytes) (h : Halt) : String :=
  let place := placeBefore text h.unread
  h.fault.message ++ " at line " ++ decimal place.line ++ " column " ++ decimal place.column

/-! ## Blanks and words -/

/-- The blanks of JSON text. -/
def isJsonBlank (b : UInt8) : Bool :=
  b == 0x20 || b == 0x09 || b == 0x0a || b == 0x0d

/-- The bytes from the first that is no blank. -/
def skipBlanks (bytes : Bytes) : Bytes :=
  bytes.dropWhile isJsonBlank

/-- Read the rest of a word whose first letter has been read. -/
def readWord (letters : Bytes) (bytes : Bytes) : Except Halt Bytes :=
  match letters, bytes with
  | [], bytes => .ok bytes
  | _ :: _, [] => .error ⟨.eofInValue, []⟩
  | l :: letters, b :: bytes =>
    if b = l then readWord letters bytes else .error ⟨.expectedWord, bytes⟩

/-- Only blanks are left. -/
def readEnd (bytes : Bytes) : Except Halt Unit :=
  match skipBlanks bytes with
  | [] => .ok ()
  | rest => .error (.at .trailingCharacters rest)

end WorkerBroker
