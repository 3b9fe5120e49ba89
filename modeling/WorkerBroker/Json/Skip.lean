import WorkerBroker.Json.Number
import WorkerBroker.Json.Text
/-!
# Skipping JSON values

A reader that knows which members it wants passes over the values of the others. Skipping takes
less for a fault than reading does: a string is not checked for UTF-8, surrogates need not be
paired, numbers have no range, and brackets may be nested to any depth, the open ones being kept
in a list.
-/

namespace WorkerBroker

/-- An open bracket. -/
inductive Bracket where
  | list
  | object
  deriving DecidableEq, Repr

/-- The text ends inside of this bracket. -/
def Bracket.eof : Bracket → SyntaxFault
  | .list => .eofInList
  | .object => .eofInObject

/-- Neither a comma nor the closing bracket. -/
def Bracket.unfinished : Bracket → SyntaxFault
  | .list => .expectedListEnd
  | .object => .expectedObjectEnd

/-- The byte that closes this bracket. -/
def Bracket.closing : Bracket → UInt8
  | .list => 0x5d
  | .object => 0x7d

/-- What skipping answers: the bytes behind the value, or the fault. -/
abbrev Skipping := Except SyntaxFault Bytes

/-- The letter behind a backslash, with the four digits of an escape by number. -/
def skipEscape (bytes : Bytes) : Skipping :=
  match bytes with
  | [] => .error .eofInString
  | b :: rest =>
    if b = 0x75 then
      match readHex4 rest with
      | .error h => .error h.fault
      | .ok (_, rest) => .ok rest
    else if (escapeOf? b).isSome then .ok rest
    else .error .invalidEscape

/-- The rest of a string, with a bound at least as long as the bytes. -/
def skipTextWithin : (bound : Bytes) → Bytes → Skipping
  | _, [] | [], _ => .error .eofInString
  | _ :: bound, b :: rest =>
    if b = 0x22 then .ok rest
    else if b = 0x5c then
      match skipEscape rest with
      | .error f => .error f
      | .ok rest => skipTextWithin bound rest
    else if b < 0x20 then .error .controlInString
    else skipTextWithin bound rest

/-- The rest of a string whose opening quote has been read. -/
def skipText (bytes : Bytes) : Skipping :=
  skipTextWithin bytes bytes

/-- A number whose sign has been read. -/
def skipNumber (bytes : Bytes) : Skipping :=
  match readLiteral false bytes with
  | .error _ => .error .invalidNumber
  | .ok (_, rest) => .ok rest

/-- The rest of a word. -/
def skipWord (letters bytes : Bytes) : Skipping :=
  match readWord letters bytes with
  | .error h => .error h.fault
  | .ok rest => .ok rest

/-- A value that starts with `b` and is neither an array nor an object. -/
def skipScalar (b : UInt8) (rest : Bytes) : Skipping :=
  if b = 0x6e then skipWord [0x75, 0x6c, 0x6c] rest
  else if b = 0x74 then skipWord [0x72, 0x75, 0x65] rest
  else if b = 0x66 then skipWord [0x61, 0x6c, 0x73, 0x65] rest
  else if b = 0x2d then skipNumber rest
  else if 0x30 ≤ b && b ≤ 0x39 then skipNumber (b :: rest)
  else if b = 0x22 then skipText rest
  else .error .expectedValue

/-- The name of a member and the colon behind it. -/
def skipName (bytes : Bytes) : Skipping :=
  match skipBlanks bytes with
  | [] => .error .eofInObject
  | b :: rest =>
    if b ≠ 0x22 then .error .keyNotString
    else
      match skipText rest with
      | .error f => .error f
      | .ok rest =>
        match skipBlanks rest with
        | [] => .error .eofInObject
        | c :: rest => if c = 0x3a then .ok rest else .error .expectedColon

mutual

/-- Skip a value inside of the open brackets, and everything up to the last of them. -/
def skipValueIn (fuel : Nat) (opened : List Bracket) (bytes : Bytes) : Skipping :=
  match fuel with
  | 0 => .error .eofInValue
  | fuel + 1 =>
    match skipBlanks bytes with
    | [] => .error .eofInValue
    | b :: rest =>
      if b = 0x5b then skipOn fuel false .list opened rest
      else if b = 0x7b then skipOn fuel false .object opened rest
      else
        match skipScalar b rest, opened with
        | .error f, _ => .error f
        | .ok rest, [] => .ok rest
        | .ok rest, bracket :: opened => skipOn fuel true bracket opened rest

/-- Go on inside of a bracket, behind its opening byte or, with `behind`, behind a value. -/
def skipOn (fuel : Nat) (behind : Bool) (bracket : Bracket) (opened : List Bracket)
    (bytes : Bytes) : Skipping :=
  match fuel with
  | 0 => .error .eofInValue
  | fuel + 1 =>
    match skipBlanks bytes with
    | [] => .error bracket.eof
    | b :: rest =>
      if b = 0x2c && behind then skipNext fuel bracket opened rest
      else if b = bracket.closing then
        match opened with
        | [] => .ok rest
        | outer :: opened => skipOn fuel true outer opened rest
      else if behind then .error bracket.unfinished
      else skipNext fuel bracket opened (b :: rest)

/-- Go on with an item or a member. -/
def skipNext (fuel : Nat) (bracket : Bracket) (opened : List Bracket) (bytes : Bytes) :
    Skipping :=
  match fuel with
  | 0 => .error .eofInValue
  | fuel + 1 =>
    match bracket with
    | .list => skipValueIn fuel (.list :: opened) bytes
    | .object =>
      match skipName bytes with
      | .error f => .error f
      | .ok rest => skipValueIn fuel (.object :: opened) rest

end

/-- Skip one value. -/
def skipValue (bytes : Bytes) : Skipping :=
  skipValueIn (3 * bytes.length + 3) [] bytes

end WorkerBroker
