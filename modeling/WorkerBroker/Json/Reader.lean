import WorkerBroker.Json.Number
import WorkerBroker.Json.Text
/-!
# Reading JSON text

`Json.read` reads one value that takes up the whole text, blanks aside. Of two members with one
name the last one wins. Brackets may be nested 127 deep. Recursion is bounded by a fuel that
`Json.read` computes from the length of the text: each call reads at least one byte, or hands
the same bytes to the reader of one value.
-/

namespace WorkerBroker

namespace Json

/-- How deep brackets may be nested. -/
def maxDepth : Nat := 127

/-- The rest of one of the words `null`, `true`, `false`. -/
def readConstant (letters : Bytes) (v : Json) (bytes : Bytes) : Reading Json :=
  (readWord letters bytes).map fun rest => (v, rest)

/-- A number as a value. -/
def readNumeric (negative : Bool) (bytes : Bytes) : Reading Json :=
  (readNumber negative bytes).map fun (n, rest) => (.number n, rest)

/-- A value that starts with `b` and is neither an array nor an object. -/
def readScalar (b : UInt8) (rest : Bytes) : Reading Json :=
  if b = 0x6e then readConstant [0x75, 0x6c, 0x6c] .null rest
  else if b = 0x74 then readConstant [0x72, 0x75, 0x65] (.bool true) rest
  else if b = 0x66 then readConstant [0x61, 0x6c, 0x73, 0x65] (.bool false) rest
  else if b = 0x2d then readNumeric true rest
  else if 0x30 ≤ b && b ≤ 0x39 then readNumeric false (b :: rest)
  else if b = 0x22 then (readText rest).map fun (s, rest) => (.string s, rest)
  else .error ⟨.expectedValue, rest⟩

end Json

/-! ## Separators -/

/-- What follows an item or a member. -/
inductive Following where
  /-- the closing bracket has been read -/
  | closed (rest : Bytes)
  /-- a comma has been read, and the next item starts here -/
  | another (rest : Bytes)

/-- Behind the opening bracket of an array. -/
def afterOpenList (bytes : Bytes) : Except Halt Following :=
  match skipBlanks bytes with
  | [] => .error ⟨.eofInList, []⟩
  | b :: rest => if b = 0x5d then .ok (.closed rest) else .ok (.another (b :: rest))

/-- Behind an item of an array. -/
def afterItem (bytes : Bytes) : Except Halt Following :=
  match skipBlanks bytes with
  | [] => .error ⟨.eofInList, []⟩
  | b :: rest =>
    if b = 0x5d then .ok (.closed rest)
    else if b = 0x2c then
      match skipBlanks rest with
      | [] => .error ⟨.eofInValue, []⟩
      | c :: rest => if c = 0x5d then .error ⟨.trailingComma, rest⟩ else .ok (.another (c :: rest))
    else .error ⟨.expectedListEnd, rest⟩

/-- Behind the opening bracket of an object; the quote of the first name is read. -/
def afterOpenObject (bytes : Bytes) : Except Halt Following :=
  match skipBlanks bytes with
  | [] => .error ⟨.eofInObject, []⟩
  | b :: rest =>
    if b = 0x7d then .ok (.closed rest)
    else if b = 0x22 then .ok (.another rest)
    else .error ⟨.keyNotString, rest⟩

/-- Behind a member of an object; the quote of the next name is read. -/
def afterMember (bytes : Bytes) : Except Halt Following :=
  match skipBlanks bytes with
  | [] => .error ⟨.eofInObject, []⟩
  | b :: rest =>
    if b = 0x7d then .ok (.closed rest)
    else if b = 0x2c then
      match skipBlanks rest with
      | [] => .error ⟨.eofInValue, []⟩
      | c :: rest =>
        if c = 0x22 then .ok (.another rest)
        else if c = 0x7d then .error ⟨.trailingComma, rest⟩
        else .error ⟨.keyNotString, rest⟩
    else .error ⟨.expectedObjectEnd, rest⟩

/-- A name whose quote has been read, and the colon behind it. -/
def readName (bytes : Bytes) : Reading String :=
  match readText bytes with
  | .error h => .error h
  | .ok (name, rest) =>
    match skipBlanks rest with
    | [] => .error ⟨.eofInObject, []⟩
    | b :: rest => if b = 0x3a then .ok (name, rest) else .error ⟨.expectedColon, rest⟩

namespace Json

mutual

/-- Read one value; brackets may be nested `depth` deep. -/
def readValue (fuel depth : Nat) (bytes : Bytes) : Reading Json :=
  match fuel with
  | 0 => .error ⟨.eofInValue, []⟩
  | fuel + 1 =>
    match skipBlanks bytes with
    | [] => .error ⟨.eofInValue, []⟩
    | b :: rest =>
      if b = 0x5b then
        match depth with
        | 0 => .error ⟨.tooDeep, rest⟩
        | depth + 1 =>
          match afterOpenList rest with
          | .error h => .error h
          | .ok (.closed rest) => .ok (.array [], rest)
          | .ok (.another rest) => readItems fuel depth [] rest
      else if b = 0x7b then
        match depth with
        | 0 => .error ⟨.tooDeep, rest⟩
        | depth + 1 =>
          match afterOpenObject rest with
          | .error h => .error h
          | .ok (.closed rest) => .ok (.object [], rest)
          | .ok (.another rest) => readMembers fuel depth [] rest
      else readScalar b rest

/-- Read the items of an array from the first byte of one; `found` are those before it, the
last one first. -/
def readItems (fuel depth : Nat) (found : List Json) (bytes : Bytes) : Reading Json :=
  match fuel with
  | 0 => .error ⟨.eofInList, []⟩
  | fuel + 1 =>
    match readValue fuel depth bytes with
    | .error h => .error h
    | .ok (v, rest) =>
      match afterItem rest with
      | .error h => .error h
      | .ok (.closed rest) => .ok (.array (v :: found).reverse, rest)
      | .ok (.another rest) => readItems fuel depth (v :: found) rest

/-- Read the members of an object from behind the quote of a name. -/
def readMembers (fuel depth : Nat) (found : Table String Json) (bytes : Bytes) : Reading Json :=
  match fuel with
  | 0 => .error ⟨.eofInObject, []⟩
  | fuel + 1 =>
    match readName bytes with
    | .error h => .error h
    | .ok (name, rest) =>
      match readValue fuel depth rest with
      | .error h => .error h
      | .ok (v, rest) =>
        match afterMember rest with
        | .error h => .error h
        | .ok (.closed rest) => .ok (.object (Table.put name v found), rest)
        | .ok (.another rest) => readMembers fuel depth (Table.put name v found) rest

end

/-- Read a text that holds one value and nothing else. -/
def read (text : Bytes) : Except Halt Json :=
  match readValue (2 * text.length + 2) maxDepth text with
  | .error h => .error h
  | .ok (v, rest) => (readEnd rest).map fun _ => v

end Json

end WorkerBroker
