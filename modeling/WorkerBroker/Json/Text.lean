import WorkerBroker.Json.Syntax
import WorkerBroker.Text.Hex
/-!
# JSON strings

`readText` reads a string whose opening quote has been read. The bytes of the string are
collected first, escapes written out as UTF-8, and must then be UTF-8 as a whole. If they are not,
the bytes from the first malformed piece to the end of the string are counted, and the fault is
reported as many bytes before the end of its text; since an escape is longer than what it stands
for, escapes behind the piece move the place to the right. An escape for a high surrogate must be
followed by one for a low surrogate.
-/

namespace WorkerBroker

/-- Four hexadecimal digits. -/
def readHex4 (bytes : Bytes) : Reading Nat :=
  match bytes with
  | a :: b :: c :: d :: rest =>
    match hexValue? a, hexValue? b, hexValue? c, hexValue? d with
    | some a, some b, some c, some d => .ok (((a * 16 + b) * 16 + c) * 16 + d, rest)
    | _, _, _, _ => .error ⟨.invalidEscape, rest⟩
  | _ => .error ⟨.eofInString, []⟩

/-- The character of a pair of surrogates. -/
def surrogatePair (high low : Nat) : Char :=
  Char.ofNat ((high - 0xd800) * 0x400 + (low - 0xdc00) + 0x10000)

/-- A backslash and the letter `u`, between the two halves of a pair. -/
def readPairMark (bytes : Bytes) : Except Halt Bytes :=
  match bytes with
  | [] => .error ⟨.eofInString, []⟩
  | b :: rest =>
    if b ≠ 0x5c then .error ⟨.brokenSurrogatePair, rest⟩
    else
      match rest with
      | [] => .error ⟨.eofInString, []⟩
      | c :: rest => if c ≠ 0x75 then .error ⟨.brokenSurrogatePair, rest⟩ else .ok rest

/-- The character of an escape by number. -/
def readNumbered (bytes : Bytes) : Reading Char :=
  match readHex4 bytes with
  | .error h => .error h
  | .ok (n, rest) =>
    if 0xdc00 ≤ n ∧ n ≤ 0xdfff then .error ⟨.loneSurrogate, rest⟩
    else if n < 0xd800 ∨ 0xdbff < n then .ok (Char.ofNat n, rest)
    else
      match readPairMark rest with
      | .error h => .error h
      | .ok rest =>
        match readHex4 rest with
        | .error h => .error h
        | .ok (low, rest) =>
          if low < 0xdc00 ∨ 0xdfff < low then .error ⟨.loneSurrogate, rest⟩
          else .ok (surrogatePair n low, rest)

/-- The character that a letter behind a backslash stands for. -/
def escapeOf? (b : UInt8) : Option Char :=
  if b = 0x22 then some '"'
  else if b = 0x5c then some '\\'
  else if b = 0x2f then some '/'
  else if b = 0x62 then some (Char.ofNat 8)
  else if b = 0x66 then some (Char.ofNat 12)
  else if b = 0x6e then some (Char.ofNat 10)
  else if b = 0x72 then some (Char.ofNat 13)
  else if b = 0x74 then some (Char.ofNat 9)
  else none

/-- The character of an escape whose backslash has been read. -/
def readEscape (bytes : Bytes) : Reading Char :=
  match bytes with
  | [] => .error ⟨.eofInString, []⟩
  | b :: rest =>
    if b = 0x75 then readNumbered rest
    else
      match escapeOf? b with
      | some c => .ok (c, rest)
      | none => .error ⟨.invalidEscape, rest⟩

/-- The bytes of a string up to its closing quote, which is still there in the rest. `found`
holds what was read, the last byte first. The recursion is on `bound`, which is at least as long
as the bytes. -/
def readStringBytes : (bound found : Bytes) → Bytes → Reading Bytes
  | _, _, [] | [], _, _ => .error ⟨.eofInString, []⟩
  | _ :: bound, found, b :: rest =>
    if b = 0x22 then .ok (found.reverse, b :: rest)
    else if b = 0x5c then
      match readEscape rest with
      | .error h => .error h
      | .ok (c, rest) => readStringBytes bound ((String.utf8EncodeChar c).reverse ++ found) rest
    else if b < 0x20 then .error ⟨.controlInString, rest⟩
    else readStringBytes bound (b :: found) rest

/-- What was unread `n` bytes earlier, when of `bytes` only `rest` is left. -/
def backBy (n : Nat) (bytes rest : Bytes) : Bytes :=
  bytes.drop (bytes.length - rest.length - n)

/-- Read a string whose opening quote has been read. -/
def readText (bytes : Bytes) : Reading String :=
  match readStringBytes bytes [] bytes with
  | .error h => .error h
  | .ok (found, quote) =>
    let rest := quote.tail
    match Utf8.decode found with
    | some cs => .ok (String.ofList cs, rest)
    | none =>
      .error ⟨.invalidCodePoint, backBy (found.length - Utf8.soundLength found) bytes rest⟩

end WorkerBroker
