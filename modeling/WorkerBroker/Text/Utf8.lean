/-!
# UTF-8

Bytes are lists of `UInt8`. `Utf8.encode` writes a text; `Utf8.take` reads one character off a
sequence of bytes, or says how many bytes form the malformed piece in front: the longest start
of a well-formed character, at least one byte. `Utf8.decodeLossy` puts one U+FFFD for each
malformed piece, `Utf8.decode` refuses a sequence that has one, and `Utf8.soundLength` says how
far the sequence goes before the first.
-/

namespace WorkerBroker

/-- A sequence of bytes. -/
abbrev Bytes := List UInt8

namespace Utf8

/-- The bytes of a text. -/
def encode (s : String) : Bytes :=
  s.toList.flatMap String.utf8EncodeChar

/-- A byte that continues a character. -/
def isContinuation (b : UInt8) : Bool :=
  0x80 ≤ b && b ≤ 0xbf

/-- The bytes that may follow a lead byte of three bytes: no overlong form, no surrogate. -/
def secondOfThree (lead b : UInt8) : Bool :=
  if lead == 0xe0 then 0xa0 ≤ b && b ≤ 0xbf
  else if lead == 0xed then 0x80 ≤ b && b ≤ 0x9f
  else isContinuation b

/-- The bytes that may follow a lead byte of four bytes: no overlong form, at most U+10FFFF. -/
def secondOfFour (lead b : UInt8) : Bool :=
  if lead == 0xf0 then 0x90 ≤ b && b ≤ 0xbf
  else if lead == 0xf4 then 0x80 ≤ b && b ≤ 0x8f
  else isContinuation b

/-- The low six bits of a continuation byte. -/
def payload (b : UInt8) : Nat :=
  b.toNat % 64

/-- What stands at the front of a sequence of bytes. -/
inductive Piece where
  /-- a character and the bytes after it -/
  | char (c : Char) (rest : Bytes)
  /-- a malformed piece and the bytes after it -/
  | malformed (rest : Bytes)
  deriving Repr

/-- The bytes after the piece. -/
def Piece.rest : Piece → Bytes
  | .char _ rest | .malformed rest => rest

/-- The character of the piece, U+FFFD for a malformed one. -/
def Piece.replaced : Piece → Char
  | .char c _ => c
  | .malformed _ => Char.ofNat 0xfffd

/-- Read the piece that starts with `lead`. -/
def take (lead : UInt8) (rest : Bytes) : Piece :=
  if lead < 0x80 then .char (Char.ofNat lead.toNat) rest
  else if 0xc2 ≤ lead && lead ≤ 0xdf then
    match rest with
    | b :: tail =>
      if isContinuation b then
        .char (Char.ofNat ((lead.toNat - 0xc0) * 64 + payload b)) tail
      else .malformed rest
    | [] => .malformed []
  else if 0xe0 ≤ lead && lead ≤ 0xef then
    match rest with
    | b :: tail =>
      if !secondOfThree lead b then .malformed rest
      else
        match tail with
        | c :: tail' =>
          if isContinuation c then
            .char (Char.ofNat (((lead.toNat - 0xe0) * 64 + payload b) * 64 + payload c)) tail'
          else .malformed tail
        | [] => .malformed []
    | [] => .malformed []
  else if 0xf0 ≤ lead && lead ≤ 0xf4 then
    match rest with
    | b :: tail =>
      if !secondOfFour lead b then .malformed rest
      else
        match tail with
        | c :: tail' =>
          if !isContinuation c then .malformed tail
          else
            match tail' with
            | d :: tail'' =>
              if isContinuation d then
                .char (Char.ofNat ((((lead.toNat - 0xf0) * 64 + payload b) * 64 + payload c) * 64
                  + payload d)) tail''
              else .malformed tail'
            | [] => .malformed []
        | [] => .malformed []
    | [] => .malformed []
  else .malformed rest

/-- A piece has at least one byte. -/
theorem take_rest_le (lead : UInt8) (rest : Bytes) : (take lead rest).rest.length ≤ rest.length := by
  unfold take
  repeat' split
  all_goals simp only [Piece.rest, List.length_cons, List.length_nil]; try omega

/-- The pieces of a sequence of bytes, from the front. -/
def pieces (bytes : Bytes) : List Piece :=
  go bytes []
where
  /-- The pieces found so far are in `found`, the last one first. -/
  go (bytes : Bytes) (found : List Piece) : List Piece :=
    match bytes with
    | [] => found.reverse
    | b :: rest => go (take b rest).rest (take b rest :: found)
  termination_by bytes.length
  decreasing_by
    have := take_rest_le b rest
    simp only [List.length_cons]
    omega

/-- Read a text, with U+FFFD in place of each malformed piece. -/
def decodeLossy (bytes : Bytes) : List Char :=
  (pieces bytes).map Piece.replaced

/-- The character of a piece that has one. -/
def Piece.char? : Piece → Option Char
  | .char c _ => some c
  | .malformed _ => none

/-- Read a text; `none` when some piece is malformed. -/
def decode (bytes : Bytes) : Option (List Char) :=
  (pieces bytes).mapM Piece.char?

/-- How many bytes stand before the first malformed piece. -/
def soundLength (bytes : Bytes) : Nat :=
  (((pieces bytes).map Piece.char?).takeWhile Option.isSome).foldl
    (fun n c? => n + c?.elim 0 Char.utf8Size) 0

end Utf8

end WorkerBroker
