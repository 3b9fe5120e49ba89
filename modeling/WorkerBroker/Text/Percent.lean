import WorkerBroker.Text.Hex
/-!
# Percent encoding

`percentDecode` puts the byte for `%` with two hexadecimal digits, and keeps everything else, a
`%` without two such digits included.
-/

namespace WorkerBroker

/-- Decode the percent signs of a sequence of bytes. -/
def percentDecode : Bytes → Bytes
  | [] => []
  | 0x25 :: high :: low :: rest =>
    match hexByte? high low with
    | some b => b :: percentDecode rest
    | none => 0x25 :: percentDecode (high :: low :: rest)
  | b :: rest => b :: percentDecode rest

end WorkerBroker
