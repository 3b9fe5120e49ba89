import WorkerBroker.Json.Printer
import WorkerBroker.Json.Reader
import WorkerBroker.Worker
/-!
# Replies of workers

A reply is text, maybe padded with NUL characters, which are dropped. A reply that is JSON is
taken as that value, any other as a string with its text. A worker reports that it refused a
command by a member `result` with the string `error`, either in the first entry of `results` or,
if that entry has no `result`, in the reply itself.

`identify?` reads who a secondary says it is: an object with the two members `process_type` and
`client_id`, or an array of the two.
-/

namespace WorkerBroker

/-! ## Decoding -/

/-- The text of a reply, malformed pieces replaced and NULs dropped. -/
def replyText (raw : Bytes) : String :=
  String.ofList ((Utf8.decodeLossy raw).filter fun c => c.toNat ≠ 0)

/-- The part of a reply that reports how the command went. -/
def resultPart (reply : Json) : Json :=
  match reply.at? ["results", "0"] with
  | some first => if (first.member? "result").isSome then first else reply
  | none => reply

/-- What the worker says about an error, if it reports one. -/
def reportedError (reply : Json) : Option String :=
  let part := resultPart reply
  if (part.member? "result").bind Json.asString? = some "error" then
    some (((part.at? ["error_details", "message"]).bind Json.asString?).getD "unknown error")
  else none

/-- A reply as a value, or the error it reports. -/
def judgeReply (reply : Json) : Except Failure Json :=
  match reportedError reply with
  | some detail => .error (.rejected detail reply)
  | none => .ok reply

/-- The value of a reply, or the error it reports. -/
def decodeReply (raw : Bytes) : Except Failure Json :=
  let text := replyText raw
  match Json.read (Utf8.encode text) with
  | .error _ => .ok (.string text)
  | .ok reply => judgeReply reply

/-! ## Identification -/

/-- The name of a kind and the id that a reply declares. -/
def declared? : Json → Option (String × UInt32)
  | .object members => do
    let kind ← (Table.find? "process_type" members).bind Json.asString?
    let id ← (Table.find? "client_id" members).bind Json.asU32?
    return (kind, id)
  | .array [kind, id] => do
    let kind ← kind.asString?
    let id ← id.asU32?
    return (kind, id)
  | _ => none

/-- The id that a reply declares, if it declares this kind. -/
def declaredAs? (kind : WorkerKind) (reply : Json) : Option UInt32 :=
  (declared? reply).bind fun (name, id) => if name = kind.name then some id else none

/-- The kinds a secondary can have, in the order in which they are tried. -/
def identifyOrder : List WorkerKind := [.vf, .nfv, .mirror, .pcap]

/-- The kind and the id of a secondary by its reply. -/
def identify? (reply : Json) : Option (WorkerKind × UInt32) :=
  identifyOrder.findSome? fun kind => (declaredAs? kind reply).map fun id => (kind, id)

/-- Who a secondary is, from the raw reply: one of the kinds of secondaries with an id that is
not the primary's. -/
def identityOf (raw : Bytes) : Except Failure (WorkerKind × UInt32) :=
  match decodeReply raw with
  | .error e => .error e
  | .ok reply =>
    match identify? reply with
    | some (kind, id) =>
      if id = primaryId then .error (.keyInvalid "client_id" (decimal id.toNat)) else .ok (kind, id)
    | none => .error (.other ("unknown process: " ++ reply.text))

end WorkerBroker
