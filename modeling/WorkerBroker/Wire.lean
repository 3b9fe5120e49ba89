import WorkerBroker.Text.Utf8
/-!
# Framing

A connection delivers bytes without any mark between replies. The receiving end is a byte queue
with what will happen once it is empty (`Ending`). `readReply` takes a chunk of up to 4096 bytes;
a full chunk is followed by more chunks until one is not full or nothing is there.

`readReply` waits as long as nothing has arrived, so it answers `blocked` there, and a reset
that is met between two chunks discards what was read before it.
-/

namespace WorkerBroker

/-- What the peer did with its sending side. -/
inductive Ending where
  /-- it may still send -/
  | stillOpen
  /-- it has ended the stream -/
  | ended
  /-- it has reset the connection; the next read that finds no byte fails -/
  | reset
  deriving DecidableEq, Repr, Inhabited

/-- The receiving end of a connection. -/
structure Inbox where
  /-- bytes that have arrived and have not been read -/
  queue : Bytes
  ending : Ending
  deriving DecidableEq, Repr, Inhabited

/-- How many bytes one read takes at most. -/
def chunkSize : Nat := 4096

/-- What reading a reply comes to. -/
inductive Received where
  | reply (bytes : Bytes)
  /-- the peer has ended the stream -/
  | eof
  /-- the peer has reset the connection -/
  | reset
  /-- nothing has arrived -/
  | blocked
  deriving DecidableEq, Repr

namespace Inbox

/-- A fresh connection. -/
def empty : Inbox := ⟨[], .stillOpen⟩

/-- Bytes arrive. -/
def arrive (bytes : Bytes) (i : Inbox) : Inbox :=
  { i with queue := i.queue ++ bytes }

/-- What a read finds when the queue is empty. Only the first read after a reset fails. -/
def atEmpty (i : Inbox) : Received × Inbox :=
  match i.ending with
  | .stillOpen => (.blocked, i)
  | .ended => (.eof, i)
  | .reset => (.reset, { i with ending := .ended })

/-- Take chunks until one is not full. `taken` was read before, the last byte first. -/
def drain : (fuel : Nat) → (taken : Bytes) → Inbox → Received × Inbox
  | 0, taken, i => (.reply taken.reverse, i)
  | fuel + 1, taken, i =>
    match i.queue with
    | [] =>
      match i.atEmpty with
      | (.reset, i) => (.reset, i)
      | (_, i) => (.reply taken.reverse, i)
    | _ :: _ =>
      let chunk := i.queue.take chunkSize
      let i := { i with queue := i.queue.drop chunkSize }
      if chunk.length = chunkSize then drain fuel (chunk.reverse ++ taken) i
      else (.reply (chunk.reverse ++ taken).reverse, i)

/-- Read one reply. -/
def readReply (i : Inbox) : Received × Inbox :=
  match i.queue with
  | [] => i.atEmpty
  | _ :: _ => drain (i.queue.length + 1) [] i

end Inbox

end WorkerBroker
