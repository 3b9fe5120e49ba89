import WorkerBroker.Broker.Link
import WorkerBroker.Host
/-!
# One connection, step by step

The two ends of one connection between programs of a host: commands are written on the near end
and received whole on the far end, bytes are written on the far end and read as replies on the
near end. On a host where no connection gets through there are no such ends.
-/

namespace WorkerBroker

/-- A step on one of the ends. -/
inductive PipeStep where
  /-- a command is written on the near end and received on the far end -/
  | command (line : String)
  /-- one reply is read on the near end -/
  | read
  /-- the far end is closed -/
  | close
  /-- the far end resets the connection -/
  | reset
  /-- bytes are written on the far end -/
  | write (bytes : Bytes)
  deriving DecidableEq, Repr

/-- What a step comes to. -/
inductive PipeReport where
  /-- whether the command could be written, and what was received of it -/
  | delivered (written : Bool) (text : String)
  | received (what : Received)
  | closed
  | written
  deriving DecidableEq, Repr

namespace PipeStep

/-- Take a step. -/
def take (l : Link) : PipeStep → PipeReport × Link
  | command line =>
    if l.isWritable then (.delivered true (if l.inbox.ending = .stillOpen then line else ""), l)
    else (.delivered false "", l)
  | read =>
    let (what, inbox) := l.inbox.readReply
    (.received what, { l with inbox })
  | close => (.closed, l.arrive .ended)
  | reset => (.closed, l.arrive .reset)
  | write bytes => (.written, l.arrive (.bytes bytes))

/-- Take steps one after the other. -/
def takeAll : Link → List PipeStep → List PipeReport
  | _, [] => []
  | l, s :: steps =>
    let (report, l) := s.take l
    report :: takeAll l steps

/-- Take steps on a fresh connection, if there can be one. -/
def play (host : Host) (steps : List PipeStep) : Option (List PipeReport) :=
  if host.connects then some (takeAll .fresh steps) else none

end PipeStep

end WorkerBroker
