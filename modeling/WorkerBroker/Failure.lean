import WorkerBroker.Json.Value
/-!
# Failures

Why a call did not succeed, in three groups. A request can be refused before anything is sent
(a missing or invalid key, an unknown worker, a command the worker does not know); a worker can
answer that it refuses the command; and a worker may not answer at all, after which it is
presumed dead. `Failure.message` is the text of a failure, `Failure.status` the HTTP status it
is reported with.
-/

namespace WorkerBroker

/-- Why a call failed. -/
inductive Failure where
  /-- no reply came from a worker, given by its label -/
  | noReply (worker command reason : String)
  /-- the worker answered with an error; `reply` is the whole answer -/
  | rejected (detail : String) (reply : Json)
  /-- a key of the request is missing -/
  | keyRequired (key : String)
  /-- the value under a key of the request is not admitted -/
  | keyInvalid (key value : String)
  /-- nothing is registered under that name -/
  | notFound (what : String)
  /-- a worker, given by its label, does not know the command -/
  | unsupported (worker command : String)
  /-- the CPU layout cannot be read -/
  | layoutUnavailable (detail : String)
  /-- the operating system refused something -/
  | system (detail : String)
  /-- the settings cannot be run with -/
  | settings (detail : String)
  /-- anything else -/
  | other (text : String)
  deriving Inhabited

namespace Failure

/-- The text of a failure. -/
def message : Failure → String
  | noReply worker command reason => worker ++ ": " ++ command ++ ": no reply (" ++ reason ++ ")"
  | rejected detail _ => "command error: " ++ detail
  | keyRequired key => "key(" ++ key ++ ") required."
  | keyInvalid key value => "invalid key(" ++ key ++ "): " ++ value ++ "."
  | notFound what => what ++ " not found."
  | unsupported worker command => worker ++ " does not accept command: " ++ command
  | layoutUnavailable detail => "CPU layout unavailable: " ++ detail
  | system detail => "IO error: " ++ detail
  | settings detail => "Configuration error: " ++ detail
  | other text => text

/-- The HTTP status: 400 for a request that was refused, 404 for an unknown worker, 500 for a
worker that did not answer and for what went wrong inside. -/
def status : Failure → Nat
  | keyRequired _ | keyInvalid _ _ | rejected _ _ => 400
  | notFound _ => 404
  | _ => 500

/-- Whether the worker is presumed dead. -/
def isTransport : Failure → Bool
  | noReply _ _ _ => true
  | _ => false

end Failure

end WorkerBroker
