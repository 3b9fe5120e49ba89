import WorkerBroker.Scenario.Step
import WorkerBroker.Startup
/-!
# The program

The settings come from the command line. Requests are read from standard input, one a line: a
method, a target, and maybe a body, with single spaces between them. The answer is the status and
the body. No sockets are opened, so no worker can connect. The end of the input ends the program.
-/

namespace WorkerBroker

namespace Main

/-- What is printed when help is asked for. -/
def usage : String :=
  "Usage: [OPTIONS]\n\nOptions:\n" ++ String.join (Flag.all.map fun f =>
    "  " ++ (f.short.map fun c => "-" ++ c.toString ++ ", ").getD "    " ++ "--" ++ f.long ++
      (if f.takesValue then " <VALUE>" else "") ++ "\n")

/-- A request from a line of input. -/
def requestOf (line : String) : Request :=
  match line.trimAsciiEnd.toString.splitOn " " with
  | method :: target :: body =>
    ⟨.ofName method, .ofText target, Utf8.encode (" ".intercalate body)⟩
  | [method] => ⟨.ofName method, .ofText "/", []⟩
  | [] => ⟨.get, .ofText "/", []⟩

/-- The answer to a request, as it is printed. -/
def answerText (report : Report) : String :=
  match report with
  | .response r => decimal r.status ++ " " ++ r.body
  | _ => ""

/-- Answer requests until the input ends. -/
partial def serve (input output : IO.FS.Stream) (w : World) : IO Unit := do
  let line ← input.getLine
  if line.isEmpty then return
  let ((report, _), w) := w.stepOn (.request (requestOf line))
  output.putStrLn (answerText report)
  output.flush
  serve input output w

/-- Start with these arguments; answers the exit code. -/
def run (arguments : List String) : IO UInt32 := do
  let startup := Startup.ofArguments .ordinary arguments
  match startup with
  | .help => IO.println usage
  | .misuse => IO.eprintln usage
  | .failed e => IO.eprintln ("Error: " ++ e.message)
  | .serving s => serve (← IO.getStdin) (← IO.getStdout) (.start .isolated s.timeout (.ok []))
  return UInt32.ofNat startup.exitCode

end Main

end WorkerBroker

/-- The program. -/
def main (arguments : List String) : IO UInt32 :=
  WorkerBroker.Main.run arguments
