import StackLang.Console

namespace StackLang.Console

def Output.write (o : Output) : IO Unit := do
  match o with
  | .err text => (← IO.getStderr).putStr text
  | _ =>
    let stdout ← IO.getStdout
    stdout.putStr o.stdout
    stdout.flush

partial def readAll (input : IO.FS.Stream) (text : String) : IO String := do
  let line ← input.getLine
  if line.isEmpty then return text else readAll input (text ++ line)

/-- Runs the loop on the lines so far, shows what is new up to the prompt for a further line, and
goes on when there is one. What comes before a prompt does not depend on later lines. -/
partial def converseLive (session : Session) (text : String) (shown : Nat) : IO Unit := do
  let outputs := (interact session text.toList).1
  let lineCount := (Text.lines (Text.unifyNewlines text.toList)).length
  match Output.throughPrompt lineCount outputs with
  | none => (outputs.drop shown).forM Output.write
  | some before =>
    (before.drop shown).forM Output.write
    let line ← (← IO.getStdin).getLine
    if line.isEmpty then (outputs.drop before.length).forM Output.write
    else converseLive session (text ++ line) before.length

end StackLang.Console

open StackLang Console in
def main (arguments : List String) : IO UInt32 := do
  let program := (← IO.appPath).toString
  let (options, rest) := Options.none.parse arguments
  match Mode.ofArguments rest with
  | .interactive =>
    converseLive (.start options.withPrelude options.traced) "" 0
    return 0
  | mode =>
    let stdin ← match mode with
      | .file "-" => readAll (← IO.getStdin) ""
      | _ => pure ""
    let contents ← match mode with
      | .file "-" => pure ""
      | .file name => IO.FS.readFile name
      | _ => pure ""
    match run program arguments stdin fun _ => .ok contents with
    | .error _ => return 1
    | .ok outcome =>
      outcome.outputs.forM Output.write
      match outcome.exit with
      | .status code => return code.toUInt32
      | .message text =>
        (← IO.getStderr).putStr (text ++ "\n")
        return 1
