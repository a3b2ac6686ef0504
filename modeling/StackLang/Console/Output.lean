import StackLang.Console.LineSource

namespace StackLang.Console

inductive Output where
  /-- A prompt: the next line of the standard input is wanted. -/
  | prompt (p : Prompt)
  | out (text : String)
  | err (text : String)

namespace Output

def stdout : Output → String
  | .prompt p => p.text
  | .out text => text
  | .err _ => ""

def stderr : Output → String
  | .err text => text
  | _ => ""

def ofNotice : Notice → Output
  | .prompt p => .prompt p
  | .farewell => .out Notice.farewell.text

/-- What is written up to and with the prompt that comes after `n` others, if there is one. -/
def throughPrompt (n : Nat) : List Output → Option (List Output)
  | [] => none
  | .prompt p :: os =>
    match n with
    | 0 => some [.prompt p]
    | n + 1 => (throughPrompt n os).map (.prompt p :: ·)
  | o :: os => (throughPrompt n os).map (o :: ·)

end Output

inductive Exit where
  | status (code : Nat)
  | message (text : String)

structure Outcome where
  outputs : List Output
  exit : Exit

namespace Outcome

def stdout (o : Outcome) : String := String.join (o.outputs.map Output.stdout)

def stderr (o : Outcome) : String := String.join (o.outputs.map Output.stderr)

end Outcome
end StackLang.Console
