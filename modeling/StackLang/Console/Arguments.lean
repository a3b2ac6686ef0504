namespace StackLang.Console

structure Options where
  traced : Bool
  withPrelude : Bool

def Options.none : Options := ⟨false, false⟩

/-- The options at the front of the arguments, in any order, and the arguments after them. -/
def Options.parse (o : Options) : List String → Options × List String
  | [] => (o, [])
  | arg :: args =>
    if arg = "--debug" then Options.parse { o with traced := true } args
    else if arg = "--prelude" then Options.parse { o with withPrelude := true } args
    else (o, arg :: args)

inductive Mode where
  | interactive
  | file (name : String)
  | usage

def Mode.ofArguments : List String → Mode
  | [] | ["run"] => .interactive
  | ["run", name] => .file name
  | _ => .usage

def usage (program : String) : String :=
  "Usage: " ++ program ++ " [--debug] [--prelude] [run [filename]]\n"

end StackLang.Console
