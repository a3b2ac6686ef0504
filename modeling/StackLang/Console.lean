import StackLang.Console.Arguments
import StackLang.Console.Dialogue

namespace StackLang.Console

inductive FileError where
  | notFound
  | isDirectory
deriving DecidableEq, Repr

/-- A whole run. The file name `-` stands for the standard input. -/
def run (program : String) (arguments : List String) (stdin : String)
    (contents : String → Except FileError String) : Except FileError Outcome :=
  let (options, rest) := Options.none.parse arguments
  let session := Session.start options.withPrelude options.traced
  match Mode.ofArguments rest with
  | .interactive => .ok ⟨(interact session stdin.toList).1, .status 0⟩
  | .file name =>
    if name = "-" then .ok (runText session stdin.toList).1
    else (contents name).map fun text => (runText session text.toList).1
  | .usage => .ok ⟨[.out (usage program)], .status 2⟩

end StackLang.Console
