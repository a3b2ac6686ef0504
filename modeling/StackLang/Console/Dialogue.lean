import StackLang.Console.Output
import StackLang.Reader.Buffered
import StackLang.Session

namespace StackLang.Console
open Buffered (Reader Failure nextForm)

/-- The answer to a form with its trace before it, and the session without that trace. -/
def answer (s : Session) (f : Form) : List Output × Session :=
  let (response, s) := s.respond f
  let traced := s.trace.events.toList.map (.err ·.line)
  (traced ++ response.toList.map (.out <| · ++ "\n"), { s with trace := .start s.trace.enabled })

section
variable {σ : Type} [CharSource σ] (start : σ → σ) (written : σ → List Output)

/-- Answers the forms of a source one by one, each before any more of the source is read. The source
is told when a form starts, and what it has written to get it comes before the answer. The failure,
if there is one, is why reading has stopped before the end. -/
def answerForms (s : Session) (r : Reader σ) : List Output × Option Failure × Session :=
  match nextForm { r with source := start r.source } with
  | .ok none t => (written t.source, none, s)
  | .ok (some f) t =>
    let (now, s) := answer s f
    if _h : t.unread < r.unread then
      let (later, failure?, s) := answerForms s t
      (written t.source ++ now ++ later, failure?, s)
    else (written t.source ++ now, some .standstill, s)
  | .error e t => (written t.source, some e, s)
termination_by r.unread
decreasing_by exact _h

end

/-- Runs a text, which is read character by character. The forms before a fault are answered, and
the fault is the exit message. -/
def runText (s : Session) (text : List Char) : Outcome × Session :=
  let (outputs, failure?, s) := answerForms id (fun _ => []) s (.fresh (Text.unifyNewlines text))
  let error? := failure?.bind Failure.syntaxError?
  (⟨outputs, error?.elim (.status 0) (.message ·.message)⟩, s)

def banner : String := "Welcome to the Postfix interpreter!\n"

/-- The interactive loop. A fault in the text ends it. -/
def interact (s : Session) (stdin : List Char) : List Output × Session :=
  let terminal := Terminal.ofText (Text.unifyNewlines stdin)
  let (outputs, failure?, s) :=
    answerForms Terminal.startForm (·.written.map .ofNotice) s (.fresh terminal)
  let error? := failure?.bind Failure.syntaxError?
  (.out banner :: outputs ++ error?.toList.map (.err <| ·.message ++ "\n"), s)

end StackLang.Console
