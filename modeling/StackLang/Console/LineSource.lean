import StackLang.Reader.Source
import StackLang.Text.Newline

namespace StackLang

inductive Prompt where
  | primary
  | continuation
deriving DecidableEq, Repr

def Prompt.text : Prompt → String
  | .primary => "postfix> "
  | .continuation => "> "

inductive Notice where
  | prompt (p : Prompt)
  /-- The line end written when there are no more lines. -/
  | farewell
deriving DecidableEq, Repr

def Notice.text : Notice → String
  | .prompt p => p.text
  | .farewell => "\n"

/-- Characters fetched line by line behind a prompt, which is the primary one for the first line
after the start of a form. -/
structure LineSource where
  /-- Lines not fetched yet. -/
  lines : List (List Char)
  /-- What is left of the line fetched last. -/
  pending : List Char
  prompt : Prompt
  ended : Bool

namespace LineSource

def ofText (cs : List Char) : LineSource := ⟨Text.lines cs, [], .primary, false⟩

def startForm (s : LineSource) : LineSource := { s with prompt := .primary }

/-- The next character, `none` for the end, with what had to be written to get it. Every line ends
with a line feed, the last one too. -/
def next (s : LineSource) : Option Char × List Notice × LineSource :=
  match s.pending with
  | c :: pending => (some c, [], { s with pending })
  | [] =>
    if s.ended then (none, [], s)
    else
      match s.lines with
      | [] => (none, [.prompt s.prompt, .farewell], { s with ended := true })
      | line :: lines =>
        let row := line ++ ['\n']
        (row.head?, [.prompt s.prompt],
          { s with lines, pending := row.tail, prompt := .continuation })

def delivered (s : LineSource) : List Char :=
  s.pending ++ if s.ended then [] else s.lines.flatMap (· ++ ['\n'])

theorem next_delivered (s : LineSource) :
    s.next.1 = s.delivered.head? ∧ s.next.2.2.delivered = s.delivered.tail := by
  rcases s with ⟨lines, _ | ⟨c, pending⟩, prompt, _ | _⟩
  · rcases lines with _ | ⟨_ | ⟨c, line⟩, lines⟩ <;> exact ⟨rfl, rfl⟩
  · exact ⟨rfl, rfl⟩
  · exact ⟨rfl, rfl⟩
  · exact ⟨rfl, rfl⟩

end LineSource

/-- A line source with what it has written since the start of a form. -/
structure Terminal where
  lines : LineSource
  written : List Notice

namespace Terminal

def ofText (cs : List Char) : Terminal := ⟨.ofText cs, []⟩

def startForm (t : Terminal) : Terminal := ⟨t.lines.startForm, []⟩

def next (t : Terminal) : Option Char × Terminal :=
  let (c, notices, lines) := t.lines.next
  (c, ⟨lines, t.written ++ notices⟩)

instance : CharSource Terminal where
  next := next
  remaining t := t.lines.delivered
  next_fst t := t.lines.next_delivered.1
  remaining_next t := t.lines.next_delivered.2

end Terminal
end StackLang
