import StackLang.Main
import StackLang.Reader.Component
import StackLang.Request.Field
import StackLang.Proofs.Stack.Operations
import StackLang.Proofs.Stack.Alike
import StackLang.Proofs.Stack.Division
import StackLang.Proofs.Machine.Perform
import StackLang.Proofs.Machine.Recursion
import StackLang.Proofs.Machine.Record
import StackLang.Proofs.Machine.Resources
import StackLang.Proofs.Machine.Frame
import StackLang.Proofs.Machine.Inlining
import StackLang.Proofs.Stack.Operands
import StackLang.Proofs.Program.Outcome
import StackLang.Proofs.Program.Arguments
import StackLang.Proofs.Reader.Atom
import StackLang.Proofs.Reader.Grammar
import StackLang.Proofs.Reader.Acceptance
import StackLang.Proofs.Reader.Layout
import StackLang.Proofs.Reader.Place
import StackLang.Proofs.Reader.LineEnd
import StackLang.Proofs.Reader.Lines
import StackLang.Proofs.Reader.Lookahead
import StackLang.Proofs.Reader.Fetching
import StackLang.Proofs.Reader.Fault
import StackLang.Proofs.Reader.Comment
import StackLang.Proofs.Reader.Remainder
import StackLang.Proofs.Decimal.Rounding
import StackLang.Proofs.Decimal.Shortest
import StackLang.Proofs.Decimal.Notation
import StackLang.Proofs.Reader.Float
import StackLang.Proofs.Buffered.Place
import StackLang.Proofs.Buffered.Recognizers
import StackLang.Proofs.Buffered.Choice
import StackLang.Proofs.Buffered.Nesting
import StackLang.Proofs.Buffered.Loading
import StackLang.Proofs.Buffered.Calls
import StackLang.Proofs.Command.Source
import StackLang.Proofs.Request.Classification
import StackLang.Proofs.Session.Service
import StackLang.Proofs.Session.History
import StackLang.Proofs.Session.Notes
import StackLang.Proofs.Session.Arithmetic
import StackLang.Proofs.Untyped.Machine
import StackLang.Proofs.Untyped.Service
import StackLang.Proofs.Untyped.Reading
import StackLang.Proofs.Untyped.Lockstep
import StackLang.Proofs.Session.Safety
import StackLang.Proofs.Session.Definition
import StackLang.Proofs.Session.Record
import StackLang.Proofs.Console.Prompting
import StackLang.Proofs.Console.Delivery
import StackLang.Proofs.Console.Reading
import StackLang.Proofs.Console.Modes
import StackLang.Proofs.Console.Tracing
import StackLang.Proofs.Console.Unfinished
