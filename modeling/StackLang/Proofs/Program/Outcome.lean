import StackLang.Program.Apply
import StackLang.Proofs.Machine.Recursion

/-- What an action yields, apart from the state that it leaves. -/
def EStateM.Result.value {ε σ α : Type} : EStateM.Result ε σ α → Except ε α
  | .ok a _ => .ok a
  | .error e _ => .error e

theorem EStateM.Result.value_eq_ok {ε σ α : Type} {r : EStateM.Result ε σ α} {a : α} :
    r.value = .ok a ↔ ∃ s, r = .ok a s := by
  cases r <;> simp [value]

namespace StackLang

def StackRun.result : StackRun → Except EvaluationError Int
  | .ok _ s => s.result
  | .error e _ => .error e

theorem StackRun.result_eq_ok {r : StackRun} {n : Int} :
    r.result = .ok n ↔ ∃ s, r = .ok () (.int n :: s) := by
  rcases r with ⟨_, _ | ⟨m | body, s⟩⟩ | ⟨e, s⟩ <;> simp [result, Stack.result]

/-- The stack at the end of a run owes nothing to the notes taken before. -/
theorem Machine.onStack_evaluate (s : Stack) (code : List Command) (trace trace' : Trace) :
    (evaluate ⟨s, trace⟩ code).onStack = (evaluate ⟨s, trace'⟩ code).onStack :=
  onStack_of_folds (folds_evaluate ⟨s, trace'⟩ code) trace

namespace Program

theorem value_apply (p : Program) (style : ArgumentStyle) (arguments : List Int) (trace : Trace) :
    (p.apply style arguments trace).value =
      if arguments.length = p.arity then
        (Machine.evaluate ⟨arguments.map .int, trace⟩ p.body).onStack.result.mapError .evaluation
      else .error (.request (.wrongNumberOfArgs p.arity arguments.length)) := by
  unfold apply
  split
  · cases Machine.evaluate ⟨arguments.map .int, trace⟩ p.body with
    | error e m => rfl
    | ok _ m =>
      change _ = m.stack.result.mapError Error.evaluation
      dsimp only
      cases m.stack.result <;> rfl
  · rfl

/-- The result of a call, or why there is none. -/
def outcome (p : Program) (arguments : List Int) : Except Error Int :=
  (p.apply .tuple arguments .off).value

theorem value_apply_eq_outcome (p : Program) (style : ArgumentStyle) (arguments : List Int)
    (trace : Trace) : (p.apply style arguments trace).value = p.outcome arguments := by
  rw [outcome, value_apply, value_apply, Machine.onStack_evaluate _ _ trace .off]

theorem outcome_eq_ok {p : Program} {arguments : List Int} {n : Int} (trace : Trace) :
    p.outcome arguments = .ok n ↔ arguments.length = p.arity ∧ ∃ s,
      (Machine.evaluate ⟨arguments.map .int, trace⟩ p.body).onStack = .ok () (.int n :: s) := by
  rw [← value_apply_eq_outcome p .tuple arguments trace, value_apply, ← StackRun.result_eq_ok]
  split
  · next hl =>
    generalize StackRun.result _ = r
    cases r <;> simp [Except.mapError, hl]
  · next hl => simp [hl]

end Program
end StackLang
