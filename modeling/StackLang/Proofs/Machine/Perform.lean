import StackLang.Machine
import StackLang.Proofs.Stack.Operations

namespace StackLang

/-- Carries out one command and tells which pieces of code are to run next: the block for `exec`,
otherwise none. -/
def Command.perform : Command → StackM (List (List Command))
  | .int n => fun s => .ok [] (.int n :: s)
  | .block body => fun s => .ok [] (.block body :: s)
  | .builtin .exec => fun s =>
    match Stack.popBlock s with
    | .ok body t => .ok [body] t
    | .error e t => .error e t
  | .builtin (.primitive p) => fun s =>
    match p.apply s with
    | .ok _ t => .ok [] t
    | .error e t => .error e t

namespace Command

theorem perform_toCommand (v : Value) (s : Stack) : v.toCommand.perform s = .ok [] (v :: s) := by
  cases v <;> rfl

theorem perform_exec (s : Stack) : perform (.builtin .exec) s = match Stack.popBlock s with
    | .ok body t => .ok [body] t
    | .error e t => .error e t := rfl

theorem perform_primitive (p : Primitive) (s : Stack) :
    perform (.builtin (.primitive p)) s = match p.apply s with
    | .ok _ t => .ok [] t
    | .error e t => .error e t := rfl

section

variable {s t : Stack} {e : EvaluationError}

theorem perform_of_popBlock {body : List Command} (h : Stack.popBlock s = .ok body t) :
    perform (.builtin .exec) s = .ok [body] t := by
  rw [perform_exec, h]

theorem perform_of_popBlock_error (h : Stack.popBlock s = .error e t) :
    perform (.builtin .exec) s = .error e t := by
  rw [perform_exec, h]

theorem perform_of_apply {p : Primitive} (h : p.apply s = .ok () t) :
    perform (.builtin (.primitive p)) s = .ok [] t := by
  rw [perform_primitive, h]

theorem perform_of_apply_error {p : Primitive} (h : p.apply s = .error e t) :
    perform (.builtin (.primitive p)) s = .error e t := by
  rw [perform_primitive, h]

end

/-- All that a command can do: push a value, take a block to be run off the stack, or change the
stack as a primitive does. -/
theorem perform_eq_ok {c : Command} {s t : Stack} {calls : List (List Command)}
    (h : c.perform s = .ok calls t) :
    (∃ v : Value, c = v.toCommand ∧ calls = [] ∧ t = v :: s) ∨
    (∃ body, c = .builtin .exec ∧ calls = [body] ∧ s = .block body :: t) ∨
    (∃ p, c = .builtin (.primitive p) ∧ calls = [] ∧ p.apply s = .ok () t) := by
  rcases c with n | (_ | p) | body
  · cases h
    exact .inl ⟨.int n, rfl, rfl, rfl⟩
  · rw [perform_exec] at h
    split at h
    · next body u hp =>
      cases h
      exact .inr (.inl ⟨body, rfl, rfl, Stack.popBlock_eq_ok hp⟩)
    · cases h
  · rw [perform_primitive] at h
    split at h
    · next u hp =>
      cases h
      exact .inr (.inr ⟨p, rfl, rfl, hp⟩)
    · cases h
  · cases h
    exact .inl ⟨.block body, rfl, rfl, rfl⟩

theorem perform_eq_error {c : Command} {s t : Stack} {e : EvaluationError}
    (h : c.perform s = .error e t) :
    (c = .builtin .exec ∧ Stack.popBlock s = .error e t) ∨
    (∃ p, c = .builtin (.primitive p) ∧ p.apply s = .error e t) := by
  rcases c with n | (_ | p) | body
  · cases h
  · rw [perform_exec] at h
    split at h
    · cases h
    · next hp =>
      cases h
      exact .inl ⟨rfl, hp⟩
  · rw [perform_primitive] at h
    split at h
    · cases h
    · next hp =>
      cases h
      exact .inr ⟨p, rfl, hp⟩
  · cases h

end Command

namespace Machine

@[simp] theorem run_nil (m : Machine) : m.run [] = .ok () m := by
  rw [run]

@[simp] theorem run_exhausted (m : Machine) (pieces : List (List Command)) :
    m.run ([] :: pieces) = m.run pieces := by
  rw [run]

theorem run_cons (m : Machine) (c : Command) (rest : List Command)
    (pieces : List (List Command)) :
    m.run ((c :: rest) :: pieces) = match c.perform m.stack with
      | .ok calls stack => (m.evaluated c stack).run (calls ++ rest :: pieces)
      | .error e stack => .error e { m with stack } := by
  rcases c with n | (_ | p) | body
  · rw [run]; rfl
  · rw [run, Command.perform_exec]
    cases Stack.popBlock m.stack <;> rfl
  · rw [run, Command.perform_primitive]
    cases p.apply m.stack <;> rfl
  · rw [run]; rfl

theorem run_of_perform_ok {m : Machine} {c : Command} {rest : List Command}
    {pieces calls : List (List Command)} {stack : Stack}
    (h : c.perform m.stack = .ok calls stack) :
    m.run ((c :: rest) :: pieces) = (m.evaluated c stack).run (calls ++ rest :: pieces) := by
  rw [run_cons, h]

theorem run_of_perform_error {m : Machine} {c : Command} {rest : List Command}
    {pieces : List (List Command)} {e : EvaluationError} {stack : Stack}
    (h : c.perform m.stack = .error e stack) :
    m.run ((c :: rest) :: pieces) = .error e { m with stack } := by
  rw [run_cons, h]

/-- What holds of a machine without code, and before a piece is dropped or a command carried out if
it holds after, holds of every machine. -/
@[elab_as_elim]
theorem run_induction {motive : Machine → List (List Command) → Prop}
    (finished : ∀ m, motive m [])
    (exhausted : ∀ m pieces, motive m pieces → motive m ([] :: pieces))
    (performed : ∀ m c rest pieces calls stack, c.perform m.stack = .ok calls stack →
      motive (m.evaluated c stack) (calls ++ rest :: pieces) → motive m ((c :: rest) :: pieces))
    (failed : ∀ m c rest pieces e stack, c.perform m.stack = .error e stack →
      motive m ((c :: rest) :: pieces))
    (m : Machine) (pieces : List (List Command)) : motive m pieces := by
  -- The commands that are pushed and those that are applied all come down to `perform`.
  induction m, pieces using run.induct with
  | case1 m => exact finished m
  | case2 m pieces ih => exact exhausted m pieces ih
  | case3 m pieces n rest ih => exact performed m _ _ _ [] _ rfl ih
  | case4 m pieces body rest ih => exact performed m _ _ _ [] _ rfl ih
  | case5 m pieces rest body stack h ih =>
    exact performed m _ _ _ [body] stack (Command.perform_of_popBlock h) ih
  | case6 m pieces rest e stack h =>
    exact failed m _ _ _ e stack (Command.perform_of_popBlock_error h)
  | case7 m pieces p rest u stack h ih =>
    exact performed m _ _ _ [] stack (Command.perform_of_apply h) ih
  | case8 m pieces p rest e stack h =>
    exact failed m _ _ _ e stack (Command.perform_of_apply_error h)

end Machine
end StackLang
