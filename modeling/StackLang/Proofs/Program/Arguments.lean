import StackLang.Proofs.Program.Outcome
import StackLang.Proofs.Stack.Operands

namespace StackLang

namespace Machine

/-- A command that calls for no block leaves the rest of its code to the machine that it led to. -/
theorem evaluate_of_perform {m : Machine} {c : Command} {stack : Stack}
    (h : c.perform m.stack = .ok [] stack) (rest : List Command) :
    m.evaluate (c :: rest) = (m.evaluated c stack).evaluate rest :=
  run_of_perform_ok h

theorem evaluate_primitive {m : Machine} {p : Primitive} {stack : Stack}
    (h : p.apply m.stack = .ok () stack) (rest : List Command) :
    m.evaluate (.builtin (.primitive p) :: rest) =
      (m.evaluated (.builtin (.primitive p)) stack).evaluate rest :=
  evaluate_of_perform (Command.perform_of_apply h) rest

theorem onStack_evaluate_ints (numbers : List Int) (m : Machine) (code : List Command) :
    (m.evaluate (numbers.map .int ++ code)).onStack =
      (evaluate ⟨numbers.reverse.map .int ++ m.stack, m.trace⟩ code).onStack := by
  induction numbers generalizing m with
  | nil => rfl
  | cons n numbers ih =>
    rw [List.map_cons, List.cons_append, evaluate_of_perform rfl, ih,
      onStack_evaluate _ _ _ m.trace]
    simp [evaluated]

theorem evaluate_nget {m : Machine} {i : Nat} {n : Int} (h : m.stack[i]? = some (.int n))
    (rest : List Command) :
    m.evaluate (.int (i + 1) :: .builtin (.primitive .nget) :: rest) =
      ((m.evaluated (.int (i + 1)) (.int (i + 1) :: m.stack)).evaluated
        (.builtin (.primitive .nget)) (.int n :: m.stack)).evaluate rest := by
  rw [evaluate_of_perform rfl]
  exact evaluate_primitive (Primitive.apply_of_yields (.nget h)) rest

end Machine

namespace Program

theorem apply_of_length_ne {p : Program} {arguments : List Int} (h : arguments.length ≠ p.arity)
    (style : ArgumentStyle) (trace : Trace) :
    p.apply style arguments trace =
      .error (.request (.wrongNumberOfArgs p.arity arguments.length)) trace := if_neg h

theorem outcome_of_length_eq {p : Program} {arguments : List Int}
    (h : arguments.length = p.arity) (trace : Trace) :
    p.outcome arguments =
      (Machine.evaluate ⟨arguments.map .int, trace⟩ p.body).onStack.result.mapError
        .evaluation := by
  rw [← p.value_apply_eq_outcome .tuple arguments trace, value_apply, if_pos h]

theorem outcome_literals {k : Int} {arguments : List Int} (h : arguments.length = k)
    (body : List Command) :
    outcome ⟨k, body⟩ arguments = outcome ⟨0, arguments.reverse.map .int ++ body⟩ [] := by
  have hbody := Machine.onStack_evaluate_ints arguments.reverse ⟨[], .off⟩ body
  rw [List.reverse_reverse, List.append_nil] at hbody
  rw [outcome_of_length_eq h .off, outcome_of_length_eq rfl .off]
  exact congrArg (fun r : StackRun => r.result.mapError Error.evaluation) hbody.symm

theorem outcome_nget {k : Int} {arguments : List Int} {i : Nat} {a : Int}
    (h : arguments.length = k) (ha : arguments[i]? = some a) (rest : List Command) :
    outcome ⟨k, .int (i + 1) :: .builtin (.primitive .nget) :: rest⟩ arguments =
      outcome ⟨k + 1, rest⟩ (a :: arguments) := by
  have hs : (arguments.map Value.int)[i]? = some (.int a) := by
    rw [List.getElem?_map, ha]
    rfl
  have hk : ((a :: arguments).length : Int) = k + 1 := by
    rw [List.length_cons, Int.natCast_add, h]
    rfl
  rw [outcome_of_length_eq h .off, Machine.evaluate_nget hs rest]
  exact (outcome_of_length_eq (p := ⟨k + 1, rest⟩) hk _).symm

/-- A program that is not given as many arguments as it wants fails before its body is run. Else its
body starts on the arguments, the first one on top, and the program comes to what the body does
behind the arguments as literals, the last one first; and a body that starts by asking for argument
`i` goes on with a copy of it on top. -/
theorem apply_as_literals (k : Int) (body : List Command) (arguments : List Int)
    (style : ArgumentStyle) (trace : Trace) :
    (arguments.length ≠ k → apply ⟨k, body⟩ style arguments trace =
      .error (.request (.wrongNumberOfArgs k arguments.length)) trace) ∧
    (arguments.length = k → ∀ trace', (apply ⟨k, body⟩ style arguments trace).value =
      (Machine.evaluate ⟨arguments.map .int, trace'⟩ body).onStack.result.mapError .evaluation) ∧
    (arguments.length = k → ∀ style' trace', (apply ⟨k, body⟩ style arguments trace).value =
      (apply ⟨0, arguments.reverse.map .int ++ body⟩ style' [] trace').value) ∧
    (∀ (i : Nat) (rest : List Command), arguments.length = k → 1 ≤ i → i ≤ k →
      body = .int i :: .builtin (.primitive .nget) :: rest → ∃ a, arguments[i - 1]? = some a ∧
        (∀ m : Machine, m.stack = arguments.map .int → m.evaluate body =
          ((m.evaluated (.int i) (.int i :: m.stack)).evaluated (.builtin (.primitive .nget))
            (.int a :: m.stack)).evaluate rest) ∧
        ∀ style' trace', (apply ⟨k, body⟩ style arguments trace).value =
          (apply ⟨k + 1, rest⟩ style' (a :: arguments) trace').value) := by
  refine ⟨fun h => apply_of_length_ne h style trace, ?_, ?_, ?_⟩
  · intro h trace'
    rw [value_apply_eq_outcome, outcome_of_length_eq h trace']
  · intro h style' trace'
    rw [value_apply_eq_outcome, value_apply_eq_outcome, outcome_literals h]
  · rintro i rest h hpos hle rfl
    obtain ⟨j, rfl⟩ : ∃ j, i = j + 1 := ⟨i - 1, by omega⟩
    have hj : j < arguments.length := by omega
    have ha : arguments[j]? = some arguments[j] := List.getElem?_eq_getElem hj
    refine ⟨arguments[j], ha, ?_, ?_⟩
    · intro m hm
      have hs : m.stack[j]? = some (.int arguments[j]) := by
        rw [hm, List.getElem?_map, ha]
        rfl
      exact Machine.evaluate_nget hs rest
    · intro style' trace'
      rw [value_apply_eq_outcome, value_apply_eq_outcome]
      exact outcome_nget h ha rest

/-- One argument instead of two, and the first of two less the second. -/
theorem apply_as_literals_second :
    apply ⟨2, [.builtin (.primitive .sub)]⟩ .tuple [7] .off =
      .error (.request (.wrongNumberOfArgs 2 1)) .off ∧
    (apply ⟨2, [.int 2, .builtin (.primitive .nget), .builtin (.primitive .sub)]⟩ .tuple [7, 3]
        .off).value =
      (apply ⟨0, [.int 3, .int 7, .int 2, .builtin (.primitive .nget),
        .builtin (.primitive .sub)]⟩ .tuple [] .off).value ∧
    (apply ⟨2, [.int 2, .builtin (.primitive .nget), .builtin (.primitive .sub)]⟩ .tuple [7, 3]
        .off).value =
      (apply ⟨3, [.builtin (.primitive .sub)]⟩ .tuple [3, 7, 3] .off).value ∧
    (apply ⟨3, [.builtin (.primitive .sub)]⟩ .tuple [3, 7, 3] .off).value = .ok 4 := by
  refine ⟨(apply_as_literals 2 _ [7] .tuple .off).1 (by decide),
    (apply_as_literals 2 _ [7, 3] .tuple .off).2.2.1 rfl .tuple .off, ?_, ?_⟩
  · obtain ⟨a, ha, -, hv⟩ := (apply_as_literals 2 _ [7, 3] .tuple .off).2.2.2 2
      [.builtin (.primitive .sub)] rfl (by decide) (by decide) rfl
    cases ha
    exact hv .tuple .off
  · have hsub : Primitive.sub.apply [.int 3, .int 7, .int 3] = .ok () [.int 4, .int 3] := rfl
    rw [(apply_as_literals 3 _ [3, 7, 3] .tuple .off).2.1 rfl .off]
    change (Machine.evaluate ⟨[.int 3, .int 7, .int 3], .off⟩ _).onStack.result.mapError _ = _
    rw [Machine.evaluate_primitive hsub, Machine.evaluate, Machine.run_exhausted, Machine.run_nil]
    rfl

end Program
end StackLang
