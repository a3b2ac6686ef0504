import StackLang.Proofs.Program.Outcome

namespace StackLang

namespace StackM

/-- How an action ends without and with `base` beneath the stack. If it runs out of values without,
it may do anything with. -/
inductive Above {α : Type} (base : Stack) :
    (alone framed : EStateM.Result EvaluationError Stack α) → Prop
  | ok (a : α) (t : Stack) : Above base (.ok a t) (.ok a (t ++ base))
  | error (e : EvaluationError) (t : Stack) : Above base (.error e t) (.error e (t ++ base))
  | short (t : Stack) (framed : EStateM.Result EvaluationError Stack α) :
    Above base (.error .notEnoughValues t) framed

theorem Above.eq_ok {α : Type} {base t : Stack} {a : α}
    {alone framed : EStateM.Result EvaluationError Stack α} (h : Above base alone framed)
    (ha : alone = .ok a t) : framed = .ok a (t ++ base) := by
  cases h <;> cases ha
  rfl

theorem Above.eq_error {α : Type} {base t : Stack} {e : EvaluationError}
    {alone framed : EStateM.Result EvaluationError Stack α} (h : Above base alone framed)
    (ha : alone = .error e t) (he : e ≠ .notEnoughValues) : framed = .error e (t ++ base) := by
  cases h <;> cases ha
  · rfl
  · exact absurd rfl he

/-- An action that never looks beneath the values that it needs. -/
def Local {α : Type} (x : StackM α) : Prop :=
  ∀ base s, Above base (x s) (x (s ++ base))

theorem Local.pure {α : Type} (a : α) : Local (pure a : StackM α) := fun _ s => .ok a s

theorem Local.throw {α : Type} (e : EvaluationError) : Local (throw e : StackM α) :=
  fun _ s => .error e s

theorem Local.bind {α β : Type} {x : StackM α} {f : α → StackM β} (hx : Local x)
    (hf : ∀ a, Local (f a)) : Local (x >>= f) := by
  intro base s
  have h := hx base s
  change Above base (EStateM.bind x f s) (EStateM.bind x f (s ++ base))
  unfold EStateM.bind
  generalize x s = alone, x (s ++ base) = framed at h ⊢
  cases h with
  | ok a t => exact hf a base t
  | error e t => exact .error e t
  | short t framed => exact .short t _

end StackM

namespace Stack
open StackM

theorem push_local (v : Value) : Local (push v) := fun _ s => .ok () (v :: s)

theorem pop_local : Local pop := by
  intro base s
  cases s with
  | nil => exact .short [] _
  | cons v s => exact .ok v s

theorem popInt_local : Local popInt :=
  pop_local.bind fun v => by
    cases v with
    | int n => exact .pure n
    | block body => exact .throw _

theorem popBlock_local : Local popBlock :=
  pop_local.bind fun v => by
    cases v with
    | int n => exact .throw _
    | block body => exact .pure body

theorem binary_local (f : Int → Int → Except EvaluationError Int) : Local (binary f) :=
  popInt_local.bind fun b => popInt_local.bind fun a => by
    cases f a b with
    | ok n => exact push_local _
    | error e => exact .throw e

theorem swap_local : Local swap :=
  pop_local.bind fun a => pop_local.bind fun b => (push_local a).bind fun _ => push_local b

theorem select_local : Local select :=
  pop_local.bind fun _ => pop_local.bind fun _ => popInt_local.bind fun _ => push_local _

theorem peek?_append {s : Stack} {depth : Int} {v : Value} (h : s.peek? depth = some v)
    (base : Stack) : (s ++ base).peek? depth = some v := by
  unfold peek? at h ⊢
  split at h
  · cases h
  · next hd =>
    have hlt : (depth - 1).toNat < s.length := (List.getElem?_eq_some_iff.1 h).1
    rw [if_neg hd, List.getElem?_append_left hlt, h]

theorem nget_local : Local nget := by
  intro base s
  rw [nget_eq, nget_eq]
  rcases s with _ | ⟨depth | body, s⟩
  · exact .short [] _
  · dsimp only [List.cons_append]
    cases hp : peek? s depth with
    | none => exact .short s _
    | some v =>
      rw [peek?_append hp base]
      cases v with
      | int n => exact .ok () (.int n :: s)
      | block body => exact .error _ s
  · exact .error _ s

end Stack

theorem Primitive.apply_local (p : Primitive) : StackM.Local p.apply := by
  cases p
  case pop => exact Stack.pop_local.bind fun _ => .pure _
  case swap => exact Stack.swap_local
  case sel => exact Stack.select_local
  case nget => exact Stack.nget_local
  all_goals
    unfold apply
    exact Stack.binary_local _

theorem Command.perform_local (c : Command) : StackM.Local c.perform := by
  intro base s
  rcases c with n | (_ | p) | body
  · exact .ok [] (.int n :: s)
  · have h := Stack.popBlock_local base s
    rw [perform_exec, perform_exec]
    generalize Stack.popBlock s = alone, Stack.popBlock (s ++ base) = framed at h ⊢
    cases h with
    | ok body t => exact .ok [body] t
    | error e t => exact .error e t
    | short t framed => exact .short t _
  · have h := p.apply_local base s
    rw [perform_primitive, perform_primitive]
    generalize p.apply s = alone, p.apply (s ++ base) = framed at h ⊢
    cases h with
    | ok _ t => exact .ok [] t
    | error e t => exact .error e t
    | short t framed => exact .short t _
  · exact .ok [] (.block body :: s)

namespace Machine
open StackM

/-- A run is local because each command is. The notes taken show whole stacks, so they differ. -/
theorem run_above (m : Machine) (pieces : List (List Command)) (base : Stack) (trace : Trace) :
    Above base (m.run pieces).onStack (run ⟨m.stack ++ base, trace⟩ pieces).onStack := by
  induction m, pieces using run_induction generalizing trace with
  | finished m =>
    rw [run_nil, run_nil]
    exact .ok () m.stack
  | exhausted m pieces ih =>
    rw [run_exhausted, run_exhausted]
    exact ih trace
  | performed m c rest pieces calls stack hc ih =>
    have h := (c.perform_local base m.stack).eq_ok hc
    rw [run_of_perform_ok hc, run_of_perform_ok h]
    exact ih _
  | failed m c rest pieces e stack hc =>
    have h := c.perform_local base m.stack
    rw [run_of_perform_error hc]
    by_cases he : e = .notEnoughValues
    · subst he
      exact .short stack _
    · rw [run_of_perform_error (h.eq_error hc he)]
      exact .error e stack

theorem evaluate_above (base s : Stack) (code : List Command) (trace trace' : Trace) :
    Above base (evaluate ⟨s, trace⟩ code).onStack (evaluate ⟨s ++ base, trace'⟩ code).onStack :=
  run_above ⟨s, trace⟩ [code] base trace'

end Machine

/-- Arguments that follow those a program needs lie beneath them. -/
theorem Program.outcome_append {k n : Int} {code : List Command} {arguments : List Int}
    (h : outcome ⟨k, code⟩ arguments = .ok n) (extra : List Int) :
    outcome ⟨k + extra.length, code⟩ (arguments ++ extra) = .ok n := by
  obtain ⟨hl, s, hs⟩ := (outcome_eq_ok .off).1 h
  refine (outcome_eq_ok .off).2 ⟨?_, s ++ extra.map .int, ?_⟩
  · rw [List.length_append, Int.natCast_add, hl]
  · rw [List.map_append]
    exact (Machine.evaluate_above (extra.map .int) _ code .off .off).eq_ok hs

/-- Stacks are listed from the top, so `base` lies beneath. Code that succeeds, or fails for
another reason than a lack of values, does so with any values beneath, and they stay; so a program
may be given further arguments that it has no use for. -/
theorem Machine.evaluate_above_base (base s : Stack) (code : List Command) (trace trace' : Trace) :
    (∀ t, (evaluate ⟨s, trace⟩ code).onStack = .ok () t →
      (evaluate ⟨s ++ base, trace'⟩ code).onStack = .ok () (t ++ base)) ∧
    (∀ e t, (evaluate ⟨s, trace⟩ code).onStack = .error e t → e ≠ .notEnoughValues →
      (evaluate ⟨s ++ base, trace'⟩ code).onStack = .error e (t ++ base)) ∧
    (∀ (k n : Int) (arguments extra : List Int) (style style' : ArgumentStyle) (after : Trace),
      Program.apply ⟨k, code⟩ style arguments trace = .ok n after →
      ∃ after', Program.apply ⟨k + extra.length, code⟩ style' (arguments ++ extra) trace' =
        .ok n after') := by
  refine ⟨fun t h => (evaluate_above base s code trace trace').eq_ok h,
    fun e t h he => (evaluate_above base s code trace trace').eq_error h he, ?_⟩
  intro k n arguments extra style style' after h
  have hn : Program.outcome ⟨k, code⟩ arguments = .ok n := by
    rw [← Program.value_apply_eq_outcome _ style _ trace, h]
    rfl
  apply EStateM.Result.value_eq_ok.1
  rw [Program.value_apply_eq_outcome]
  exact Program.outcome_append hn extra

/-- A block that squares a number, a division by zero, and a program of one argument that is given
three. -/
theorem Machine.evaluate_above_base_square :
    (evaluate ⟨[.int 3, .block [], .int 5], .off⟩
      [.block [.int 1, .builtin (.primitive .nget), .builtin (.primitive .mul)],
        .builtin .exec]).onStack = .ok () [.int 9, .block [], .int 5] ∧
    (evaluate ⟨[.int 3, .block [], .int 5], .off⟩
      [.int 0, .builtin (.primitive .div), .builtin .exec]).onStack =
        .error .divisionByZero [.block [], .int 5] ∧
    ∃ after, Program.apply ⟨1 + 2, [.int 1, .builtin (.primitive .nget),
      .builtin (.primitive .mul)]⟩ .tuple [3, 10, 20] .off = .ok 9 after := by
  refine ⟨(evaluate_above_base [.block [], .int 5] [.int 3] _ .off .off).1 [.int 9] ?_,
    (evaluate_above_base [.block [], .int 5] [.int 3] _ .off .off).2.1 .divisionByZero [] ?_
      (by decide),
    (evaluate_above_base [] [] _ .off .off).2.2 1 9 [3] [10, 20] .tuple .tuple .off ?_⟩
  · cbv
  · cbv
  · cbv

end StackLang
