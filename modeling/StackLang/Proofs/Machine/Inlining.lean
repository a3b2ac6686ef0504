import Mathlib.Logic.Relation
import StackLang.Proofs.Program.Outcome
import StackLang.Proofs.Stack.Alike

namespace StackLang

/-- The second code is the first one with some of its blocks rewritten inside, and some of those
that are executed at once replaced by their bodies, rewritten too. -/
inductive Command.Inlined : List Command → List Command → Prop
  | nil : Inlined [] []
  | keep (c : Command) {code code' : List Command} : Inlined code code' →
    Inlined (c :: code) (c :: code')
  | inside {body body' code code' : List Command} : Inlined body body' → Inlined code code' →
    Inlined (.block body :: code) (.block body' :: code')
  | inline {body body' code code' : List Command} : Inlined body body' → Inlined code code' →
    Inlined (.block body :: .builtin .exec :: code) (body' ++ code')

namespace Command

theorem Inlined.refl (code : List Command) : Inlined code code := by
  induction code with
  | nil => exact .nil
  | cons c code ih => exact .keep c ih

theorem Inlined.append {a a' b b' : List Command} (ha : Inlined a a') (hb : Inlined b b') :
    Inlined (a ++ b) (a' ++ b') := by
  induction ha with
  | nil => exact hb
  | keep c _ ih => exact .keep c ih
  | inside hbody _ _ ih => exact .inside hbody ih
  | inline hbody _ _ ih =>
    rw [List.append_assoc]
    exact .inline hbody ih

theorem Inlined.flatten {pieces pieces' : List (List Command)}
    (h : List.Forall₂ Inlined pieces pieces') : Inlined pieces.flatten pieces'.flatten := by
  induction h with
  | nil => exact .nil
  | cons hcode _ ih => exact hcode.append ih

/-- A command is carried out alike on stacks that are. -/
theorem perform_uniform {R : List Command → List Command → Prop} (hR : ∀ body, R body body)
    (c : Command) : StackM.Uniform R (List.Forall₂ R) c.perform c.perform := by
  intro s t h
  rcases c with n | (_ | p) | body
  · exact .ok .nil (.cons (.int n) h)
  · have hp := Stack.popBlock_uniform s t h
    rw [perform_exec, perform_exec]
    generalize Stack.popBlock s = r, Stack.popBlock t = r' at hp ⊢
    cases hp with
    | ok hb hst => exact .ok (.cons hb .nil) hst
    | error e hst => exact .error e hst
  · have hp := p.apply_uniform s t h
    rw [perform_primitive, perform_primitive]
    generalize p.apply s = r, p.apply t = r' at hp ⊢
    cases hp with
    | ok _ hst => exact .ok .nil hst
    | error e hst => exact .error e hst
  · exact .ok .nil (.cons (.block (hR body)) h)

end Command

namespace Machine

/-- Only the code on the pile matters, not how it is cut into pieces. -/
theorem run_flatten (m : Machine) (pieces : List (List Command)) :
    m.run pieces = m.run [pieces.flatten] := by
  induction pieces generalizing m with
  | nil => rw [List.flatten_nil, run_exhausted]
  | cons code pieces ih =>
    have hsplit := run_split m [] code pieces.flatten []
    rw [List.nil_append, List.nil_append] at hsplit
    rw [List.flatten_cons, hsplit]
    change m.run ([code] ++ pieces) = m.run ([code] ++ [pieces.flatten])
    rw [run_append, run_append]
    congr 1
    funext m'
    exact ih m'

/-- A stack and code still to run, and the same with code inlined. In between, a block may have been
pushed whose body stands in the other code already. -/
inductive Follows : Stack → List Command → Stack → List Command → Prop
  | level {s t : Stack} {code code' : List Command} : s.Alike Command.Inlined t →
    Command.Inlined code code' → Follows s code t code'
  | pushed {s t : Stack} {body body' code code' : List Command} : s.Alike Command.Inlined t →
    Command.Inlined body body' → Command.Inlined code code' →
    Follows (.block body :: s) (.builtin .exec :: code) t (body' ++ code')

/-- The next command leads to where the inlined code is already, or the inlined code has a next
command that does the same. -/
theorem Follows.next {s t : Stack} {c : Command} {rest code : List Command}
    (h : Follows s (c :: rest) t code) :
    (∃ calls stack, c.perform s = .ok calls stack ∧
      Follows stack (calls.flatten ++ rest) t code) ∨
    ∃ d rest', code = d :: rest' ∧ Command.Inlined rest rest' ∧
      StackM.Alike Command.Inlined (List.Forall₂ Command.Inlined) (c.perform s) (d.perform t) := by
  cases h with
  | level hst hcode =>
    cases hcode with
    | keep _ hrest =>
      exact .inr ⟨c, _, rfl, hrest, c.perform_uniform Command.Inlined.refl s t hst⟩
    | inside hbody hrest =>
      exact .inr ⟨_, _, rfl, hrest, .ok .nil (.cons (.block hbody) hst)⟩
    | inline hbody hrest => exact .inl ⟨[], _, rfl, .pushed hst hbody hrest⟩
  | @pushed s _ body _ _ _ hst hbody hrest =>
    refine .inl ⟨[body], s, rfl, .level hst ?_⟩
    rw [List.flatten_singleton]
    exact hbody.append hrest

theorem run_follows (m : Machine) (pieces : List (List Command)) {t : Stack}
    {code : List Command} (h : Follows m.stack pieces.flatten t code) (trace : Trace) :
    StackM.Alike Command.Inlined Eq (m.run pieces).onStack
      (evaluate ⟨t, trace⟩ code).onStack := by
  -- The induction is on the run of the code as it was. The inlined code stands still while a block
  -- is pushed and taken off the stack again, and goes along with every other command.
  induction m, pieces using run_induction generalizing t code trace with
  | finished m =>
    obtain ⟨s, noted⟩ := m
    cases h with
    | level hst hcode =>
      cases hcode
      rw [run_nil, evaluate, run_exhausted, run_nil]
      exact .ok rfl hst
  | exhausted m pieces ih =>
    rw [run_exhausted]
    exact ih h trace
  | performed m c rest pieces calls stack hc ih =>
    have hflatten : (calls ++ rest :: pieces).flatten =
        calls.flatten ++ (rest ++ pieces.flatten) := by
      rw [List.flatten_append, List.flatten_cons]
    rw [run_of_perform_ok hc]
    rw [hflatten] at ih
    rcases h.next with ⟨calls', stack', hc', hnext⟩ | ⟨d, rest', rfl, hrest, halike⟩
    · obtain ⟨rfl, rfl⟩ : calls' = calls ∧ stack' = stack := by
        cases hc.symm.trans hc'
        exact ⟨rfl, rfl⟩
      exact ih hnext trace
    · obtain ⟨calls', stack', hd, hcalls, hst⟩ := halike.eq_ok hc
      rw [evaluate, run_of_perform_ok hd, run_flatten _ (calls' ++ [rest']), List.flatten_append,
        List.flatten_singleton]
      exact ih (.level hst ((Command.Inlined.flatten hcalls).append hrest)) _
  | failed m c rest pieces e stack hc =>
    rw [run_of_perform_error hc]
    rcases h.next with ⟨calls', stack', hc', -⟩ | ⟨d, rest', rfl, -, halike⟩
    · cases hc.symm.trans hc'
    · obtain ⟨stack', hd, hst⟩ := halike.eq_error hc
      rw [evaluate, run_of_perform_error hd]
      exact .error e hst

theorem evaluate_inlined_once {code code' : List Command} (h : Command.Inlined code code')
    (s : Stack) (trace trace' : Trace) :
    StackM.Alike Command.Inlined Eq (evaluate ⟨s, trace⟩ code).onStack
      (evaluate ⟨s, trace'⟩ code').onStack := by
  refine run_follows ⟨s, trace⟩ [code] (.level (.refl Command.Inlined.refl s) ?_) trace'
  rw [List.flatten_singleton]
  exact h

/-- Inlining again and again, which may bring blocks and their `exec` together. -/
theorem evaluate_alike {code code' : List Command}
    (h : Relation.ReflTransGen Command.Inlined code code') (s : Stack) (trace trace' : Trace) :
    StackM.Alike (Relation.ReflTransGen Command.Inlined) Eq (evaluate ⟨s, trace⟩ code).onStack
      (evaluate ⟨s, trace'⟩ code').onStack := by
  induction h with
  | refl =>
    rw [onStack_evaluate s code trace trace']
    exact .refl (fun _ => .refl) _
  | tail _ hlast ih =>
    exact ih.trans (evaluate_inlined_once hlast s trace' trace') .tail

end Machine

theorem StackRun.result_alike {R : List Command → List Command → Prop} {r r' : StackRun}
    (h : StackM.Alike R Eq r r') : r.result = r'.result := by
  cases h with
  | error e _ => rfl
  | ok _ hst =>
    cases hst with
    | nil => rfl
    | cons hvw _ => cases hvw <;> rfl

/-- Code in which blocks that are executed at once have been replaced by their bodies, at any
depth and any number of times, fails with the same error as before or leaves a stack of the same
height, with the same numbers and with blocks that differ in the same way only. A program with such
a body has the same outcome for all arguments. -/
theorem Machine.evaluate_inlined {code code' : List Command}
    (h : Relation.ReflTransGen Command.Inlined code code') :
    (∀ (s : Stack) (trace trace' : Trace),
      StackM.Alike (Relation.ReflTransGen Command.Inlined) Eq (evaluate ⟨s, trace⟩ code).onStack
        (evaluate ⟨s, trace'⟩ code').onStack) ∧
    ∀ (k : Int) (style style' : ArgumentStyle) (arguments : List Int) (trace trace' : Trace),
      (Program.apply ⟨k, code⟩ style arguments trace).value =
        (Program.apply ⟨k, code'⟩ style' arguments trace').value := by
  refine ⟨fun s trace trace' => evaluate_alike h s trace trace', ?_⟩
  intro k style style' arguments trace trace'
  rw [Program.value_apply, Program.value_apply]
  dsimp only
  rw [StackRun.result_alike (evaluate_alike h (arguments.map .int) trace trace')]

/-- A block that leaves another one to be executed next, and a block on the stack in the end. -/
theorem Machine.evaluate_inlined_twice :
    (∃ t, (evaluate ⟨[.int 5], .off⟩ [.int 1, .builtin (.primitive .add),
        .block [.int 2]]).onStack = .ok () t ∧
      Stack.Alike (Relation.ReflTransGen Command.Inlined)
        [.block [.block [.int 2], .builtin .exec], .int 6] t) ∧
    (Program.apply ⟨1, [.int 1, .builtin (.primitive .add)]⟩ .tuple [5] .off).value = .ok 6 := by
  have hadd (code : List Command) : Relation.ReflTransGen Command.Inlined
      (.block [.block [.int 1, .builtin (.primitive .add)]] :: .builtin .exec :: .builtin .exec ::
        code) (.int 1 :: .builtin (.primitive .add) :: code) :=
    .tail (.single (.inline (.refl _) (.refl _))) (.inline (.refl _) (.refl _))
  have hlast : Relation.ReflTransGen Command.Inlined
      [.int 1, .builtin (.primitive .add), .block [.block [.int 2], .builtin .exec]]
      [.int 1, .builtin (.primitive .add), .block [.int 2]] :=
    .single (.keep _ (.keep _ (.inside (.inline (.refl _) .nil) .nil)))
  constructor
  · have h := (evaluate_inlined ((hadd _).trans hlast)).1 [.int 5] .off .off
    obtain ⟨_, t, ht, -, hst⟩ := h.eq_ok (a := ())
      (s := [.block [.block [.int 2], .builtin .exec], .int 6]) (by cbv)
    exact ⟨t, ht, hst⟩
  · rw [← (evaluate_inlined (hadd [])).2 1 .tuple .tuple [5] .off .off]
    cbv

end StackLang
