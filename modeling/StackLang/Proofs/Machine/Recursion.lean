import StackLang.Proofs.Machine.Perform

namespace StackLang

/-- How code ends on a stack, apart from what is noted on the way. -/
abbrev StackRun := EStateM.Result EvaluationError Stack Unit

namespace Run

def onStack : Run → StackRun
  | .ok _ m => .ok () m.stack
  | .error e m => .error e m.stack

theorem onStack_eq_ok {run : Run} {s : Stack} (h : run.onStack = .ok () s) :
    ∃ trace, run = .ok () ⟨s, trace⟩ := by
  cases run with
  | ok _ m => cases h; exact ⟨m.trace, rfl⟩
  | error e m => cases h

theorem onStack_eq_error {run : Run} {e : EvaluationError} {s : Stack}
    (h : run.onStack = .error e s) : ∃ trace, run = .error e ⟨s, trace⟩ := by
  cases run with
  | ok _ m => cases h
  | error e m => cases h; exact ⟨m.trace, rfl⟩

/-- Goes on after a run unless it has failed. -/
def andThen (run : Run) (next : Machine → Run) : Run :=
  match run with
  | .ok _ m => next m
  | .error e m => .error e m

end Run

/-- The recursive meaning of code. The first error ends everything. -/
inductive Folds : Stack → List Command → StackRun → Prop where
  | done (s : Stack) : Folds s [] (.ok () s)
  /-- Numbers and blocks are pushed as they are. -/
  | push {s : Stack} {v : Value} {rest : List Command} {r : StackRun} :
    Folds (v :: s) rest r → Folds s (v.toCommand :: rest) r
  | apply {s t : Stack} {p : Primitive} {rest : List Command} {r : StackRun} :
    p.apply s = .ok () t → Folds t rest r → Folds s (.builtin (.primitive p) :: rest) r
  | applyFails {s t : Stack} {p : Primitive} {rest : List Command} {e : EvaluationError} :
    p.apply s = .error e t → Folds s (.builtin (.primitive p) :: rest) (.error e t)
  | exec {s t u : Stack} {body rest : List Command} {r : StackRun} :
    Stack.popBlock s = .ok body t → Folds t body (.ok () u) → Folds u rest r →
      Folds s (.builtin .exec :: rest) r
  | execAborts {s t u : Stack} {body rest : List Command} {e : EvaluationError} :
    Stack.popBlock s = .ok body t → Folds t body (.error e u) →
      Folds s (.builtin .exec :: rest) (.error e u)
  | execFails {s t : Stack} {rest : List Command} {e : EvaluationError} :
    Stack.popBlock s = .error e t → Folds s (.builtin .exec :: rest) (.error e t)

/-- The recursive meaning of a pile: that of its pieces one after the other. -/
def FoldsPile : Stack → List (List Command) → StackRun → Prop
  | s, [], r => r = .ok () s
  | s, code :: pieces, r => ∃ q, Folds s code q ∧ match q with
    | .ok _ t => FoldsPile t pieces r
    | .error e t => r = .error e t

theorem FoldsPile.imp_head {s t : Stack} {code code' : List Command}
    {pieces : List (List Command)} {r : StackRun} (h : ∀ q, Folds t code' q → Folds s code q)
    (hp : FoldsPile t (code' :: pieces) r) : FoldsPile s (code :: pieces) r := by
  obtain ⟨q, hq, hr⟩ := hp
  exact ⟨q, h q hq, hr⟩

theorem FoldsPile.exec {s t : Stack} {body rest : List Command} {pieces : List (List Command)}
    {r : StackRun} (hb : Stack.popBlock s = .ok body t)
    (hp : FoldsPile t (body :: rest :: pieces) r) :
    FoldsPile s ((.builtin .exec :: rest) :: pieces) r := by
  obtain ⟨q, hq, hr⟩ := hp
  cases q with
  | ok _ u => exact imp_head (fun _ h => .exec hb hq h) hr
  | error e u => exact ⟨_, .execAborts hb hq, hr⟩

namespace Machine

theorem run_append (m : Machine) (front back : List (List Command)) :
    m.run (front ++ back) = (m.run front).andThen (·.run back) := by
  induction m, front using run_induction with
  | finished m => rw [run_nil]; rfl
  | exhausted m front ih => rw [List.cons_append, run_exhausted, run_exhausted, ih]
  | performed m c rest front calls stack hc ih =>
    rw [List.cons_append, run_of_perform_ok hc, run_of_perform_ok hc, ← ih, List.append_assoc,
      List.cons_append]
  | failed m c rest front e stack hc =>
    rw [List.cons_append, run_of_perform_error hc, run_of_perform_error hc]
    rfl

/-- A piece of code may be cut in two wherever it lies on the pile. -/
theorem run_split (m : Machine) (front : List (List Command)) (a b : List Command)
    (back : List (List Command)) :
    m.run (front ++ (a ++ b) :: back) = m.run (front ++ a :: b :: back) := by
  generalize hp : front ++ (a ++ b) :: back = pieces
  -- The induction is on the run as a whole; what lies in front of the cut changes on the way.
  induction m, pieces using run_induction generalizing front a with
  | finished m => cases front <;> cases hp
  | exhausted m pieces ih =>
    rcases front with _ | ⟨code, front⟩
    · obtain ⟨rfl, rfl⟩ : a = [] ∧ b = [] := by simpa using (List.cons.inj hp).1
      obtain rfl := (List.cons.inj hp).2
      rw [List.nil_append, run_exhausted, run_exhausted, run_exhausted]
    · obtain ⟨rfl, rfl⟩ := List.cons.inj hp
      rw [List.cons_append, run_exhausted, run_exhausted]
      exact ih front a rfl
  | performed m c rest pieces calls stack hc ih =>
    rcases front with _ | ⟨code, front⟩
    · obtain ⟨hab, rfl⟩ := List.cons.inj hp
      rcases a with _ | ⟨d, a⟩
      · rw [List.nil_append] at hab
        rw [hab, List.nil_append, run_exhausted]
      · obtain ⟨rfl, rfl⟩ := List.cons.inj hab
        rw [List.nil_append, run_of_perform_ok hc, run_of_perform_ok hc]
        exact ih calls a rfl
    · obtain ⟨rfl, rfl⟩ := List.cons.inj hp
      rw [List.cons_append, run_of_perform_ok hc, run_of_perform_ok hc]
      have h := ih (calls ++ rest :: front) a (by simp)
      simpa using h
  | failed m c rest pieces e stack hc =>
    rcases front with _ | ⟨code, front⟩
    · obtain ⟨hab, rfl⟩ := List.cons.inj hp
      rcases a with _ | ⟨d, a⟩
      · rw [List.nil_append] at hab
        rw [hab, List.nil_append, run_exhausted]
      · obtain ⟨rfl, rfl⟩ := List.cons.inj hab
        rw [List.nil_append, run_of_perform_error hc, run_of_perform_error hc]
    · obtain ⟨rfl, rfl⟩ := List.cons.inj hp
      rw [List.cons_append, run_of_perform_error hc, run_of_perform_error hc]

theorem evaluate_append_eq (m : Machine) (a b : List Command) :
    m.evaluate (a ++ b) = (m.evaluate a).andThen (·.evaluate b) := by
  have hs := run_split m [] a b []
  have ha := run_append m [a] [b]
  exact hs.trans ha

/-- A derivation of the recursive meaning is followed by the machine, whatever has been noted. -/
theorem onStack_of_folds {s : Stack} {code : List Command} {r : StackRun} (h : Folds s code r)
    (trace : Trace) : (evaluate ⟨s, trace⟩ code).onStack = r := by
  induction h generalizing trace with
  | done s => rw [evaluate, run_exhausted, run_nil]; rfl
  | @push s v rest r _ ih =>
    rw [evaluate, run_of_perform_ok (Command.perform_toCommand v s)]
    exact ih _
  | @apply s t p rest r hp _ ih =>
    rw [evaluate, run_of_perform_ok (Command.perform_of_apply hp)]
    exact ih _
  | @applyFails s t p rest e hp =>
    rw [evaluate, run_of_perform_error (Command.perform_of_apply_error hp)]
    rfl
  | @exec s t u body rest r hb _ _ ihb ihr =>
    -- The block lies on top of the rest, so it runs first and as it would by itself.
    rw [evaluate, run_of_perform_ok (Command.perform_of_popBlock hb), run_append]
    obtain ⟨after, hbody⟩ := Run.onStack_eq_ok (ihb (trace.record (.evaluated (.builtin .exec) t)))
    change ((evaluate _ body).andThen _).onStack = r
    rw [evaluated, hbody]
    exact ihr after
  | @execAborts s t u body rest e hb _ ih =>
    rw [evaluate, run_of_perform_ok (Command.perform_of_popBlock hb), run_append]
    obtain ⟨after, hbody⟩ :=
      Run.onStack_eq_error (ih (trace.record (.evaluated (.builtin .exec) t)))
    change ((evaluate _ body).andThen _).onStack = _
    rw [evaluated, hbody]
    rfl
  | @execFails s t rest e hb =>
    rw [evaluate, run_of_perform_error (Command.perform_of_popBlock_error hb)]
    rfl

/-- Every run of the machine has a derivation in the recursive meaning. -/
theorem foldsPile_run (m : Machine) (pieces : List (List Command)) :
    FoldsPile m.stack pieces (m.run pieces).onStack := by
  induction m, pieces using run_induction with
  | finished m => rw [run_nil]; rfl
  | exhausted m pieces ih => rw [run_exhausted]; exact ⟨_, .done m.stack, ih⟩
  | performed m c rest pieces calls stack hc ih =>
    rw [run_of_perform_ok hc]
    obtain ⟨v, rfl, rfl, rfl⟩ | ⟨body, rfl, rfl, hs⟩ | ⟨p, rfl, rfl, hp⟩ := Command.perform_eq_ok hc
    · exact .imp_head (fun _ h => .push h) ih
    · exact .exec (by rw [hs]; rfl) ih
    · exact .imp_head (fun _ h => .apply hp h) ih
  | failed m c rest pieces e stack hc =>
    rw [run_of_perform_error hc]
    obtain ⟨rfl, hb⟩ | ⟨p, rfl, hp⟩ := Command.perform_eq_error hc
    · exact ⟨_, .execFails hb, rfl⟩
    · exact ⟨_, .applyFails hp, rfl⟩

theorem folds_evaluate (m : Machine) (code : List Command) :
    Folds m.stack code (m.evaluate code).onStack := by
  obtain ⟨q, hq, hr⟩ := foldsPile_run m [code]
  rw [evaluate]
  cases q with
  | ok _ t => rwa [show (m.run [code]).onStack = .ok () t from hr]
  | error e t => rwa [show (m.run [code]).onStack = .error e t from hr]

/-- An `exec` applied by itself runs its block on a machine of its own, with other notes in the
trace. -/
theorem folds_apply_exec (m : Machine) :
    Folds m.stack [.builtin .exec] (m.apply .exec).onStack := by
  rw [apply]
  cases hb : Stack.popBlock m.stack with
  | error e stack => exact .execFails hb
  | ok body stack =>
    have hf := folds_evaluate ⟨stack, m.trace.record (.executed body)⟩ body
    change Folds m.stack _ (evaluate ⟨stack, m.trace.record (.executed body)⟩ body).onStack
    -- From here on it matters only how the block ends on the stack.
    generalize (evaluate ⟨stack, m.trace.record (.executed body)⟩ body).onStack = r at hf ⊢
    cases r with
    | ok _ u => exact .exec hb hf (.done u)
    | error e u => exact .execAborts hb hf

/-- The machine gives code its recursive meaning; code behind other code goes on where that one
ends; and an `exec` on its own does what it does inside code. -/
theorem evaluate_eq_recursion (m : Machine) :
    (∀ code r, Folds m.stack code r ↔ (m.evaluate code).onStack = r) ∧
    (∀ a b, m.evaluate (a ++ b) = (m.evaluate a).andThen (·.evaluate b)) ∧
    (m.apply .exec).onStack = (m.evaluate [.builtin .exec]).onStack := by
  refine ⟨fun code r => ⟨fun h => onStack_of_folds h m.trace, ?_⟩, m.evaluate_append_eq, ?_⟩
  · rintro rfl
    exact m.folds_evaluate code
  · exact (onStack_of_folds m.folds_apply_exec m.trace).symm

end Machine
end StackLang
