import StackLang.Proofs.Machine.Perform

namespace StackLang
open scoped List

namespace Command

mutual

/-- The bodies of the blocks in a command, at any depth. -/
def bodies : Command → List (List Command)
  | .int _ => []
  | .builtin _ => []
  | .block body => body :: bodiesAll body

def bodiesAll : List Command → List (List Command)
  | [] => []
  | c :: cs => bodies c ++ bodiesAll cs

end

theorem bodiesAll_append (cs ds : List Command) :
    bodiesAll (cs ++ ds) = bodiesAll cs ++ bodiesAll ds := by
  induction cs with
  | nil => rfl
  | cons c cs ih => simp only [List.cons_append, bodiesAll, ih, List.append_assoc]

end Command

def Stack.bodies (s : Stack) : List (List Command) :=
  Command.bodiesAll (s.map Value.toCommand)

theorem Stack.bodies_eq_flatMap (s : Stack) :
    s.bodies = s.blocks.flatMap fun body => body :: Command.bodiesAll body := by
  induction s with
  | nil => rfl
  | cons v s ih =>
    have hc : bodies (v :: s) = v.toCommand.bodies ++ bodies s := rfl
    rw [hc, ih]
    cases v <;> rfl

theorem Stack.bodies_subset {s t : Stack} (h : t.blocks ⊆ s.blocks) : t.bodies ⊆ s.bodies := by
  intro body hb
  rw [bodies_eq_flatMap, List.mem_flatMap] at hb ⊢
  obtain ⟨outer, ho, hb⟩ := hb
  exact ⟨outer, h ho, hb⟩

namespace Command

theorem perform_spends {c : Command} {s t : Stack} {calls : List (List Command)}
    (h : c.perform s = .ok calls t) :
    Machine.load calls + t.weight + 1 ≤ c.size + s.weight := by
  obtain ⟨v, rfl, rfl, rfl⟩ | ⟨body, rfl, rfl, rfl⟩ | ⟨p, rfl, rfl, hp⟩ := perform_eq_ok h
  · cases v <;> simp only [Machine.load, Value.toCommand, size, Stack.weight_cons, Value.weight] <;>
      omega
  · simp only [Machine.load, size, Stack.weight_cons, Value.weight]
    omega
  · have hw := p.weight_apply_le hp
    simp only [Machine.load, size]
    omega

theorem length_calls_le {c : Command} {s t : Stack} {calls : List (List Command)}
    (h : c.perform s = .ok calls t) : calls.length ≤ 1 := by
  obtain ⟨_, _, rfl, _⟩ | ⟨_, _, rfl, _⟩ | ⟨_, _, rfl, _⟩ := perform_eq_ok h <;> simp

theorem perform_bodies_subset {c : Command} {s t : Stack} {calls : List (List Command)}
    (h : c.perform s = .ok calls t) :
    bodiesAll calls.flatten ++ t.bodies ⊆ c.bodies ++ s.bodies := by
  obtain ⟨v, rfl, rfl, rfl⟩ | ⟨body, rfl, rfl, rfl⟩ | ⟨p, rfl, rfl, hp⟩ := perform_eq_ok h
  · exact List.Subset.refl _
  · rw [List.flatten_singleton]
    exact List.subset_cons_self _ _
  · have hb := p.blocks_apply s
    rw [hp] at hb
    exact Stack.bodies_subset hb.subset

/-- A command that fails only takes values off the stack. -/
theorem perform_error_blocks {c : Command} {s t : Stack} {e : EvaluationError}
    (h : c.perform s = .error e t) : t.blocks <+~ s.blocks := by
  obtain ⟨rfl, hp⟩ | ⟨p, rfl, hp⟩ := perform_eq_error h
  · rw [Stack.popBlock_eq] at hp
    rcases s with _ | ⟨_ | _, s⟩ <;> cases hp <;> exact .refl _
  · have hb := p.blocks_apply s
    rw [hp] at hb
    exact hb

end Command

def Event.isEvaluation : Event → Bool
  | .evaluated _ _ => true
  | _ => false

def Trace.evaluations (t : Trace) : Nat := t.events.toList.countP Event.isEvaluation

theorem Trace.enabled_record (t : Trace) (e : Event) : (t.record e).enabled = t.enabled := by
  unfold record
  split <;> rfl

theorem Trace.evaluations_record_evaluated (t : Trace) (c : Command) (s : Stack) :
    (t.record (.evaluated c s)).evaluations = t.evaluations + if t.enabled then 1 else 0 := by
  unfold record evaluations
  split <;> simp [Event.isEvaluation]

theorem Machine.load_append (pieces more : List (List Command)) :
    load (pieces ++ more) = load pieces + load more := by
  induction pieces with
  | nil => simp [load]
  | cons code pieces ih => simp only [List.cons_append, load, ih, Nat.add_assoc]

structure Loop where
  machine : Machine
  pieces : List (List Command)
  /-- How many commands have been carried out. -/
  performed : Nat

inductive Round where
  | ended (run : Run)
  | again (loop : Loop)

namespace Loop

def start (m : Machine) (code : List Command) : Loop := ⟨m, [code], 0⟩

/-- A round drops the first piece of code if it is used up, and otherwise carries out its first
command. The loop is over when no piece is left or a command fails. -/
def round (l : Loop) : Round :=
  match l.pieces with
  | [] => .ended (.ok () l.machine)
  | [] :: pieces => .again { l with pieces }
  | (c :: rest) :: pieces =>
    match c.perform l.machine.stack with
    | .ok calls stack =>
      .again ⟨l.machine.evaluated c stack, calls ++ rest :: pieces, l.performed + 1⟩
    | .error e stack => .ended (.error e { l.machine with stack })

/-- How the loop ends within a number of rounds, and how many commands it has carried out by then.
There is nothing to tell if it goes on for longer. -/
def finish (l : Loop) : (rounds : Nat) → Option (Run × Nat)
  | 0 => none
  | rounds + 1 =>
    match l.round with
    | .ended run => some (run, l.performed)
    | .again next => next.finish rounds

/-- The size of all code that can still be run. -/
def supply (l : Loop) : Nat := Machine.load l.pieces + l.machine.stack.weight

def bodies (l : Loop) : List (List Command) :=
  Command.bodiesAll l.pieces.flatten ++ l.machine.stack.bodies

theorem round_eq_again {l next : Loop} (h : l.round = .again next) :
    (∃ pieces, l.pieces = [] :: pieces ∧ next = { l with pieces }) ∨
    (∃ c rest pieces calls stack, l.pieces = (c :: rest) :: pieces ∧
      c.perform l.machine.stack = .ok calls stack ∧
      next = ⟨l.machine.evaluated c stack, calls ++ rest :: pieces, l.performed + 1⟩) := by
  unfold round at h
  split at h
  · cases h
  · next pieces hl =>
    cases h
    exact .inl ⟨pieces, hl, rfl⟩
  · next c rest pieces hl =>
    split at h
    · next calls stack hc =>
      cases h
      exact .inr ⟨c, rest, pieces, calls, stack, hl, hc, rfl⟩
    · cases h

theorem round_eq_ended {l : Loop} {run : Run} (h : l.round = .ended run) :
    (l.pieces = [] ∧ run = .ok () l.machine) ∨
    (∃ c rest pieces e stack, l.pieces = (c :: rest) :: pieces ∧
      c.perform l.machine.stack = .error e stack ∧ run = .error e { l.machine with stack }) := by
  unfold round at h
  split at h
  · next hl =>
    cases h
    exact .inl ⟨hl, rfl⟩
  · cases h
  · next c rest pieces hl =>
    split at h
    · cases h
    · next e stack hc =>
      cases h
      exact .inr ⟨c, rest, pieces, e, stack, hl, hc, rfl⟩

theorem supply_of_exhausted {l : Loop} {pieces : List (List Command)}
    (hl : l.pieces = [] :: pieces) : supply { l with pieces } = l.supply := by
  simp only [supply, hl, Machine.load, Command.sizeAll, Nat.zero_add]

theorem supply_of_performed {l : Loop} {c : Command} {rest : List Command}
    {pieces calls : List (List Command)} {stack : Stack} (hl : l.pieces = (c :: rest) :: pieces)
    (hc : c.perform l.machine.stack = .ok calls stack) (n : Nat) :
    supply ⟨l.machine.evaluated c stack, calls ++ rest :: pieces, n⟩ + 1 ≤ l.supply := by
  have hs := Command.perform_spends hc
  simp only [supply, hl, Machine.load_append, Machine.load, Command.sizeAll, Machine.evaluated]
  omega

/-- The loop goes on for fewer rounds than this. -/
def measure (l : Loop) : Nat := 2 * l.supply + l.pieces.length

theorem measure_lt_of_round {l next : Loop} (h : l.round = .again next) :
    next.measure < l.measure := by
  obtain ⟨pieces, hl, rfl⟩ | ⟨c, rest, pieces, calls, stack, hl, hc, rfl⟩ := round_eq_again h
  · have hs := supply_of_exhausted hl
    have hn : l.pieces.length = pieces.length + 1 := by rw [hl, List.length_cons]
    simp only [measure]
    omega
  · -- A block that is called for makes the pile higher by one, and the supply smaller by one.
    have hs := supply_of_performed hl hc (l.performed + 1)
    have hn : l.pieces.length = pieces.length + 1 := by rw [hl, List.length_cons]
    have hk := Command.length_calls_le hc
    simp only [measure, List.length_append, List.length_cons]
    omega

theorem run_of_round {l next : Loop} (h : l.round = .again next) :
    l.machine.run l.pieces = next.machine.run next.pieces := by
  obtain ⟨pieces, hl, rfl⟩ | ⟨c, rest, pieces, calls, stack, hl, hc, rfl⟩ := round_eq_again h
  · rw [hl, Machine.run_exhausted]
  · rw [hl, Machine.run_of_perform_ok hc]

theorem run_of_ended {l : Loop} {run : Run} (h : l.round = .ended run) :
    l.machine.run l.pieces = run := by
  obtain ⟨hl, rfl⟩ | ⟨c, rest, pieces, e, stack, hl, hc, rfl⟩ := round_eq_ended h
  · rw [hl, Machine.run_nil]
  · rw [hl, Machine.run_of_perform_error hc]

/-- The loop ends, and it ends as the machine's run does. -/
theorem exists_finish (l : Loop) :
    ∃ rounds ≤ l.measure + 1, ∃ performed,
      l.finish rounds = some (l.machine.run l.pieces, performed) := by
  induction hn : l.measure using Nat.strong_induction_on generalizing l with
  | _ n ih =>
    cases hr : l.round with
    | ended run =>
      refine ⟨1, by omega, l.performed, ?_⟩
      rw [finish, hr, run_of_ended hr]
    | again next =>
      have hlt := measure_lt_of_round hr
      obtain ⟨rounds, hle, performed, hf⟩ := ih next.measure (by omega) next rfl
      refine ⟨rounds + 1, by omega, performed, ?_⟩
      rw [finish, hr, run_of_round hr]
      exact hf

structure Onward (l later : Loop) : Prop where
  spent : later.performed + later.supply ≤ l.performed + l.supply
  bodies_subset : later.bodies ⊆ l.bodies
  enabled_eq : later.machine.trace.enabled = l.machine.trace.enabled
  evaluations_eq : later.machine.trace.evaluations +
    (if l.machine.trace.enabled then l.performed else 0) =
      l.machine.trace.evaluations + if l.machine.trace.enabled then later.performed else 0

theorem Onward.refl (l : Loop) : l.Onward l := ⟨Nat.le_refl _, List.Subset.refl _, rfl, rfl⟩

theorem Onward.trans {a b c : Loop} (h : a.Onward b) (g : b.Onward c) : a.Onward c where
  spent := Nat.le_trans g.spent h.spent
  bodies_subset := List.Subset.trans g.bodies_subset h.bodies_subset
  enabled_eq := g.enabled_eq.trans h.enabled_eq
  evaluations_eq := by
    have hh := h.evaluations_eq
    have hg := g.evaluations_eq
    rw [h.enabled_eq] at hg
    omega

theorem Onward.of_round {l next : Loop} (h : l.round = .again next) : l.Onward next := by
  obtain ⟨pieces, hl, rfl⟩ | ⟨c, rest, pieces, calls, stack, hl, hc, rfl⟩ := round_eq_again h
  · refine ⟨?_, ?_, rfl, rfl⟩
    · rw [supply_of_exhausted hl]
    · simp only [bodies, hl, List.flatten_cons, List.nil_append]
      exact List.Subset.refl _
  · have hs := supply_of_performed hl hc (l.performed + 1)
    have hb := Command.perform_bodies_subset hc
    refine ⟨?_, ?_, Trace.enabled_record _ _, ?_⟩
    · dsimp only
      omega
    · intro body hm
      have hb := @hb body
      simp only [bodies, hl, List.flatten_cons, List.flatten_append, List.cons_append,
        Command.bodiesAll, Command.bodiesAll_append, Machine.evaluated, List.mem_append]
        at hm hb ⊢
      tauto
    · change (l.machine.trace.record (.evaluated c stack)).evaluations + _ = _
      rw [Trace.evaluations_record_evaluated]
      dsimp only
      split <;> omega

theorem exists_last {l : Loop} {rounds performed : Nat} {run : Run}
    (h : l.finish rounds = some (run, performed)) :
    ∃ last : Loop, l.Onward last ∧ last.round = .ended run ∧ last.performed = performed := by
  induction rounds generalizing l with
  | zero => cases h
  | succ rounds ih =>
    rw [finish] at h
    cases hr : l.round with
    | ended ending =>
      rw [hr] at h
      cases h
      exact ⟨l, .refl l, hr, rfl⟩
    | again next =>
      rw [hr] at h
      obtain ⟨last, ho, hlast, hp⟩ := ih h
      exact ⟨last, (Onward.of_round hr).trans ho, hlast, hp⟩

theorem left_of_ended {l : Loop} {run : Run} (h : l.round = .ended run) :
    run.left.stack.blocks <+~ l.machine.stack.blocks ∧ run.left.trace = l.machine.trace := by
  obtain ⟨hl, rfl⟩ | ⟨c, rest, pieces, e, stack, hl, hc, rfl⟩ := round_eq_ended h
  · exact ⟨.refl _, rfl⟩
  · exact ⟨Command.perform_error_blocks hc, rfl⟩

end Loop

/-- Every run ends, after at most so many rounds of the loop. Each command carried out is paid for
by code that was given at the start, and a block that is left on the stack is one that stood there
or in the code. -/
theorem Machine.evaluate_uses_code_once (m : Machine) (code : List Command) :
    ∃ rounds performed,
      (Loop.start m code).finish rounds = some (m.evaluate code, performed) ∧
      rounds ≤ 2 * (Command.sizeAll code + m.stack.weight) + 2 ∧
      performed + (m.evaluate code).left.stack.weight ≤
        Command.sizeAll code + m.stack.weight ∧
      (m.evaluate code).left.trace.evaluations =
        m.trace.evaluations + (if m.trace.enabled then performed else 0) ∧
      ∀ body, .block body ∈ (m.evaluate code).left.stack →
        body ∈ Command.bodiesAll code ∨ body ∈ m.stack.bodies := by
  obtain ⟨rounds, hle, performed, hf⟩ := (Loop.start m code).exists_finish
  obtain ⟨last, ho, hlast, rfl⟩ := Loop.exists_last hf
  obtain ⟨hblocks, htrace⟩ := Loop.left_of_ended hlast
  -- The last state of the loop bounds what is left; the failing command can only have taken off.
  change (m.evaluate code).left.stack.blocks <+~ last.machine.stack.blocks at hblocks
  change (m.evaluate code).left.trace = last.machine.trace at htrace
  have hsupply : (Loop.start m code).supply = Command.sizeAll code + m.stack.weight := rfl
  refine ⟨rounds, last.performed, hf, ?_, ?_, ?_, ?_⟩
  · simp only [Loop.measure, hsupply] at hle
    exact hle
  · have hw := Stack.weight_le_of_blocks_subperm hblocks
    have hs := ho.spent
    rw [hsupply] at hs
    simp only [Loop.start, Loop.supply] at hs
    omega
  · have he : last.machine.trace.evaluations + (if m.trace.enabled then 0 else 0) =
        m.trace.evaluations + if m.trace.enabled then last.performed else 0 := ho.evaluations_eq
    rw [ite_self, Nat.add_zero] at he
    rw [htrace, he]
  · intro body hb
    have hm : body ∈ last.machine.stack.bodies := by
      rw [Stack.bodies_eq_flatMap, List.mem_flatMap]
      exact ⟨body, hblocks.subset (Stack.mem_blocks.2 hb), List.mem_cons_self⟩
    have hl := ho.bodies_subset (List.mem_append_right _ hm)
    simpa [Loop.bodies, Loop.start] using hl

end StackLang
