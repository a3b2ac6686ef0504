import StackLang.Proofs.Command.Depth
import StackLang.Proofs.Machine.Record
import StackLang.Proofs.Session.Notes

namespace StackLang

def Stack.depth (s : Stack) : Nat := Command.depthAll (s.map Value.toCommand)

theorem Stack.depth_le_iff {s : Stack} {d : Nat} :
    s.depth ≤ d ↔ ∀ body ∈ s.blocks, (Command.block body).depth ≤ d := by
  rw [depth, Command.depthAll_le_iff]
  induction s with
  | nil => exact iff_of_true (List.forall_mem_nil _) (List.forall_mem_nil _)
  | cons v s ih =>
    rw [List.map_cons, List.forall_mem_cons, ih]
    cases v with
    | int n => exact and_iff_right (Nat.zero_le d)
    | block body =>
      rw [blocks, List.forall_mem_cons]
      rfl

theorem Command.perform_depth {c : Command} {s t : Stack} {calls : List (List Command)}
    (h : c.perform s = .ok calls t) {d : Nat} (hc : c.depth ≤ d) (hs : s.depth ≤ d) :
    t.depth ≤ d ∧ ∀ code ∈ calls, depthAll code ≤ d := by
  obtain ⟨v, rfl, rfl, rfl⟩ | ⟨body, rfl, rfl, rfl⟩ | ⟨p, rfl, rfl, hp⟩ := perform_eq_ok h
  · exact ⟨Nat.max_le.2 ⟨hc, hs⟩, List.forall_mem_nil _⟩
  · obtain ⟨hbody, ht⟩ := Nat.max_le.1 hs
    exact ⟨ht, List.forall_mem_singleton.2 (Nat.le_of_succ_le hbody)⟩
  · have hb := p.blocks_apply s
    rw [hp] at hb
    rw [Stack.depth_le_iff] at hs ⊢
    exact ⟨fun body hm => hs body (hb.subset hm), List.forall_mem_nil _⟩

def Error.depth : Error → Nat
  | .request (.illegalArgumentType f) => f.depth
  | _ => 0

/-- How deep a printer goes to write down a note. -/
def Event.depth : Event → Nat
  | .request items _ => (Form.list items).depth
  | .definition _ _ => 0
  | .call _ _ => 0
  | .evaluated c s => max c.depth s.depth
  | .executed body => (Command.block body).depth
  | .returned p _ _ _ => (Command.block p.body).depth
  | .failed items e => max (Form.list items).depth e.depth

namespace Trace

/-- What has been added to a trace nests no deeper than this. -/
def AddsWithin (d : Nat) (t later : Trace) : Prop :=
  ∀ e ∈ later.events.toList, e ∈ t.events.toList ∨ e.depth ≤ d

theorem AddsWithin.refl (d : Nat) (t : Trace) : t.AddsWithin d t := fun _ he => .inl he

theorem AddsWithin.trans {d : Nat} {a b c : Trace} (h : a.AddsWithin d b) (g : b.AddsWithin d c) :
    a.AddsWithin d c := fun e he => (g e he).elim (h e) .inr

theorem addsWithin_record (t : Trace) {e : Event} {d : Nat} (h : e.depth ≤ d) :
    t.AddsWithin d (t.record e) := by
  intro f hf
  unfold record at hf
  split at hf
  · rw [Array.toList_push, List.mem_append, List.mem_singleton] at hf
    rcases hf with hf | rfl
    · exact .inl hf
    · exact .inr h
  · exact .inl hf

end Trace

namespace Machine

theorem run_addsWithin {d : Nat} (m : Machine) (pieces : List (List Command))
    (hp : ∀ code ∈ pieces, Command.depthAll code ≤ d) (hs : m.stack.depth ≤ d) :
    m.trace.AddsWithin d (m.run pieces).left.trace := by
  induction m, pieces using run_induction with
  | finished m =>
    rw [run_nil]
    exact .refl d m.trace
  | exhausted m pieces ih =>
    rw [run_exhausted]
    exact ih (List.forall_mem_cons.1 hp).2 hs
  | performed m c rest pieces calls stack h ih =>
    -- A block that is called for was on the stack, so the bound on the pile is kept.
    obtain ⟨hcode, hpieces⟩ := List.forall_mem_cons.1 hp
    obtain ⟨hc, hrest⟩ := Nat.max_le.1 hcode
    obtain ⟨hstack, hcalls⟩ := Command.perform_depth h hc hs
    have hmore : ∀ code ∈ calls ++ rest :: pieces, Command.depthAll code ≤ d :=
      List.forall_mem_append.2 ⟨hcalls, List.forall_mem_cons.2 ⟨hrest, hpieces⟩⟩
    have hnote : (Event.evaluated c stack).depth ≤ d := Nat.max_le.2 ⟨hc, hstack⟩
    rw [run_of_perform_ok h]
    exact (m.trace.addsWithin_record hnote).trans (ih hmore hstack)
  | failed m c rest pieces e stack h =>
    rw [run_of_perform_error h]
    exact .refl d m.trace

theorem evaluate_addsWithin {d : Nat} (m : Machine) {code : List Command}
    (hc : Command.depthAll code ≤ d) (hs : m.stack.depth ≤ d) :
    m.trace.AddsWithin d (m.evaluate code).left.trace :=
  m.run_addsWithin [code] (List.forall_mem_singleton.2 hc) hs

theorem apply_addsWithin {d : Nat} (m : Machine) (b : Builtin) (hs : m.stack.depth ≤ d) :
    m.trace.AddsWithin d (m.apply b).left.trace := by
  obtain ⟨stack, trace⟩ := m
  cases b with
  | exec =>
    rw [apply, Stack.popBlock_eq]
    rcases stack with _ | ⟨_ | body, stack⟩
    · exact .refl d trace
    · exact .refl d trace
    · obtain ⟨hblock, hstack⟩ := Nat.max_le.1 hs
      exact (trace.addsWithin_record hblock).trans
        (evaluate_addsWithin ⟨stack, trace.record (.executed body)⟩
          (Nat.le_of_succ_le hblock) hstack)
  | primitive p =>
    rw [apply]
    cases p.apply stack <;> exact .refl d trace

end Machine

/-- A one inside so many blocks, each of which runs the next. -/
def tower : Nat → List Command
  | 0 => [.int 1]
  | n + 1 => [.block (tower n), .builtin .exec]

theorem depthAll_tower (n : Nat) : Command.depthAll (tower n) = n := by
  induction n with
  | zero => rfl
  | succ n ih =>
    change max (Command.depthAll (tower n) + 1) 0 = n + 1
    rw [ih, Nat.max_zero]

theorem exists_records_tower (n : Nat) (s : Stack) :
    ∃ entries, Records s (tower n) entries (.ok () (.int 1 :: s)) := by
  induction n generalizing s with
  | zero => exact ⟨_, .push (v := .int 1) (.done _)⟩
  | succ n ih =>
    obtain ⟨entries, h⟩ := ih s
    exact ⟨_, .push (v := .block (tower n)) (.exec rfl h (.done _))⟩

theorem evaluate_tower (n : Nat) :
    ∃ trace, Machine.evaluate ⟨[], .start true⟩ (tower (n + 1)) = .ok () ⟨[.int 1], trace⟩ ∧
      .evaluated (.block (tower n)) [.block (tower n)] ∈ trace.events.toList := by
  obtain ⟨entries, h⟩ := exists_records_tower n []
  have hrun : Records [] (tower (n + 1)) _ (.ok () [.int 1]) :=
    .push (v := .block (tower n)) (.exec rfl h (.done _))
  refine ⟨_, Machine.evaluate_of_records hrun (.start true), ?_⟩
  rw [(Trace.recordAll_of_enabled rfl _).2]
  exact List.mem_append_right _ List.mem_cons_self

/-- To carry out code takes no depth: whatever a printer can go down to, there is code that runs
without a trace to its end, but has a trace with a block in it that the printer cannot write. -/
theorem exists_code_too_deep (limit : Nat) :
    ∃ code, Machine.evaluate ⟨[], .off⟩ code = .ok () ⟨[.int 1], .off⟩ ∧
      ∃ trace, Machine.evaluate ⟨[], .start true⟩ code = .ok () ⟨[.int 1], trace⟩ ∧
        ∃ c s, .evaluated c s ∈ trace.events.toList ∧ c.charsWithin? limit = none := by
  obtain ⟨trace, htraced, hnote⟩ := evaluate_tower limit
  have huntraced : Machine.evaluate ⟨[], .off⟩ (tower (limit + 1)) = .ok () ⟨[.int 1], .off⟩ :=
    (Machine.evaluate_untraced ⟨[], .start true⟩ (tower (limit + 1))).trans
      (congrArg (EStateM.Result.mapState Machine.untraced) htraced)
  refine ⟨_, huntraced, trace, htraced, _, _, hnote, ?_⟩
  rw [Command.charsWithin?_eq, if_neg]
  change ¬Command.depthAll (tower limit) + 1 ≤ limit
  rw [depthAll_tower]
  exact Nat.not_succ_le_self limit

end StackLang
