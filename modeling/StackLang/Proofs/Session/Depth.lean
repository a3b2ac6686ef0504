import StackLang.Proofs.Machine.Depth

namespace StackLang

namespace Request

def depth : Request → Nat
  | .definition _ p => (Command.block p.body).depth
  | .call _ _ => 0

theorem depth_of_arguments_error {fs : List Form} {e : RequestError}
    (h : arguments fs = .error e) : (Error.request e).depth ≤ Form.depthAll fs := by
  induction fs with
  | nil => cases h
  | cons f fs ih =>
    have hmore : Form.depthAll fs ≤ Form.depthAll (f :: fs) := Nat.le_max_right _ _
    cases f with
    | int n =>
      rw [arguments] at h
      cases hfs : arguments fs with
      | ok numbers =>
        rw [hfs] at h
        cases h
      | error e' =>
        rw [hfs] at h
        cases h
        exact Nat.le_trans (ih hfs) hmore
    | _ =>
      cases h
      exact Nat.le_max_left _ _

theorem depth_definitionOfForms (fs : List Form) :
    (∀ r, definitionOfForms fs = .ok r → r.depth ≤ Form.depthAll fs + 1) ∧
      ∀ e, definitionOfForms fs = .error e → e.depth = 0 := by
  unfold definitionOfForms
  split
  · next name arity body =>
    split
    · exact ⟨nofun, fun e he => by cases he; rfl⟩
    · cases hb : Command.ofForms body with
      | ok code =>
        refine ⟨fun r hr => ?_, nofun⟩
        have hbody := Command.depth_of_ofForms hb
        cases hr
        simp only [depth, Command.depth, Form.depthAll]
        omega
      | error e => exact ⟨nofun, fun e he => by cases he; rfl⟩
  all_goals exact ⟨nofun, fun e he => by cases he; rfl⟩

/-- Neither a request nor the error about it nests deeper than the list it is taken from. -/
theorem depth_ofForms (fs : List Form) :
    (∀ r, ofForms fs = .ok r → r.depth ≤ (Form.list fs).depth) ∧
      ∀ e, ofForms fs = .error e → e.depth ≤ (Form.list fs).depth := by
  unfold ofForms
  split
  · exact ⟨nofun, fun e he => by cases he; exact Nat.zero_le _⟩
  · next name fs =>
    have htail : (Form.list fs).depth ≤ (Form.list (.symbol name :: fs)).depth :=
      Nat.succ_le_succ (Nat.le_max_right _ _)
    split
    · obtain ⟨hok, herror⟩ := depth_definitionOfForms fs
      refine ⟨fun r hr => Nat.le_trans (hok r hr) htail, fun e he => ?_⟩
      rw [herror e he]
      exact Nat.zero_le _
    · cases ha : arguments fs with
      | ok numbers => exact ⟨fun r hr => by cases hr; exact Nat.zero_le _, nofun⟩
      | error e =>
        refine ⟨nofun, fun e' he => ?_⟩
        cases he
        exact Nat.le_trans (Nat.le_succ_of_le (depth_of_arguments_error ha)) htail
  · exact ⟨nofun, fun e he => by cases he; exact Nat.zero_le _⟩

theorem depth_definition? {v : Validation} {name arity : Field} {body : List Command} {r : Request}
    (h : definition? v name arity body = some r) : r.depth = (Command.block body).depth := by
  obtain ⟨text, -, h⟩ := Option.bind_eq_some_iff.1 h
  obtain ⟨n, -, h⟩ := Option.bind_eq_some_iff.1 h
  cases h
  rfl

theorem depth_call? {v : Validation} {name arguments : Field} {r : Request}
    (h : call? v name arguments = some r) : r.depth = 0 := by
  obtain ⟨text, -, h⟩ := Option.bind_eq_some_iff.1 h
  obtain ⟨numbers, -, h⟩ := Option.bind_eq_some_iff.1 h
  cases h
  rfl

end Request

namespace Registry

/-- The depth of the programs that can be called, each counted as a block. -/
def depth (r : Registry) : Nat := Command.depthAll (r.entries.map fun e => .block e.2.body)

theorem depth_le_iff {r : Registry} {d : Nat} :
    r.depth ≤ d ↔ ∀ e ∈ r.entries, (Command.block e.2.body).depth ≤ d := by
  rw [depth, Command.depthAll_le_iff, List.forall_mem_map]

theorem depth_of_find? {r : Registry} {name : String} {p : Program} (h : r.find? name = some p) :
    (Command.block p.body).depth ≤ r.depth := by
  obtain ⟨front, rest, hr, -⟩ := List.lookup_eq_some_iff.1 h
  refine depth_le_iff.1 (Nat.le_refl _) (name, p) ?_
  rw [hr]
  exact List.mem_append_right _ List.mem_cons_self

theorem depth_insert {r : Registry} {p : Program} {d : Nat} (hr : r.depth ≤ d)
    (hp : (Command.block p.body).depth ≤ d) (name : String) : (r.insert name p).depth ≤ d := by
  rw [depth_le_iff] at hr ⊢
  exact List.forall_mem_cons.2 ⟨hp, fun e he => hr e (List.mem_filter.1 he).1⟩

end Registry

theorem Program.apply_addsWithin {d : Nat} {p : Program} (hp : (Command.block p.body).depth ≤ d)
    (style : ArgumentStyle) (arguments : List Int) (trace : Trace) :
    trace.AddsWithin d (p.apply style arguments trace).left := by
  have hargs : Stack.depth (arguments.map .int) ≤ d := by
    rw [Stack.depth, Command.depthAll_le_iff]
    simp [Value.toCommand, Command.depth]
  have hbody := Machine.evaluate_addsWithin ⟨arguments.map .int, trace⟩
    (Nat.le_of_succ_le hp) hargs
  unfold apply
  split
  · cases hr : Machine.evaluate ⟨arguments.map .int, trace⟩ p.body with
    | error e m =>
      rw [hr] at hbody
      exact hbody
    | ok _ m =>
      rw [hr] at hbody
      dsimp only
      cases m.stack.result with
      | error e => exact hbody
      | ok n => exact hbody.trans (m.trace.addsWithin_record hp)
  · exact .refl d trace

theorem Program.depth_of_apply_error {p : Program} {style : ArgumentStyle} {arguments : List Int}
    {trace later : Trace} {e : Error} (h : p.apply style arguments trace = .error e later) :
    e.depth = 0 := by
  unfold apply at h
  split at h
  · split at h
    · split at h <;> cases h
      rfl
    · cases h
      rfl
  · cases h
    rfl

namespace Session

theorem depth_of_call_error {style : ArgumentStyle} {name : String} {arguments : List Int}
    {s t : Session} {e : Error} (h : call style name arguments s = .error e t) : e.depth = 0 := by
  unfold call at h
  split at h
  · cases h
    rfl
  · split at h
    · cases h
    · next happly =>
      cases h
      exact Program.depth_of_apply_error happly

theorem depth_of_serve_error {r : Request} {s t : Session} {e : Error}
    (h : serve r s = .error e t) : e.depth = 0 := by
  cases r with
  | definition name p => cases h
  | call name arguments =>
    rw [serve_call] at h
    split at h
    · cases h
    · next hcall =>
      cases h
      exact depth_of_call_error hcall

/-- What holds between an earlier and a later session if nothing that nests deeper than this has
been asked for. -/
structure Deepens (d : Nat) (s later : Session) : Prop where
  registry_le : later.registry.depth ≤ d
  addsWithin : s.trace.AddsWithin d later.trace

theorem Deepens.trans {d : Nat} {a b c : Session} (h : a.Deepens d b) (g : b.Deepens d c) :
    a.Deepens d c := ⟨g.registry_le, h.addsWithin.trans g.addsWithin⟩

section
variable {d : Nat} {s : Session} (hs : s.registry.depth ≤ d)
include hs

theorem Deepens.refl : s.Deepens d s := ⟨hs, .refl d s.trace⟩

theorem deepens_record {e : Event} (he : e.depth ≤ d) : s.Deepens d (s.record e) :=
  ⟨hs, s.trace.addsWithin_record he⟩

theorem deepens_call (style : ArgumentStyle) (name : String) (arguments : List Int) :
    s.Deepens d (call style name arguments s).left := by
  unfold call
  cases hf : s.registry.find? name with
  | none => exact .refl hs
  | some p =>
    have happly := Program.apply_addsWithin (Nat.le_trans (Registry.depth_of_find? hf) hs) style
      arguments s.trace
    dsimp only
    cases hr : p.apply style arguments s.trace <;> rw [hr] at happly <;> exact ⟨hs, happly⟩

theorem deepens_serve {r : Request} (hr : r.depth ≤ d) : s.Deepens d (serve r s).left := by
  cases r with
  | definition name p =>
    exact ⟨Registry.depth_insert hs hr name, s.trace.addsWithin_record (Nat.zero_le d)⟩
  | call name arguments =>
    have hnote : s.Deepens d (s.record (.call name arguments)) := deepens_record hs (Nat.zero_le d)
    have hcall := hnote.trans (deepens_call hnote.registry_le .tuple name arguments)
    rw [serve_call]
    cases hr : call .tuple name arguments (s.record (.call name arguments)) <;>
      rw [hr] at hcall <;> exact hcall

theorem deepens_interpret {items : List Form} (hd : (Form.list items).depth ≤ d) :
    s.Deepens d (interpret items s).2 := by
  have hnote : s.Deepens d (s.record (.request items false)) := deepens_record hs hd
  have hfails {t : Session} (ht : s.Deepens d t) {e : Error} (he : e.depth ≤ d) :
      s.Deepens d (t.record (.failed items e)) :=
    ht.trans (deepens_record ht.registry_le (Nat.max_le.2 ⟨hd, he⟩))
  obtain ⟨hok, herror⟩ := Request.depth_ofForms items
  unfold interpret
  cases hf : Request.ofForms items with
  -- An error about the list may show a part of it; one that comes up later shows no form.
  | error e => exact hfails hnote (Nat.le_trans (herror e hf) hd)
  | ok r =>
    have hserve := hnote.trans (deepens_serve hnote.registry_le (Nat.le_trans (hok r hf) hd))
    dsimp only
    cases hr : serve r (s.record (.request items false)) with
    | ok result t =>
      rw [hr] at hserve
      exact hserve
    | error e t =>
      rw [hr] at hserve
      exact hfails hserve (Nat.le_trans (Nat.le_of_eq (depth_of_serve_error hr)) (Nat.zero_le d))

theorem deepens_respond {f : Form} (hf : f.depth ≤ d) : s.Deepens d (respond f s).2 := by
  cases f with
  | list items => exact deepens_interpret hs hf
  | _ => exact .refl hs

theorem deepens_serve? {r? : Option Request} (hr : ∀ r ∈ r?, r.depth ≤ d) :
    s.Deepens d (serve? r? s).2 := by
  cases r? with
  | none => exact .refl hs
  | some r =>
    have hserve := deepens_serve hs (hr r rfl)
    unfold serve?
    dsimp only
    cases h : Session.serve r s <;> rw [h] at hserve <;> exact hserve

end

def Step.depth : Step → Nat
  | .interpret items => (Form.list items).depth
  | .respond f => f.depth
  | .serve r => r.depth
  | .call _ _ _ => 0
  | .define _ _ body => (Command.block body).depth
  | .callWith _ _ => 0

theorem Step.deepens_take (v : Validation) {d : Nat} {s : Session} (hs : s.registry.depth ≤ d)
    {step : Step} (hd : step.depth ≤ d) : s.Deepens d (step.take v s).2 := by
  cases step with
  | interpret items => exact deepens_interpret hs hd
  | respond f => exact deepens_respond hs hd
  | serve r => exact deepens_serve? hs fun _ hr => Option.some.inj hr ▸ hd
  | call style name arguments =>
    have hcall := deepens_call hs style name arguments
    unfold take
    dsimp only
    cases h : Session.call style name arguments s <;> rw [h] at hcall <;> exact hcall
  | define name arity body =>
    exact deepens_serve? hs fun r hr =>
      Nat.le_trans (Nat.le_of_eq (Request.depth_definition? hr)) hd
  | callWith name arguments =>
    exact deepens_serve? hs fun r hr =>
      Nat.le_trans (Nat.le_of_eq (Request.depth_call? hr)) (Nat.zero_le d)

def Step.depthAll : List Step → Nat
  | [] => 0
  | step :: steps => max step.depth (depthAll steps)

theorem deepens_steps (v : Validation) {d : Nat} {steps : List Step}
    (hd : Step.depthAll steps ≤ d) {s : Session} (hs : s.registry.depth ≤ d) :
    s.Deepens d (steps.mapM (Step.take v) s).2 := by
  induction steps generalizing s with
  | nil => exact .refl hs
  | cons step steps ih =>
    obtain ⟨hstep, hsteps⟩ := Nat.max_le.1 hd
    have hnow := Step.deepens_take v hs hstep
    rw [StateT.mapM_cons]
    exact hnow.trans (ih hsteps hnow.registry_le)

/-- However a session is used, no note nests deeper than what it has been asked for and what it
remembers. -/
theorem steps_addsWithin (v : Validation) (steps : List Step) (s : Session) :
    s.trace.AddsWithin (max s.registry.depth (Step.depthAll steps))
      (steps.mapM (Step.take v) s).2.trace :=
  (deepens_steps v (Nat.le_max_right _ _) (Nat.le_max_left _ _)).addsWithin

end Session
end StackLang
