import StackLang.Proofs.Program.Outcome
import StackLang.Session

namespace StackLang

namespace Request

/-- The program that a list defines under a name, if it is a definition of that name with a number
of arguments that can be given and a body that is code. -/
def programFor? (name : String) : List Form → Option Program
  | .symbol head :: .symbol target :: .int arity :: body =>
    if head = "def" ∧ target = name ∧ 0 ≤ arity then
      (Command.ofForms body).toOption.map (Program.mk arity)
    else none
  | _ => none

theorem arguments_map_int (numbers : List Int) :
    arguments (numbers.map .int) = .ok numbers := by
  induction numbers with
  | nil => rfl
  | cons n numbers ih =>
    rw [List.map_cons, arguments, ih]
    rfl

theorem eq_map_int_of_arguments {forms : List Form} {numbers : List Int}
    (h : arguments forms = .ok numbers) : forms = numbers.map .int := by
  fun_induction arguments forms generalizing numbers with
  | case1 => cases h; rfl
  | case2 n forms ih =>
    cases hr : arguments forms with
    | error e => rw [hr] at h; cases h
    | ok rest =>
      rw [hr] at h
      cases h
      rw [ih hr, List.map_cons]
  | case3 => cases h

theorem definitionOfForms_ne_call (forms : List Form) (name : String) (numbers : List Int) :
    definitionOfForms forms ≠ .ok (.call name numbers) := by
  intro h
  unfold definitionOfForms at h
  split at h
  · split at h
    · cases h
    · split at h <;> cases h
  all_goals cases h

theorem ofForms_eq_call {items : List Form} {name : String} {numbers : List Int} :
    ofForms items = .ok (.call name numbers) ↔
      name ≠ "def" ∧ items = .symbol name :: numbers.map .int := by
  constructor
  · intro h
    unfold ofForms at h
    split at h
    · cases h
    · next head forms =>
      split at h
      · exact absurd h (definitionOfForms_ne_call _ _ _)
      · next hd =>
        split at h
        · next numbers' ha =>
          cases h
          exact ⟨hd, by rw [eq_map_int_of_arguments ha]⟩
        · cases h
    · cases h
  · rintro ⟨hd, rfl⟩
    rw [ofForms, if_neg hd, arguments_map_int]

theorem programFor?_eq_some {name : String} {items : List Form} {p : Program} :
    programFor? name items = some p ↔ ∃ body,
      items = .symbol "def" :: .symbol name :: .int p.arity :: body ∧ 0 ≤ p.arity ∧
        Command.ofForms body = .ok p.body := by
  constructor
  · intro h
    unfold programFor? at h
    split at h
    · next head target arity body =>
      split at h
      · next hc =>
        obtain ⟨rfl, rfl, ha⟩ := hc
        cases hb : Command.ofForms body with
        | error e => rw [hb] at h; cases h
        | ok code =>
          rw [hb] at h
          cases h
          exact ⟨body, rfl, ha, hb⟩
      · cases h
    · cases h
  · rintro ⟨body, rfl, ha, hb⟩
    rw [programFor?, if_pos ⟨rfl, rfl, ha⟩, hb]
    rfl

theorem definition_of_definitionOfForms {forms : List Form} {name : String} {p : Program}
    (h : definitionOfForms forms = .ok (.definition name p)) :
    ∃ body, forms = .symbol name :: .int p.arity :: body ∧ 0 ≤ p.arity ∧
      Command.ofForms body = .ok p.body := by
  unfold definitionOfForms at h
  split at h
  · next target arity body =>
    split at h
    · cases h
    · next ha =>
      split at h
      · next code hb =>
        cases h
        exact ⟨body, rfl, Int.not_lt.1 ha, hb⟩
      · cases h
  all_goals cases h

theorem ofForms_eq_definition {items : List Form} {name : String} {p : Program} :
    ofForms items = .ok (.definition name p) ↔ programFor? name items = some p := by
  rw [programFor?_eq_some]
  constructor
  · intro h
    unfold ofForms at h
    split at h
    · cases h
    · split at h
      · next hd =>
        obtain ⟨body, rfl, ha, hb⟩ := definition_of_definitionOfForms h
        exact ⟨body, by rw [hd], ha, hb⟩
      · split at h <;> cases h
    · cases h
  · rintro ⟨body, rfl, ha, hb⟩
    rw [ofForms, if_pos rfl, definitionOfForms, if_neg (by omega), hb]

end Request

namespace Session

def callAnswer (name : String) (arguments : List Int) : Option Program → String
  | none => (Error.request (.programNotFound name)).answer
  | some p =>
    match p.outcome arguments with
    | .ok n => String.ofList (Decimal.numeral n)
    | .error e => e.answer

theorem interpret_of_definition {items : List Form} {name : String} {p : Program}
    (h : Request.ofForms items = .ok (.definition name p)) (s : Session) :
    (interpret items s).1 = none ∧ (interpret items s).2.registry = s.registry.insert name p := by
  unfold interpret
  simp only [h]
  exact ⟨rfl, rfl⟩

theorem interpret_of_error {items : List Form} {e : Error} (h : Request.ofForms items = .error e)
    (s : Session) :
    (interpret items s).1 = some e.answer ∧ (interpret items s).2.registry = s.registry := by
  unfold interpret
  rw [h]
  exact ⟨rfl, rfl⟩

theorem call_cases (style : ArgumentStyle) (name : String) (arguments : List Int) (s : Session) :
    (∃ n t, call style name arguments s = .ok n t ∧ t.registry = s.registry ∧
      callAnswer name arguments (s.registry.find? name) = String.ofList (Decimal.numeral n)) ∨
    (∃ e t, call style name arguments s = .error e t ∧ t.registry = s.registry ∧
      callAnswer name arguments (s.registry.find? name) = e.answer) := by
  unfold call
  cases hf : s.registry.find? name with
  | none => exact .inr ⟨_, s, rfl, rfl, rfl⟩
  | some p =>
    have ho := p.value_apply_eq_outcome style arguments s.trace
    dsimp only [callAnswer]
    rw [← ho]
    cases p.apply style arguments s.trace with
    | ok n trace => exact .inl ⟨n, _, rfl, rfl, rfl⟩
    | error e trace => exact .inr ⟨e, _, rfl, rfl, rfl⟩

theorem serve_call (name : String) (arguments : List Int) (s : Session) :
    serve (.call name arguments) s =
      match call .tuple name arguments (s.record (.call name arguments)) with
      | .ok n t => .ok (some n) t
      | .error e t => .error e t := by
  change EStateM.bind (call .tuple name arguments) (fun n => pure (some n)) _ = _
  unfold EStateM.bind
  cases call .tuple name arguments (s.record (.call name arguments)) <;> rfl

theorem interpret_of_call {items : List Form} {name : String} {arguments : List Int}
    (h : Request.ofForms items = .ok (.call name arguments)) (s : Session) :
    (interpret items s).1 = some (callAnswer name arguments (s.registry.find? name)) ∧
      (interpret items s).2.registry = s.registry := by
  unfold interpret
  rw [h]
  dsimp only
  rw [serve_call]
  obtain ⟨n, t, hc, ht, ha⟩ | ⟨e, t, hc, ht, ha⟩ := call_cases .tuple name arguments
    ((s.record (.request items false)).record (.call name arguments))
  · rw [hc]
    exact ⟨congrArg some ha.symm, ht⟩
  · rw [hc]
    exact ⟨congrArg some ha.symm, ht⟩

theorem interpret_call (s : Session) {name : String} (hn : name ≠ "def") (arguments : List Int) :
    (interpret (.symbol name :: arguments.map .int) s).1 =
      some (callAnswer name arguments (s.registry.find? name)) :=
  (interpret_of_call (Request.ofForms_eq_call.2 ⟨hn, rfl⟩) s).1

end Session
end StackLang
