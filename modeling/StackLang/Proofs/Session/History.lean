import StackLang.Proofs.Session.Service

namespace StackLang

namespace Request

theorem programFor?_eq_none {items : List Form} {name : String}
    (h : ∀ p, ofForms items ≠ .ok (.definition name p)) : programFor? name items = none := by
  cases hp : programFor? name items with
  | none => rfl
  | some p => exact absurd (ofForms_eq_definition.2 hp) (h p)

end Request

namespace Session

/-- The session after requests that came one after the other. -/
def after (s : Session) (requests : List (List Form)) : Session :=
  requests.foldl (fun s items => (interpret items s).2) s

/-- The program under a name after some requests: the one defined last, or else that of the
prelude. -/
def lastProgram? (withPrelude : Bool) (earlier : List (List Form)) (name : String) :
    Option Program :=
  (earlier.reverse.findSome? (Request.programFor? name)).or
    (if withPrelude then Registry.prelude.find? name else none)

/-- Requests of which some are left out that do not define a name. -/
inductive Thinned (name : String) : List (List Form) → List (List Form) → Prop
  | nil : Thinned name [] []
  | keep {items : List Form} {all kept : List (List Form)} :
    Thinned name all kept → Thinned name (items :: all) (items :: kept)
  | leaveOut {items : List Form} {all kept : List (List Form)} :
    Request.programFor? name items = none → Thinned name all kept →
      Thinned name (items :: all) kept

/-- A request that is no accepted definition leaves the registry as it is. -/
theorem registry_interpret_eq {items : List Form}
    (h : ∀ name, Request.programFor? name items = none) (s : Session) :
    (interpret items s).2.registry = s.registry := by
  cases ho : Request.ofForms items with
  | error e => exact (interpret_of_error ho s).2
  | ok r =>
    cases r with
    | call name arguments => exact (interpret_of_call ho s).2
    | definition name p =>
      have hp := Request.ofForms_eq_definition.1 ho
      rw [h name] at hp
      cases hp

theorem find?_interpret (items : List Form) (s : Session) (name : String) :
    (interpret items s).2.registry.find? name =
      (Request.programFor? name items).or (s.registry.find? name) := by
  by_cases hd : ∃ target p, Request.ofForms items = .ok (.definition target p)
  · obtain ⟨target, p, ho⟩ := hd
    rw [(interpret_of_definition ho s).2]
    by_cases ht : target = name
    · subst ht
      rw [Registry.find?_insert_self, Request.ofForms_eq_definition.1 ho, Option.some_or]
    · have hn : Request.programFor? name items = none := by
        apply Request.programFor?_eq_none
        intro q hq
        rw [ho] at hq
        cases hq
        exact ht rfl
      rw [Registry.find?_insert_ne _ (Ne.symm ht), hn, Option.none_or]
  · have hn (target : String) : Request.programFor? target items = none :=
      Request.programFor?_eq_none fun p ho => hd ⟨target, p, ho⟩
    rw [registry_interpret_eq hn, hn, Option.none_or]

theorem find?_after (requests : List (List Form)) (s : Session) (name : String) :
    (s.after requests).registry.find? name =
      (requests.reverse.findSome? (Request.programFor? name)).or (s.registry.find? name) := by
  induction requests generalizing s with
  | nil => rfl
  | cons items requests ih =>
    have hs : s.after (items :: requests) = (interpret items s).2.after requests := rfl
    rw [hs, ih, find?_interpret, List.reverse_cons, List.findSome?_append, Option.or_assoc]
    simp

theorem find?_after_start (withPrelude traced : Bool) (requests : List (List Form))
    (name : String) :
    ((start withPrelude traced).after requests).registry.find? name =
      lastProgram? withPrelude requests name := by
  rw [find?_after, lastProgram?]
  cases withPrelude <;> rfl

theorem Thinned.findSome?_eq {name : String} {all kept : List (List Form)}
    (h : Thinned name all kept) :
    all.reverse.findSome? (Request.programFor? name) =
      kept.reverse.findSome? (Request.programFor? name) := by
  induction h with
  | nil => rfl
  | keep _ ih => simp only [List.reverse_cons, List.findSome?_append, ih]
  | leaveOut hn _ ih => simp [List.findSome?_append, ih, hn]

/-- Under every name stands the program defined last, or else that of the prelude. No other request
changes the registry, and the answer to a call is that of the program found under its name; so it
stays the same if earlier requests are left out that do not define this name. -/
theorem registry_after_requests (withPrelude traced : Bool) :
    (∀ requests name, ((start withPrelude traced).after requests).registry.find? name =
      lastProgram? withPrelude requests name) ∧
    (∀ (s : Session) (items : List Form), (∀ name, Request.programFor? name items = none) →
      (interpret items s).2.registry = s.registry) ∧
    (∀ earlier name (arguments : List Int), name ≠ "def" →
      (interpret (.symbol name :: arguments.map .int)
          ((start withPrelude traced).after earlier)).1 =
        some (callAnswer name arguments (lastProgram? withPrelude earlier name))) ∧
    (∀ earlier kept name (arguments : List Int), name ≠ "def" → Thinned name earlier kept →
      (interpret (.symbol name :: arguments.map .int)
          ((start withPrelude traced).after earlier)).1 =
        (interpret (.symbol name :: arguments.map .int)
          ((start withPrelude traced).after kept)).1) := by
  refine ⟨find?_after_start withPrelude traced, fun s items h => registry_interpret_eq h s, ?_, ?_⟩
  · intro earlier name arguments hn
    rw [interpret_call _ hn, find?_after_start]
  · intro earlier kept name arguments hn ht
    rw [interpret_call _ hn, interpret_call _ hn, find?_after, find?_after, ht.findSome?_eq]

/-- A program is still there after a call that fails and a definition that is refused. -/
theorem registry_after_requests_double :
    (interpret [.symbol "double", .int 4] ((start true false).after
      [[.symbol "def", .symbol "double", .int 1, .int 2, .symbol "mul"], [.symbol "double"],
        [.symbol "def", .symbol "double", .int (-1), .int 9]])).1 = some "8" ∧
    (interpret [.symbol "double"] (start true false)).2.registry = Registry.prelude ∧
    (interpret [.symbol "double", .int 4] ((start true false).after
      [[.symbol "def", .symbol "double", .int 1, .int 2, .symbol "mul"], [.symbol "double"],
        [.symbol "def", .symbol "double", .int (-1), .int 9]])).1 =
      (interpret [.symbol "double", .int 4] ((start true false).after
        [[.symbol "def", .symbol "double", .int 1, .int 2, .symbol "mul"]])).1 := by
  obtain ⟨-, hr, ha, ht⟩ := registry_after_requests true false
  have hp : lastProgram? true
      [[.symbol "def", .symbol "double", .int 1, .int 2, .symbol "mul"], [.symbol "double"],
        [.symbol "def", .symbol "double", .int (-1), .int 9]] "double" =
      some ⟨1, [.int 2, .builtin (.primitive .mul)]⟩ := rfl
  refine ⟨?_, hr _ _ fun _ => rfl, ?_⟩
  · refine (ha _ "double" [4] (by decide)).trans ?_
    rw [hp]
    cbv
  · exact ht _ _ "double" [4] (by decide) (.keep (.leaveOut rfl (.leaveOut rfl .nil)))

end Session
end StackLang
