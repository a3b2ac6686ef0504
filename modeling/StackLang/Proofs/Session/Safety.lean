import StackLang.Proofs.Untyped.Lockstep
import StackLang.Proofs.Reader.Layout

namespace StackLang

/-- The registries that arise when lists are read from texts and given to the service. -/
inductive Untyped.Reachable (v : Validation) (withPrelude : Bool) : Untyped.Registry → Prop
  | start : Reachable v withPrelude (Session.start withPrelude false).registry.erase
  | interpret {r : Untyped.Registry} {text : String} {objects items : List Untyped.Object} :
      Reachable v withPrelude r → Untyped.readText text = .ok objects → .list items ∈ objects →
      Reachable v withPrelude (Untyped.interpret v r (.list items)).2

theorem exists_forms_of_readText {text : String} {objects : List Untyped.Object}
    (h : Untyped.readText text = .ok objects) :
    ∃ forms, readText text = .ok forms ∧ objects = forms.map Form.erase := by
  rw [readText_erase] at h
  cases ht : readText text with
  | error e =>
    rw [ht] at h
    cases h
  | ok forms =>
    rw [ht] at h
    cases h
    exact ⟨forms, rfl, rfl⟩

theorem Form.erase_eq_list {f : Form} {items : List Untyped.Object} (h : f.erase = .list items) :
    ∃ forms, f = .list forms := by
  cases f with
  | list forms => exact ⟨forms, rfl⟩
  | _ => cases h

theorem Untyped.Reachable.exists_session {v : Validation} (hv : v.KeepsTyped) {withPrelude : Bool}
    {r : Untyped.Registry} (h : Reachable v withPrelude r) :
    ∃ s : Session, s.registry.erase = r := by
  induction h with
  | start => exact ⟨Session.start withPrelude false, rfl⟩
  | interpret _ ht hx ih =>
    obtain ⟨s, rfl⟩ := ih
    obtain ⟨forms, -, rfl⟩ := exists_forms_of_readText ht
    obtain ⟨f, -, hf⟩ := List.mem_map.1 hx
    obtain ⟨items, rfl⟩ := Form.erase_eq_list hf
    rw [← hf, Session.interpret_erase hv]
    exact ⟨_, rfl⟩

namespace Session

/-- An error is not to be taken for a number: its text begins with a letter. -/
theorem answer_ne_numeral (e : Error) (n : Int) :
    e.answer ≠ String.ofList (Decimal.numeral n) := by
  intro h
  have hl : "error: ".toList ++ e.message.toList = Decimal.numeral n := by
    rw [← String.toList_append, ← String.toList_ofList (l := Decimal.numeral n), ← h]
    rfl
  have hn := Grammar.value?_numeral n
  rw [← hl] at hn
  cases hn

theorem numeral_injective {m n : Int}
    (h : String.ofList (Decimal.numeral m) = String.ofList (Decimal.numeral n)) : m = n := by
  have hm := Grammar.value?_numeral m
  rw [String.ofList_injective h, Grammar.value?_numeral] at hm
  exact (Option.some.inj hm).symm

theorem answer_eq_none (items : List Form) (s : Session) :
    (interpret items s).1 = none ↔ ∃ name p, Request.programFor? name items = some p := by
  constructor
  · intro h
    cases ho : Request.ofForms items with
    | error e =>
      rw [(interpret_of_error ho s).1] at h
      cases h
    | ok r =>
      cases r with
      | definition name p => exact ⟨name, p, Request.ofForms_eq_definition.1 ho⟩
      | call name arguments =>
        rw [(interpret_of_call ho s).1] at h
        cases h
  · rintro ⟨name, p, hp⟩
    exact (interpret_of_definition (Request.ofForms_eq_definition.2 hp) s).1

theorem callAnswer_eq_numeral {name : String} {arguments : List Int} {entry : Option Program}
    {n : Int} : callAnswer name arguments entry = String.ofList (Decimal.numeral n) ↔
      ∃ p, entry = some p ∧ p.outcome arguments = .ok n := by
  cases entry with
  | none => simp [callAnswer, answer_ne_numeral]
  | some p =>
    rw [callAnswer]
    cases ho : p.outcome arguments with
    | error e => simp [answer_ne_numeral, ho]
    | ok m =>
      constructor
      · intro h
        exact ⟨p, rfl, by rw [ho, numeral_injective h]⟩
      · rintro ⟨q, hq, hn⟩
        cases hq
        rw [ho] at hn
        cases hn
        rfl

theorem answer_eq_numeral (items : List Form) (s : Session) (n : Int) :
    (interpret items s).1 = some (String.ofList (Decimal.numeral n)) ↔
      ∃ name arguments p, name ≠ "def" ∧ items = .symbol name :: arguments.map .int ∧
        s.registry.find? name = some p ∧ p.outcome arguments = .ok n := by
  constructor
  · intro h
    cases ho : Request.ofForms items with
    | error e =>
      rw [(interpret_of_error ho s).1] at h
      exact absurd (Option.some.inj h) (answer_ne_numeral e n)
    | ok r =>
      cases r with
      | definition name p =>
        rw [(interpret_of_definition ho s).1] at h
        cases h
      | call name arguments =>
        rw [(interpret_of_call ho s).1] at h
        obtain ⟨p, hp, hn⟩ := callAnswer_eq_numeral.1 (Option.some.inj h)
        obtain ⟨hd, hi⟩ := Request.ofForms_eq_call.1 ho
        exact ⟨name, arguments, p, hd, hi, hp, hn⟩
  · rintro ⟨name, arguments, p, hd, rfl, hp, hn⟩
    rw [interpret_call s hd, callAnswer_eq_numeral.2 ⟨p, hp, hn⟩]

theorem answer_cases (items : List Form) (s : Session) :
    (interpret items s).1 = none ∨
    (∃ n, (interpret items s).1 = some (String.ofList (Decimal.numeral n))) ∨
    ∃ e : Error, (interpret items s).1 = some ("error: " ++ e.message) := by
  cases ho : Request.ofForms items with
  | error e => exact .inr (.inr ⟨e, (interpret_of_error ho s).1⟩)
  | ok r =>
    cases r with
    | definition name p => exact .inl (interpret_of_definition ho s).1
    | call name arguments =>
      have ha := (interpret_of_call ho s).1
      cases hp : s.registry.find? name with
      | none =>
        rw [hp] at ha
        exact .inr (.inr ⟨_, ha⟩)
      | some p =>
        rw [hp, callAnswer] at ha
        cases hn : p.outcome arguments with
        | ok n =>
          rw [hn] at ha
          exact .inr (.inl ⟨n, ha⟩)
        | error e =>
          rw [hn] at ha
          exact .inr (.inr ⟨e, ha⟩)

/-- Let names, numbers and rows of numbers pass validation as they are. Whatever has been read from
texts and served before is what some session has, and what is read next are forms without a comment
in them. Every list among them is answered without a fault, as that session answers it: not at all
if it is an accepted definition, with a number if it is a call whose program returns that number,
and with an error otherwise. -/
theorem interpret_without_fault {v : Validation} (hv : v.KeepsTyped) (withPrelude : Bool)
    {r : Untyped.Registry} (hr : Untyped.Reachable v withPrelude r) {text : String}
    {objects : List Untyped.Object} (ht : Untyped.readText text = .ok objects) :
    (∃ s : Session, s.registry.erase = r) ∧
    ∃ forms, readText text = .ok forms ∧ objects = forms.map Form.erase ∧
      ∀ items, .list items ∈ forms → ∀ s : Session, s.registry.erase = r →
        Untyped.interpret v r (Form.list items).erase =
          (.ok (interpret items s).1, (interpret items s).2.registry.erase) ∧
        ((interpret items s).1 = none ↔ ∃ name p, Request.programFor? name items = some p) ∧
        (∀ n, (interpret items s).1 = some (String.ofList (Decimal.numeral n)) ↔
          ∃ name arguments p, name ≠ "def" ∧ items = .symbol name :: arguments.map .int ∧
            s.registry.find? name = some p ∧ p.outcome arguments = .ok n) ∧
        ((interpret items s).1 = none ∨
          (∃ n, (interpret items s).1 = some (String.ofList (Decimal.numeral n))) ∨
          ∃ e : Error, (interpret items s).1 = some ("error: " ++ e.message)) := by
  obtain ⟨forms, hf, ho⟩ := exists_forms_of_readText ht
  refine ⟨hr.exists_session hv, forms, hf, ho, ?_⟩
  rintro items - s rfl
  exact ⟨interpret_erase hv items s, answer_eq_none items s, answer_eq_numeral items s,
    answer_cases items s⟩

/-- A call with a comment inside it. -/
theorem interpret_without_fault_subtraction :
    (Untyped.interpret Field.validation (start true false).registry.erase
      (.list [.symbol "sub", .int 7, .int 2])).1 = .ok (some "5") := by
  have hgap : Gap " ;(\n".toList := .intro rfl (@Filler.comment ['('] [] (by decide) .nil)
  have ht : readText (String.ofList "(sub ;(\n7 2)".toList) =
      .ok [.list [.symbol "sub", .int 7, .int 2]] :=
    readText_layout (by decide) ⟨[], _, [], .inl rfl, .singleton (.list (.inl rfl)
      (.cons (.symbol "sub") hgap (.cons (.int 7) gap_space (.singleton (.int 2)))) (.inl rfl)),
      .inl rfl, by decide⟩
  have he : Untyped.readText (String.ofList "(sub ;(\n7 2)".toList) =
      .ok [.list [.symbol "sub", .int 7, .int 2]] := by
    rw [readText_erase, ht]
    rfl
  obtain ⟨-, forms, hf, -, hs⟩ :=
    interpret_without_fault Field.validation_keepsTyped true .start he
  cases ht.symm.trans hf
  obtain ⟨hi, -, hn, -⟩ := hs _ List.mem_cons_self (start true false) rfl
  have ha := (hn 5).2 ⟨"sub", [7, 2],
    ⟨2, [.builtin (.primitive .swap), .builtin (.primitive .sub)]⟩, by decide, rfl, rfl, by cbv⟩
  rw [ha] at hi
  exact congrArg Prod.fst hi

end Session
end StackLang
