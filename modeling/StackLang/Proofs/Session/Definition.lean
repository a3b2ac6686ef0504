import StackLang.Proofs.Session.Safety

namespace StackLang

/-- A list that begins with `def` is taken for a definition even where a program of that name could
be called; numbers alone define nothing. -/
theorem Request.ofForms_def_numbers (numbers : List Int) :
    ofForms (.symbol "def" :: numbers.map .int) =
      .error (.request (if numbers.length < 2 then .notEnoughArgs "def" else .notASymbol)) := by
  rw [ofForms, if_pos rfl]
  rcases numbers with _ | ⟨m, _ | ⟨n, numbers⟩⟩
  · rfl
  · rfl
  · have hl : ¬(m :: n :: numbers).length < 2 := by
      simp only [List.length_cons]
      omega
    rw [if_neg hl]
    rfl

namespace Session

/-- A list without an answer defines a program, which can be called at once with as many numbers as
it takes: the answer is the result of its body on these numbers, or the error that it ends with.
Only under the name `def` it cannot be called: such a call is taken for a definition, and for none
that could be accepted. -/
theorem call_after_definition (s : Session) {items : List Form}
    (h : (interpret items s).1 = none) :
    ∃ (name : String) (k : Nat) (body : List Form) (code : List Command),
      items = .symbol "def" :: .symbol name :: .int k :: body ∧
      Command.ofForms body = .ok code ∧
      ∀ arguments : List Int, arguments.length = k →
        (name ≠ "def" →
          (interpret (.symbol name :: arguments.map .int) (interpret items s).2).1 =
            some (callAnswer name arguments (some ⟨k, code⟩))) ∧
        (name = "def" →
          (interpret (.symbol name :: arguments.map .int) (interpret items s).2).1 =
            some (if k < 2 then "error: NotEnoughArgs(\"def\")" else "error: NotASymbol")) := by
  obtain ⟨name, ⟨arity, code⟩, hp⟩ := (answer_eq_none items s).1 h
  obtain ⟨body, rfl, harity, hcode⟩ := Request.programFor?_eq_some.1 hp
  obtain ⟨k, rfl⟩ := Int.eq_ofNat_of_zero_le harity
  have hdefined := (interpret_of_definition (Request.ofForms_eq_definition.2 hp) s).2
  refine ⟨name, k, body, code, rfl, hcode, fun arguments hl => ⟨fun hn => ?_, ?_⟩⟩
  · rw [interpret_call _ hn, hdefined, Registry.find?_insert_self]
  · rintro rfl
    rw [(interpret_of_error (Request.ofForms_def_numbers arguments) _).1, hl]
    split <;> rfl

/-- The program of the prelude is replaced first. -/
theorem call_after_definition_subtraction :
    (interpret [.symbol "def", .symbol "sub", .int 2, .symbol "sub"] (start true false)).1 = none ∧
    (interpret [.symbol "sub", .int 7, .int 2] (interpret
      [.symbol "def", .symbol "sub", .int 2, .symbol "sub"] (start true false)).2).1 =
        some "-5" := by
  refine ⟨rfl, ?_⟩
  obtain ⟨name, k, body, code, hitems, hcode, hcall⟩ := call_after_definition (start true false)
    (show (interpret [.symbol "def", .symbol "sub", .int 2, .symbol "sub"] _).1 = none from rfl)
  obtain ⟨rfl, hk, rfl⟩ : "sub" = name ∧ (2 : Int) = k ∧ [Form.symbol "sub"] = body := by
    simpa using hitems
  obtain rfl : k = 2 := by omega
  cases hcode
  refine ((hcall [7, 2] rfl).1 (by decide)).trans ?_
  cbv

/-- A program named `def` is accepted, but its call is not answered with what it returns. -/
theorem definition_of_def :
    (interpret [.symbol "def", .symbol "def", .int 0, .int 7] (start false false)).1 = none ∧
    Command.ofForms [.int 7] = .ok [.int 7] ∧
    callAnswer "def" [] (some ⟨0, [.int 7]⟩) = "7" ∧
    (interpret [.symbol "def"] (interpret
      [.symbol "def", .symbol "def", .int 0, .int 7] (start false false)).2).1 ≠
        some (callAnswer "def" [] (some ⟨0, [.int 7]⟩)) := by
  have hanswer : callAnswer "def" [] (some ⟨0, [.int 7]⟩) = "7" := by cbv
  refine ⟨rfl, rfl, hanswer, ?_⟩
  rw [hanswer]
  decide +kernel

end Session
end StackLang
