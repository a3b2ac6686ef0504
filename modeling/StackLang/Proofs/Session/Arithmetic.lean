import StackLang.Proofs.Command.Source
import StackLang.Proofs.Program.Arguments
import StackLang.Proofs.Session.Service

namespace StackLang

def callText (name ta tb : String) : String :=
  "(" ++ name ++ " " ++ ta ++ " " ++ tb ++ ")"

theorem readText_callText {name : String} (hname : Form.isName name.toList = true)
    {ta tb : String} {a b : Int} (ha : Decimal.value? ta.toList = some a)
    (hb : Decimal.value? tb.toList = some b) :
    readText (callText name ta tb) = .ok [.list [.symbol name, .int a, .int b]] := by
  have htext : callText name ta tb =
      String.ofList ('(' :: (name.toList ++ ' ' :: (ta.toList ++ ' ' :: (tb.toList ++ [')'])))) :=
    String.toList_injective (by simp [callText])
  have hlist : Grammar.read true
      (name.toList ++ ' ' :: (ta.toList ++ ' ' :: (tb.toList ++ [')']))) =
        .ok ([.symbol name, .int a, .int b], []) := by
    change Grammar.read true ((Form.symbol name).chars ++ _) = _
    rw [Grammar.read_symbol hname rfl, Grammar.read_blank rfl, Grammar.read_decimal ha rfl,
      Grammar.read_blank rfl, Grammar.read_decimal hb rfl, Grammar.read_close]
    rfl
  rw [htext]
  apply @readText_eq_ok _ []
  rw [Grammar.read_list, hlist]
  change Grammar.before _ (Grammar.read false []) = _
  rw [Grammar.read_nil]
  rfl

namespace Primitive

def inPrelude : List Primitive := [.add, .sub, .mul, .div, .rem, .eq, .gt, .lt]

/-- What a program of the prelude does to its arguments. -/
def swapped (p : Primitive) : List Command :=
  [.builtin (.primitive .swap), .builtin (.primitive p)]

theorem find?_prelude {p : Primitive} (hp : p ∈ inPrelude) :
    Registry.prelude.find? p.name = some ⟨2, p.swapped⟩ := by
  simp only [inPrelude, List.mem_cons, List.not_mem_nil, or_false] at hp
  rcases hp with rfl | rfl | rfl | rfl | rfl | rfl | rfl | rfl <;> rfl

/-- The second argument ends up on top, so that it is the right operand. -/
theorem outcome_swapped (p : Primitive) (a b : Int) :
    Program.outcome ⟨2, p.swapped⟩ [a, b] =
      (StackRun.result (p.apply [.int b, .int a])).mapError .evaluation := by
  have hrun : Folds [.int a, .int b] p.swapped (p.apply [.int b, .int a]) := by
    cases h : p.apply [.int b, .int a] with
    | ok _ s => exact .apply rfl (.apply h (.done s))
    | error e s => exact .apply rfl (.applyFails h)
  rw [Program.outcome_of_length_eq rfl .off, ← Machine.onStack_of_folds hrun .off]
  rfl

end Primitive

namespace Session

def calculate (traced : Bool) (name ta tb : String) : Option String :=
  match readText (callText name ta tb) with
  | .ok [.list items] => (interpret items (start true traced)).1
  | _ => none

section
variable {p : Primitive} {ta tb : String} {a b : Int}

theorem calculate_eq (hp : p ∈ Primitive.inPrelude) (ha : Decimal.value? ta.toList = some a)
    (hb : Decimal.value? tb.toList = some b) (traced : Bool) :
    calculate traced p.name ta tb =
      some (callAnswer p.name [a, b] (some ⟨2, p.swapped⟩)) := by
  have hn : p.name ≠ "def" := by cases p <;> decide
  have hc := interpret_call (start true traced) hn [a, b]
  have hf : (start true traced).registry.find? p.name = some ⟨2, p.swapped⟩ :=
    Primitive.find?_prelude hp
  rw [hf] at hc
  have hname : Form.isName p.name.toList = true := (Builtin.primitive p).isName_name
  rw [calculate, readText_callText hname ha hb]
  exact hc

theorem calculate_of_yields (hp : p ∈ Primitive.inPrelude) {n : Int}
    (h : p.Yields [.int b, .int a] [] [.int n]) (ha : Decimal.value? ta.toList = some a)
    (hb : Decimal.value? tb.toList = some b) (traced : Bool) :
    calculate traced p.name ta tb = some (String.ofList (Decimal.numeral n)) := by
  have hr : p.apply [.int b, .int a] = .ok () [.int n] := Primitive.apply_of_yields h
  rw [calculate_eq hp ha hb, callAnswer, Primitive.outcome_swapped, hr]
  rfl

theorem calculate_of_refuses (hp : p ∈ Primitive.inPrelude) {e : EvaluationError}
    (h : p.Refuses [.int b, .int a] [] e) (ha : Decimal.value? ta.toList = some a)
    (hb : Decimal.value? tb.toList = some b) (traced : Bool) :
    calculate traced p.name ta tb = some (Error.evaluation e).answer := by
  have hr : p.apply [.int b, .int a] = .error e [] := Primitive.apply_of_refuses h
  rw [calculate_eq hp ha hb, callAnswer, Primitive.outcome_swapped, hr]
  rfl

/-- Two numbers, however they are written, make a call of a program of the prelude that is answered
with the canonical numeral of the sum, the difference and so on, the first number being the left
operand. Division has one quotient and one remainder, unless the divisor is zero. -/
theorem prelude_arithmetic (ha : Decimal.value? ta.toList = some a)
    (hb : Decimal.value? tb.toList = some b) (traced : Bool) :
    calculate traced "add" ta tb = some (String.ofList (Decimal.numeral (a + b))) ∧
    calculate traced "sub" ta tb = some (String.ofList (Decimal.numeral (a - b))) ∧
    calculate traced "mul" ta tb = some (String.ofList (Decimal.numeral (a * b))) ∧
    calculate traced "eq" ta tb = some (if a = b then "1" else "0") ∧
    calculate traced "gt" ta tb = some (if a > b then "1" else "0") ∧
    calculate traced "lt" ta tb = some (if a < b then "1" else "0") ∧
    (b ≠ 0 → ∃ q r, Truncates a b q r ∧ (∀ q' r', Truncates a b q' r' → q' = q ∧ r' = r) ∧
      calculate traced "div" ta tb = some (String.ofList (Decimal.numeral q)) ∧
      calculate traced "rem" ta tb = some (String.ofList (Decimal.numeral r))) ∧
    (b = 0 → calculate traced "div" ta tb = some "error: DivisionByZero" ∧
      calculate traced "rem" ta tb = some "error: DivisionByZero") := by
  have hyields (p : Primitive) (hp : p ∈ Primitive.inPrelude) {n : Int}
      (h : p.Yields [.int b, .int a] [] [.int n]) := calculate_of_yields hp h ha hb traced
  have hrefuses (p : Primitive) (hp : p ∈ Primitive.inPrelude)
      (h : p.Refuses [.int b, .int a] [] .divisionByZero) := calculate_of_refuses hp h ha hb traced
  have htruth (c : Prop) [Decidable c] :
      String.ofList (Decimal.numeral (if c then 1 else 0)) = if c then "1" else "0" := by
    split <;> decide
  refine ⟨hyields .add (by decide) (.add a b []), hyields .sub (by decide) (.sub a b []),
    hyields .mul (by decide) (.mul a b []), ?_, ?_, ?_, fun hz => ?_, ?_⟩
  · rw [← htruth]
    exact hyields .eq (by decide) (.eq a b [])
  · rw [← htruth]
    exact hyields .gt (by decide) (.gt a b [])
  · rw [← htruth]
    exact hyields .lt (by decide) (.lt a b [])
  · have ht := truncates_tdiv a hz
    exact ⟨a.tdiv b, a.tmod b, ht, fun _ _ h => ht.unique h, hyields .div (by decide) (.div [] ht),
      hyields .rem (by decide) (.rem [] ht)⟩
  · rintro rfl
    exact ⟨hrefuses .div (by decide) (.div a []), hrefuses .rem (by decide) (.rem a [])⟩

end

/-- A sign and zeros in front of a number, a quotient and a remainder that are negative, and a
divisor that is zero. -/
theorem prelude_arithmetic_negative :
    calculate false "sub" "-7" "+02" = some "-9" ∧
    calculate false "div" "-7" "+02" = some "-3" ∧
    calculate false "rem" "-7" "+02" = some "-1" ∧
    calculate false "rem" "-7" "0" = some "error: DivisionByZero" := by
  have ha : Decimal.value? "-7".toList = some (-7) := by decide
  have hb : Decimal.value? "+02".toList = some 2 := by decide
  have hz : Decimal.value? "0".toList = some 0 := by decide
  obtain ⟨-, hsub, -, -, -, -, hdiv, -⟩ := prelude_arithmetic ha hb false
  obtain ⟨q, r, -, hone, hq, hr⟩ := hdiv (by decide)
  obtain ⟨rfl, rfl⟩ := hone (-3) (-1) ⟨by decide, by decide, by decide⟩
  obtain ⟨-, -, -, -, -, -, -, hzero⟩ := prelude_arithmetic ha hz false
  exact ⟨hsub, hq, hr, (hzero rfl).2⟩

end Session
end StackLang
