import StackLang.Proofs.Untyped.Reading
import StackLang.Proofs.Machine.Perform
import StackLang.Proofs.Session.Service

namespace StackLang
open Untyped (Object Checked Failure OperandM)

mutual

def Command.erase : Command → Object
  | .int n => .literal n
  | .builtin b => .builtin b
  | .block body => .block (eraseAll body)

def Command.eraseAll : List Command → List Object
  | [] => []
  | c :: cs => c.erase :: eraseAll cs

end

def Value.erase (v : Value) : Object := v.toCommand.erase

def Program.erase (p : Program) : Untyped.Program := ⟨p.arity, Command.eraseAll p.body⟩

def Registry.erase (r : Registry) : Untyped.Registry := fun name => (r.find? name).map Program.erase

def Request.erase : Request → Untyped.Request
  | .definition name p => .definition name p.erase
  | .call name arguments => .call name arguments

mutual

theorem Form.chars_erase : (f : Form) → f.erase.chars = f.chars
  | .int n => rfl
  | .float x => rfl
  | .symbol name => rfl
  | .text s => rfl
  | .list fs => by rw [erase, Object.chars, charsEach_eraseAll fs, chars]

theorem Form.charsEach_eraseAll : (fs : List Form) →
    Object.charsEach (eraseAll fs) = charsEach fs
  | [] => rfl
  | f :: fs => by rw [eraseAll, Object.charsEach, chars_erase f, charsEach_eraseAll fs, charsEach]

end

/-- A checked outcome that has no fault in it. -/
def Untyped.Checked.ofExcept {ε α β : Type} (cause : ε → Error) (image : α → β) :
    Except ε α → Checked β
  | .ok a => .ok (image a)
  | .error e => .error (.of (cause e))

open Untyped.Checked (ofExcept)

mutual

theorem Command.translate_erase : (f : Form) →
    f.erase.translate = ofExcept .code erase (ofForm f)
  | .int n => rfl
  | .float x => rfl
  | .symbol name => by
    rw [Form.erase, Object.translate, ofForm]
    cases Builtin.ofName name <;> rfl
  | .text s => rfl
  | .list fs => by
    rw [Form.erase, Object.translate, ofForm, translateAll_eraseAll fs]
    cases ofForms fs <;> rfl

theorem Command.translateAll_eraseAll : (fs : List Form) →
    Object.translateAll (Form.eraseAll fs) = ofExcept .code eraseAll (ofForms fs)
  | [] => rfl
  | f :: fs => by
    rw [Form.eraseAll, Object.translateAll, ofForms, translate_erase f, translateAll_eraseAll fs]
    cases ofForm f with
    | error e => rfl
    | ok c => cases ofForms fs <;> rfl

end

namespace OperandM

/-- An action on objects does to erased values what an action on a stack does to the values. -/
def Mirrors {α β : Type} (image : α → β) (x : StackM α) (y : OperandM β) : Prop :=
  ∀ s : Stack, y (s.map Value.erase) = match x s with
    | .ok a t => .ok (image a, t.map Value.erase)
    | .error e _ => .error (.of (.evaluation e))

theorem Mirrors.pure {α β : Type} {image : α → β} {a : α} {b : β} (h : image a = b) :
    Mirrors image (pure a) (pure b) := by
  subst h
  intro s
  rfl

theorem Mirrors.throw {α β : Type} {image : α → β} (e : EvaluationError) :
    Mirrors image (throw e) (throw (.of (.evaluation e))) := fun _ => rfl

theorem Mirrors.bind {α β γ δ : Type} {image : α → β} {image' : γ → δ} {x : StackM α}
    {y : OperandM β} {f : α → StackM γ} {g : β → OperandM δ} (hx : Mirrors image x y)
    (hf : ∀ a, Mirrors image' (f a) (g (image a))) : Mirrors image' (x >>= f) (y >>= g) := by
  intro s
  have hs := hx s
  change (y (s.map Value.erase)).bind _ = match EStateM.bind x f s with
    | .ok a t => .ok (image' a, t.map Value.erase)
    | .error e _ => .error (.of (.evaluation e))
  unfold EStateM.bind
  rw [hs]
  cases x s with
  | ok a t => exact hf a t
  | error e t => rfl

end OperandM

namespace Stack
open OperandM

theorem push_mirrors (v : Value) : Mirrors id (push v) (Untyped.push v.erase) := by
  cases v <;> exact fun _ => rfl

theorem pop_mirrors : Mirrors Value.erase pop Untyped.pop := by
  intro s
  cases s <;> rfl

theorem popInt_mirrors : Mirrors id popInt Untyped.popInteger :=
  pop_mirrors.bind fun v => by
    cases v with
    | int n => exact .pure rfl
    | block body => exact .throw _

theorem popBlock_mirrors : Mirrors Command.eraseAll popBlock Untyped.popBlock :=
  pop_mirrors.bind fun v => by
    cases v with
    | int n => exact .throw _
    | block body => exact .pure rfl

theorem swap_mirrors : Mirrors id swap Untyped.swap :=
  pop_mirrors.bind fun a => pop_mirrors.bind fun b =>
    (push_mirrors a).bind fun _ => push_mirrors b

theorem binary_mirrors (f : Int → Int → Except EvaluationError Int) :
    Mirrors id (binary f) (Untyped.binary f) :=
  popInt_mirrors.bind fun b => popInt_mirrors.bind fun a => by
    dsimp only [id]
    cases f a b with
    | ok n => exact push_mirrors (.int n)
    | error e => exact .throw e

theorem select_mirrors : Mirrors id select Untyped.select :=
  pop_mirrors.bind fun a => pop_mirrors.bind fun b => popInt_mirrors.bind fun n => by
    dsimp only [id]
    split
    · exact push_mirrors a
    · exact push_mirrors b

theorem getElem?_reverse_sub {s : Stack} {depth : Int} (hd : 1 ≤ depth) (hl : depth ≤ s.length) :
    s.reverse[((s.length : Int) - depth).toNat]? = s[(depth - 1).toNat]? := by
  have hlt : ((s.length : Int) - depth).toNat < s.length := by omega
  rw [List.getElem?_reverse hlt]
  congr 1
  omega

theorem numberAt_erase (s : Stack) (depth : Int) :
    Untyped.numberAt (s.map Value.erase) depth = match s.peek? depth with
      | none => .error (.of (.evaluation .notEnoughValues))
      | some (.block _) => .error (.of (.evaluation .notANumber))
      | some (.int n) => .ok (.literal n) := by
  unfold Untyped.numberAt peek?
  rw [List.length_map]
  dsimp only
  by_cases hd : depth < 1
  · rw [if_pos hd, if_neg (by omega)]
  · by_cases hl : depth ≤ s.length
    · rw [if_neg hd, if_pos (by omega), ← List.map_reverse, List.getElem?_map,
        getElem?_reverse_sub (by omega) hl]
      have hlt : (depth - 1).toNat < s.length := by omega
      rw [List.getElem?_eq_getElem hlt]
      cases s[(depth - 1).toNat] <;> rfl
    · rw [if_neg hd, if_neg (by omega), List.getElem?_eq_none (by omega)]

theorem nget_mirrors : Mirrors id nget Untyped.nget := by
  intro s
  rw [nget_eq]
  rcases s with _ | ⟨depth | body, s⟩
  · rfl
  · rw [List.map_cons, Value.erase, Value.toCommand, Command.erase, Untyped.nget_literal,
      numberAt_erase]
    dsimp only
    rcases peek? s depth with _ | ⟨_ | _⟩ <;> rfl
  · rfl

end Stack

theorem Primitive.apply_mirrors (p : Primitive) :
    OperandM.Mirrors id p.apply (Untyped.applyPrimitive p) := by
  cases p
  case pop =>
    intro s
    cases s <;> rfl
  case swap => exact Stack.swap_mirrors
  case sel => exact Stack.select_mirrors
  case nget => exact Stack.nget_mirrors
  all_goals
    unfold apply
    exact Stack.binary_mirrors _

theorem Command.perform_mirrors (c : Command) :
    OperandM.Mirrors (List.map eraseAll) c.perform (Untyped.perform c.erase) := by
  intro s
  rcases c with n | (_ | p) | body
  · rfl
  · have hs := Stack.popBlock_mirrors s
    rw [perform_exec]
    change (Untyped.popBlock (s.map Value.erase)).bind _ = _
    rw [hs]
    cases Stack.popBlock s <;> rfl
  · have hs := p.apply_mirrors s
    rw [perform_primitive]
    change (Untyped.applyPrimitive p (s.map Value.erase)).bind _ = _
    rw [hs]
    cases p.apply s <;> rfl
  · rfl

theorem Machine.evaluate_erase (m : Machine) (pieces : List (List Command)) :
    Untyped.evaluate (m.stack.map Value.erase) (pieces.map Command.eraseAll) =
      match (m.run pieces).onStack with
      | .ok _ s => .ok (s.map Value.erase)
      | .error e _ => .error (.of (.evaluation e)) := by
  induction m, pieces using run_induction with
  | finished m => rw [run_nil, List.map_nil, Untyped.evaluate]; rfl
  | exhausted m pieces ih =>
    rw [run_exhausted, ← ih, List.map_cons, Command.eraseAll, Untyped.evaluate]
  | performed m c rest pieces calls stack hc ih =>
    have h := c.perform_mirrors m.stack
    rw [hc] at h
    rw [run_of_perform_ok hc, ← ih, List.map_cons, Command.eraseAll, Untyped.evaluate, h]
    simp [evaluated]
  | failed m c rest pieces e stack hc =>
    have h := c.perform_mirrors m.stack
    rw [hc] at h
    rw [run_of_perform_error hc, List.map_cons, Command.eraseAll, Untyped.evaluate, h]
    rfl

namespace Program

theorem pushAll_eq (arguments : List Int) :
    Untyped.Program.pushAll arguments [] =
      .ok ((), (arguments.map Value.int).map Value.erase) := by
  induction arguments with
  | nil => rfl
  | cons n arguments ih =>
    change (Untyped.Program.pushAll arguments []).bind _ = _
    rw [ih]
    rfl

theorem result_erase (s : Stack) :
    Untyped.Program.result.run' (s.map Value.erase) = ofExcept .evaluation id s.result := by
  rcases s with _ | ⟨_ | _, s⟩ <;> rfl

theorem apply_erase (p : Program) (arguments : List Int) :
    p.erase.apply arguments = ofExcept id id (p.outcome arguments) := by
  have ha : p.erase.arity = p.arity := rfl
  rw [outcome, value_apply, Untyped.Program.apply, ha]
  by_cases hl : arguments.length = p.arity
  · have he := Machine.evaluate_erase ⟨arguments.map .int, .off⟩ [p.body]
    rw [if_pos hl, if_pos hl, pushAll_eq]
    change (Untyped.evaluate _ ([p.body].map Command.eraseAll)).bind _ = _
    rw [he, Machine.evaluate]
    cases (Machine.run ⟨arguments.map .int, .off⟩ [p.body]).onStack with
    | error e s => rfl
    | ok _ s =>
      change Untyped.Program.result.run' (s.map Value.erase) =
        ofExcept id id (s.result.mapError .evaluation)
      rw [result_erase]
      cases s.result <;> rfl
  · rw [if_neg hl, if_neg hl]
    rfl

end Program

namespace Request

theorem integers_erase (fs : List Form) :
    Untyped.Request.integers (Form.eraseAll fs) = ofExcept .request id (arguments fs) := by
  fun_induction arguments fs with
  | case1 => rfl
  | case2 n fs ih =>
    rw [Form.eraseAll, Form.erase, Untyped.Request.integers, ih]
    cases arguments fs <;> rfl
  | case3 f fs hf =>
    have hm : Failure.of (.request (.illegalArgumentType f)) =
        .error (Tag.illegalArgumentType.name ++ "(" ++ String.ofList f.erase.chars ++ ")") := by
      rw [Form.chars_erase]
      rfl
    change Untyped.Request.integers (f.erase :: Form.eraseAll fs) = .error _
    rw [hm]
    cases f with
    | int n => exact absurd rfl (hf n)
    | _ => rfl

section
variable {v : Validation} (hv : v.KeepsTyped)
include hv

theorem definition?_eq (name : String) (arity : Int) (body : List Object) :
    Untyped.Request.definition? v name arity body = .ok (.definition name ⟨arity, body⟩) := by
  rw [Untyped.Request.definition?, hv.name, hv.int]

theorem call?_eq (name : String) (numbers : List Int) :
    Untyped.Request.call? v name numbers = .ok (.call name numbers) := by
  rw [Untyped.Request.call?, hv.name, hv.ints]

theorem definitionOfObjects_erase (fs : List Form) :
    Untyped.Request.definitionOfObjects v (Form.eraseAll fs) =
      ofExcept id erase (definitionOfForms fs) := by
  rcases fs with _ | ⟨name, _ | ⟨arity, body⟩⟩
  · rfl
  · cases name <;> rfl
  · cases name with
    | symbol name =>
      cases arity with
      | int k =>
        rw [definitionOfForms, Form.eraseAll, Form.eraseAll, Form.erase, Form.erase,
          Untyped.Request.definitionOfObjects, Command.translateAll_eraseAll]
        split
        · rfl
        · cases Command.ofForms body with
          | error e => rfl
          | ok code => exact definition?_eq hv name k (Command.eraseAll code)
      | _ => rfl
    | _ => rfl

theorem ofObjects_erase (fs : List Form) :
    Untyped.Request.ofObjects v (Form.eraseAll fs) = ofExcept id erase (ofForms fs) := by
  rcases fs with _ | ⟨head, fs⟩
  · rfl
  · cases head with
    | symbol name =>
      rw [ofForms, Form.eraseAll, Form.erase, Untyped.Request.ofObjects]
      split
      · exact definitionOfObjects_erase hv fs
      · rw [integers_erase]
        cases arguments fs with
        | error e => rfl
        | ok numbers => exact call?_eq hv name numbers
    | _ => rfl

end
end Request

namespace Registry

theorem erase_insert (r : Registry) (name : String) (p : Program) :
    (r.insert name p).erase =
      fun other => if other = name then some p.erase else r.erase other := by
  funext other
  by_cases h : other = name
  · subst h
    rw [erase, find?_insert_self, if_pos rfl]
    rfl
  · rw [erase, find?_insert_ne r h, if_neg h]
    rfl

end Registry

theorem Session.serve_call_erase (r : Registry) (name : String) (arguments : List Int) :
    Untyped.serve r.erase (.call name arguments) =
      (.ok (some (callAnswer name arguments (r.find? name))), r.erase) := by
  have he : r.erase name = (r.find? name).map Program.erase := rfl
  rw [Untyped.serve, he]
  cases r.find? name with
  | none => rfl
  | some p =>
    dsimp only [Option.map_some, callAnswer]
    rw [Program.apply_erase]
    cases p.outcome arguments <;> rfl

/-- Without types a request has the same answer and leaves the same registry. -/
theorem Session.interpret_erase {v : Validation} (hv : v.KeepsTyped) (items : List Form)
    (s : Session) :
    Untyped.interpret v s.registry.erase (Form.list items).erase =
      (.ok (interpret items s).1, (interpret items s).2.registry.erase) := by
  have hr := Request.ofObjects_erase hv items
  rw [Form.erase, Untyped.interpret, hr]
  cases ho : Request.ofForms items with
  | error e =>
    obtain ⟨ha, hs⟩ := interpret_of_error ho s
    rw [ha, hs]
    rfl
  | ok r =>
    cases r with
    | definition name p =>
      obtain ⟨ha, hs⟩ := interpret_of_definition ho s
      rw [ha, hs, Registry.erase_insert]
      rfl
    | call name arguments =>
      obtain ⟨ha, hs⟩ := interpret_of_call ho s
      rw [ha, hs]
      exact serve_call_erase s.registry name arguments

end StackLang
