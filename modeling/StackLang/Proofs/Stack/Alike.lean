import Mathlib.Data.List.Forall2
import StackLang.Proofs.Stack.Operations

namespace StackLang

/-- The same number, or two blocks that are related by `R`. -/
inductive Value.Alike (R : List Command → List Command → Prop) : Value → Value → Prop
  | int (n : Int) : Alike R (.int n) (.int n)
  | block {body body' : List Command} : R body body' → Alike R (.block body) (.block body')

/-- Stacks of one height with values that are alike at every depth. -/
abbrev Stack.Alike (R : List Command → List Command → Prop) : Stack → Stack → Prop :=
  List.Forall₂ (Value.Alike R)

theorem Stack.Alike.refl {R : List Command → List Command → Prop} (hR : ∀ body, R body body)
    (s : Stack) : s.Alike R s := by
  induction s with
  | nil => exact .nil
  | cons v s ih =>
    cases v with
    | int n => exact .cons (.int n) ih
    | block body => exact .cons (.block (hR body)) ih

theorem Stack.Alike.trans {R S T : List Command → List Command → Prop} {s t u : Stack}
    (h : s.Alike R t) (h' : t.Alike S u)
    (hRS : ∀ {a b c : List Command}, R a b → S b c → T a c) : s.Alike T u := by
  induction h generalizing u with
  | nil =>
    cases h'
    exact .nil
  | cons hvw _ ih =>
    cases h' with
    | cons hwx htu =>
      refine .cons ?_ (ih htu)
      cases hvw with
      | int n =>
        cases hwx
        exact .int n
      | block hb =>
        cases hwx with
        | block hb' => exact .block (hRS hb hb')

namespace StackM

variable {α β γ δ : Type} {R : List Command → List Command → Prop}

/-- Results with related values and with stacks that are alike, or with the same error. -/
inductive Alike (R : List Command → List Command → Prop) (S : α → β → Prop) :
    EStateM.Result EvaluationError Stack α → EStateM.Result EvaluationError Stack β → Prop
  | ok {a : α} {b : β} {s t : Stack} : S a b → s.Alike R t → Alike R S (.ok a s) (.ok b t)
  | error (e : EvaluationError) {s t : Stack} : s.Alike R t → Alike R S (.error e s) (.error e t)

theorem Alike.eq_ok {S : α → β → Prop} {r : EStateM.Result EvaluationError Stack α}
    {r' : EStateM.Result EvaluationError Stack β} (h : Alike R S r r') {a : α} {s : Stack}
    (hr : r = .ok a s) : ∃ b t, r' = .ok b t ∧ S a b ∧ s.Alike R t := by
  cases h with
  | ok hab hst => cases hr; exact ⟨_, _, rfl, hab, hst⟩
  | error => cases hr

theorem Alike.eq_error {S : α → β → Prop} {r : EStateM.Result EvaluationError Stack α}
    {r' : EStateM.Result EvaluationError Stack β} (h : Alike R S r r') {e : EvaluationError}
    {s : Stack} (hr : r = .error e s) : ∃ t, r' = .error e t ∧ s.Alike R t := by
  cases h with
  | ok => cases hr
  | error _ hst => cases hr; exact ⟨_, rfl, hst⟩

theorem Alike.refl (hR : ∀ body, R body body) (r : EStateM.Result EvaluationError Stack α) :
    Alike R Eq r r := by
  cases r with
  | ok a s => exact .ok rfl (.refl hR s)
  | error e s => exact .error e (.refl hR s)

theorem Alike.trans {R' T : List Command → List Command → Prop}
    {r r' r'' : EStateM.Result EvaluationError Stack α} (h : Alike R Eq r r')
    (h' : Alike R' Eq r' r'') (hRR : ∀ {a b c : List Command}, R a b → R' b c → T a c) :
    Alike T Eq r r'' := by
  cases h with
  | ok ha hst =>
    obtain ⟨_, u, rfl, ha', htu⟩ := h'.eq_ok rfl
    exact .ok (ha.trans ha') (hst.trans htu hRR)
  | error e hst =>
    obtain ⟨u, rfl, htu⟩ := h'.eq_error rfl
    exact .error e (hst.trans htu hRR)

/-- Two actions whose results are alike on all stacks that are. -/
def Uniform (R : List Command → List Command → Prop) (S : α → β → Prop) (x : StackM α)
    (y : StackM β) : Prop :=
  ∀ s t, Stack.Alike R s t → Alike R S (x s) (y t)

theorem Uniform.pure {S : α → β → Prop} {a : α} {b : β} (h : S a b) :
    Uniform R S (pure a : StackM α) (pure b) := fun _ _ hst => .ok h hst

theorem Uniform.throw {S : α → β → Prop} (e : EvaluationError) :
    Uniform R S (throw e : StackM α) (throw e) := fun _ _ hst => .error e hst

theorem Uniform.bind {S : α → β → Prop} {T : γ → δ → Prop} {x : StackM α} {y : StackM β}
    {f : α → StackM γ} {g : β → StackM δ} (hx : Uniform R S x y)
    (hf : ∀ a b, S a b → Uniform R T (f a) (g b)) : Uniform R T (x >>= f) (y >>= g) := by
  intro s t hst
  have h := hx s t hst
  change Alike R T (EStateM.bind x f s) (EStateM.bind y g t)
  unfold EStateM.bind
  generalize x s = r, y t = r' at h ⊢
  cases h with
  | ok hab hst => exact hf _ _ hab _ _ hst
  | error e hst => exact .error e hst

end StackM

namespace Stack
open StackM

variable {R : List Command → List Command → Prop}

theorem push_uniform {v w : Value} (h : v.Alike R w) : Uniform R Eq (push v) (push w) :=
  fun _ _ hst => .ok rfl (.cons h hst)

theorem pop_uniform : Uniform R (Value.Alike R) pop pop := by
  intro s t hst
  cases hst with
  | nil => exact .error _ .nil
  | cons hvw hst => exact .ok hvw hst

theorem popInt_uniform : Uniform R Eq popInt popInt :=
  pop_uniform.bind fun _ _ h => by
    cases h with
    | int n => exact .pure rfl
    | block _ => exact .throw _

theorem popBlock_uniform : Uniform R R popBlock popBlock :=
  pop_uniform.bind fun _ _ h => by
    cases h with
    | int n => exact .throw _
    | block hb => exact .pure hb

theorem binary_uniform (f : Int → Int → Except EvaluationError Int) :
    Uniform R Eq (binary f) (binary f) :=
  popInt_uniform.bind fun b _ hb => popInt_uniform.bind fun a _ ha => by
    subst ha hb
    cases f a b with
    | ok n => exact push_uniform (.int n)
    | error e => exact .throw e

theorem swap_uniform : Uniform R Eq swap swap :=
  pop_uniform.bind fun _ _ ha => pop_uniform.bind fun _ _ hb =>
    (push_uniform ha).bind fun _ _ _ => push_uniform hb

theorem select_uniform : Uniform R Eq select select :=
  pop_uniform.bind fun _ _ ha => pop_uniform.bind fun _ _ hb =>
    popInt_uniform.bind fun n _ hn => by
      subst hn
      refine push_uniform ?_
      split
      · exact ha
      · exact hb

theorem Alike.getElem? {s t : Stack} (h : s.Alike R t) (i : Nat) :
    Option.Rel (Value.Alike R) s[i]? t[i]? := by
  induction h generalizing i with
  | nil => exact .none
  | cons hvw _ ih =>
    cases i with
    | zero => exact .some hvw
    | succ i => exact ih i

theorem Alike.peek? {s t : Stack} (h : s.Alike R t) (depth : Int) :
    Option.Rel (Value.Alike R) (s.peek? depth) (t.peek? depth) := by
  unfold Stack.peek?
  split
  · exact .none
  · exact Alike.getElem? h _

theorem nget_uniform : Uniform R Eq nget nget := by
  intro s t hst
  rw [nget_eq, nget_eq]
  cases hst with
  | nil => exact .error _ .nil
  | @cons v w s t hvw hst =>
    cases hvw with
    | block _ => exact .error _ hst
    | int depth =>
      -- The depth is a number, so both sides look at the same place.
      have hp := Alike.peek? hst depth
      dsimp only
      generalize Stack.peek? s depth = v, Stack.peek? t depth = w at hp ⊢
      cases hp with
      | none => exact .error _ hst
      | some hvw =>
        cases hvw with
        | int n => exact .ok rfl (.cons (.int n) hst)
        | block _ => exact .error _ hst

end Stack

theorem Primitive.apply_uniform {R : List Command → List Command → Prop} (p : Primitive) :
    StackM.Uniform R Eq p.apply p.apply := by
  cases p
  case pop => exact Stack.pop_uniform.bind fun _ _ _ => .pure rfl
  case swap => exact Stack.swap_uniform
  case sel => exact Stack.select_uniform
  case nget => exact Stack.nget_uniform
  all_goals
    unfold apply
    exact Stack.binary_uniform _

end StackLang
