import StackLang.Stack

namespace StackLang

namespace Primitive

def truth (b : Bool) : Except EvaluationError Int := .ok (if b then 1 else 0)

def unlessZero (f : Int → Int → Int) (a b : Int) : Except EvaluationError Int :=
  if b = 0 then .error .divisionByZero else .ok (f a b)

/-- Division goes toward zero, and the remainder has the sign of the dividend. -/
def apply : Primitive → StackM Unit
  | .add => Stack.binary fun a b => .ok (a + b)
  | .sub => Stack.binary fun a b => .ok (a - b)
  | .mul => Stack.binary fun a b => .ok (a * b)
  | .div => Stack.binary (unlessZero Int.tdiv)
  | .rem => Stack.binary (unlessZero Int.tmod)
  | .eq => Stack.binary fun a b => truth (a = b)
  | .gt => Stack.binary fun a b => truth (a > b)
  | .lt => Stack.binary fun a b => truth (a < b)
  | .pop => do discard Stack.pop
  | .swap => Stack.swap
  | .sel => Stack.select
  | .nget => Stack.nget

end Primitive

namespace Stack

@[simp] theorem weight_nil : weight [] = 0 := rfl

@[simp] theorem weight_cons (v : Value) (s : Stack) :
    weight (v :: s) = v.weight + weight s := rfl

theorem bind_eq_ok {α β : Type} {x : StackM α} {f : α → StackM β} {s t : Stack} {b : β}
    (h : (x >>= f) s = .ok b t) : ∃ a u, x s = .ok a u ∧ f a u = .ok b t := by
  change EStateM.bind x f s = _ at h
  unfold EStateM.bind at h
  split at h
  · next a u hx => exact ⟨a, u, hx, h⟩
  · cases h

theorem pop_eq_ok {s t : Stack} {v : Value} (h : pop s = .ok v t) : s = v :: t := by
  cases s with
  | nil => cases h
  | cons w s => cases h; rfl

theorem popInt_eq_ok {s t : Stack} {n : Int} (h : popInt s = .ok n t) : s = .int n :: t := by
  obtain ⟨v, u, hp, h⟩ := bind_eq_ok h
  cases v with
  | int m => cases h; exact pop_eq_ok hp
  | block => cases h

theorem popBlock_eq_ok {s t : Stack} {body : List Command} (h : popBlock s = .ok body t) :
    s = .block body :: t := by
  obtain ⟨v, u, hp, h⟩ := bind_eq_ok h
  cases v with
  | int => cases h
  | block => cases h; exact pop_eq_ok hp

theorem weight_binary {f : Int → Int → Except EvaluationError Int} {s t : Stack}
    (h : binary f s = .ok () t) : t.weight = s.weight := by
  obtain ⟨b, _, hb, h⟩ := bind_eq_ok h
  obtain ⟨a, u, ha, h⟩ := bind_eq_ok h
  rw [popInt_eq_ok hb, popInt_eq_ok ha]
  cases hf : f a b <;> rw [hf] at h <;> cases h
  simp [Value.weight]

theorem weight_swap {s t : Stack} (h : swap s = .ok () t) : t.weight = s.weight := by
  obtain ⟨a, _, ha, h⟩ := bind_eq_ok h
  obtain ⟨b, u, hb, h⟩ := bind_eq_ok h
  rw [pop_eq_ok ha, pop_eq_ok hb]
  cases h
  simp only [weight_cons]
  omega

theorem weight_select_le {s t : Stack} (h : select s = .ok () t) : t.weight ≤ s.weight := by
  obtain ⟨a, _, ha, h⟩ := bind_eq_ok h
  obtain ⟨b, _, hb, h⟩ := bind_eq_ok h
  obtain ⟨n, u, hn, h⟩ := bind_eq_ok h
  rw [pop_eq_ok ha, pop_eq_ok hb, popInt_eq_ok hn]
  cases h
  simp only [weight_cons]
  split <;> omega

theorem weight_nget {s t : Stack} (h : nget s = .ok () t) : t.weight = s.weight := by
  obtain ⟨depth, u, hd, h⟩ := bind_eq_ok h
  obtain ⟨_, _, hu, h⟩ := bind_eq_ok h
  cases hu
  rw [popInt_eq_ok hd]
  cases hv : peek? u depth with
  | none => rw [hv] at h; cases h
  | some v =>
    rw [hv] at h
    cases v <;> cases h
    simp [Value.weight]

end Stack

theorem Primitive.weight_apply_le (p : Primitive) {s t : Stack} (h : p.apply s = .ok () t) :
    t.weight ≤ s.weight := by
  cases p
  case pop =>
    obtain ⟨v, u, hv, h⟩ := Stack.bind_eq_ok h
    rw [Stack.pop_eq_ok hv]
    cases h
    simp
  case swap => exact Nat.le_of_eq (Stack.weight_swap h)
  case sel => exact Stack.weight_select_le h
  case nget => exact Nat.le_of_eq (Stack.weight_nget h)
  all_goals
    unfold apply at h
    exact Nat.le_of_eq (Stack.weight_binary h)

end StackLang
