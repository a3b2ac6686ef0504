import Mathlib.Data.List.Forall2
import StackLang.Proofs.Machine.Recursion
import StackLang.Proofs.Stack.Division

namespace StackLang

inductive Kind where
  | any
  | number

inductive Kind.Admits : Kind → Value → Prop
  | any (v : Value) : Admits .any v
  | number (n : Int) : Admits .number (.int n)

theorem Kind.eq_int {v : Value} (h : Kind.number.Admits v) : ∃ n, v = .int n := by
  cases h with
  | number n => exact ⟨n, rfl⟩

theorem Kind.eq_block {v : Value} (h : ¬ Kind.number.Admits v) : ∃ body, v = .block body := by
  cases v with
  | int n => exact absurd (.number n) h
  | block body => exact ⟨body, rfl⟩

namespace Primitive

def operands : Primitive → List Kind
  | .add | .sub | .mul | .div | .rem | .eq | .gt | .lt => [.number, .number]
  | .pop => [.any]
  | .swap => [.any, .any]
  | .sel => [.any, .any, .number]
  | .nget => [.number]

/-- The results that take the place of operands; `below` are the values beneath them. Operands and
results are listed from the top. -/
inductive Yields : Primitive → (operands : List Value) → (below : Stack) → List Value → Prop
  | add (a b : Int) (below : Stack) : Yields .add [.int b, .int a] below [.int (a + b)]
  | sub (a b : Int) (below : Stack) : Yields .sub [.int b, .int a] below [.int (a - b)]
  | mul (a b : Int) (below : Stack) : Yields .mul [.int b, .int a] below [.int (a * b)]
  | div {a b q r : Int} (below : Stack) : Truncates a b q r →
    Yields .div [.int b, .int a] below [.int q]
  | rem {a b q r : Int} (below : Stack) : Truncates a b q r →
    Yields .rem [.int b, .int a] below [.int r]
  | eq (a b : Int) (below : Stack) :
    Yields .eq [.int b, .int a] below [.int (if a = b then 1 else 0)]
  | gt (a b : Int) (below : Stack) :
    Yields .gt [.int b, .int a] below [.int (if a > b then 1 else 0)]
  | lt (a b : Int) (below : Stack) :
    Yields .lt [.int b, .int a] below [.int (if a < b then 1 else 0)]
  | pop (v : Value) (below : Stack) : Yields .pop [v] below []
  | swap (v w : Value) (below : Stack) : Yields .swap [v, w] below [w, v]
  | sel (v w : Value) (n : Int) (below : Stack) :
    Yields .sel [v, w, .int n] below [if n = 0 then v else w]
  /-- The uppermost value beneath the index has index one. -/
  | nget {i : Nat} {n : Int} {below : Stack} : below[i]? = some (.int n) →
    Yields .nget [.int (i + 1)] below [.int n]

/-- Why operands of the right kinds may be refused. -/
inductive Refuses : Primitive → (operands : List Value) → (below : Stack) → EvaluationError → Prop
  | div (a : Int) (below : Stack) : Refuses .div [.int 0, .int a] below .divisionByZero
  | rem (a : Int) (below : Stack) : Refuses .rem [.int 0, .int a] below .divisionByZero
  | outside {i : Int} {below : Stack} : i < 1 ∨ below.length < i →
    Refuses .nget [.int i] below .notEnoughValues
  | block {i : Nat} {body : List Command} {below : Stack} : below[i]? = some (.block body) →
    Refuses .nget [.int (i + 1)] below .notANumber

/-- How an operation ends on a stack. Of a stack that it fails on, the values that it has taken are
gone, the offending one too, and nothing else is changed. -/
inductive Ends (p : Primitive) : Stack → StackRun → Prop
  | missing {passed more : List Kind} {k : Kind} {taken : List Value} :
    p.operands = passed ++ k :: more → List.Forall₂ Kind.Admits passed taken →
    Ends p taken (.error .notEnoughValues [])
  | unfit {passed more : List Kind} {k : Kind} {taken : List Value} {v : Value} {below : Stack} :
    p.operands = passed ++ k :: more → List.Forall₂ Kind.Admits passed taken → ¬ k.Admits v →
    Ends p (taken ++ v :: below) (.error .notANumber below)
  | refused {taken : List Value} {below : Stack} {e : EvaluationError} :
    List.Forall₂ Kind.Admits p.operands taken → p.Refuses taken below e →
    Ends p (taken ++ below) (.error e below)
  | done {taken results : List Value} {below : Stack} :
    List.Forall₂ Kind.Admits p.operands taken → p.Yields taken below results →
    Ends p (taken ++ below) (.ok () (results ++ below))

end Primitive

namespace Stack

theorem binary_of_ok {f : Int → Int → Except EvaluationError Int} {a b n : Int}
    (h : f a b = .ok n) (s : Stack) :
    binary f (.int b :: .int a :: s) = .ok () (.int n :: s) := by
  rw [binary_eq]
  simp only [h]

theorem peek?_succ (s : Stack) (i : Nat) : s.peek? (i + 1) = s[i]? := by
  have hi : ((i : Int) + 1 - 1).toNat = i := by omega
  rw [peek?, if_neg (by omega), hi]

theorem peek?_outside {s : Stack} {i : Int} (h : i < 1 ∨ s.length < i) : s.peek? i = none := by
  unfold peek?
  split
  · rfl
  · rw [List.getElem?_eq_none_iff]
    omega

theorem nget_succ (i : Nat) (s : Stack) :
    nget (.int (i + 1) :: s) = match s[i]? with
    | none => .error .notEnoughValues s
    | some (.block _) => .error .notANumber s
    | some (.int n) => .ok () (.int n :: s) := by
  rw [← peek?_succ]
  exact nget_eq _

theorem nget_outside {s : Stack} {i : Int} (h : i < 1 ∨ s.length < i) :
    nget (.int i :: s) = .error .notEnoughValues s := by
  rw [nget_eq]
  simp only [peek?_outside h]

end Stack

namespace StackM

/-- An action that fails at the first operand that is missing or of the wrong kind. -/
def Checks {α : Type} (kinds : List Kind) (x : StackM α) : Prop :=
  ∀ passed k more taken, kinds = passed ++ k :: more → List.Forall₂ Kind.Admits passed taken →
    x taken = .error .notEnoughValues [] ∧
      ∀ v below, ¬ k.Admits v → x (taken ++ v :: below) = .error .notANumber below

theorem Checks.nil {α : Type} (x : StackM α) : Checks [] x := by
  intro passed k more taken hk
  simp at hk

theorem Checks.pop {α : Type} {kinds : List Kind} {f : Value → StackM α}
    (h : ∀ v, Checks kinds (f v)) : Checks (.any :: kinds) (Stack.pop >>= f) := by
  -- The first operand either decides already or is among those that have passed.
  rintro (_ | ⟨j, passed⟩) k more taken hk ht
  · cases hk
    cases ht
    exact ⟨rfl, fun v _ hv => absurd (.any v) hv⟩
  · obtain ⟨rfl, hkinds⟩ := List.cons.inj hk
    cases ht with
    | @cons _ v _ taken _ ht => exact h v passed k more taken hkinds ht

theorem Checks.popInt {α : Type} {kinds : List Kind} {f : Int → StackM α}
    (h : ∀ n, Checks kinds (f n)) : Checks (.number :: kinds) (Stack.popInt >>= f) := by
  rintro (_ | ⟨j, passed⟩) k more taken hk ht
  · cases hk
    cases ht
    refine ⟨rfl, fun v below hv => ?_⟩
    obtain ⟨body, rfl⟩ := Kind.eq_block hv
    rfl
  · obtain ⟨rfl, hkinds⟩ := List.cons.inj hk
    cases ht with
    | cons hv ht =>
      cases hv with
      | number n => exact h n passed k more _ hkinds ht

end StackM

namespace Primitive
open StackM

theorem apply_checks (p : Primitive) : Checks p.operands p.apply := by
  have hbinary (f : Int → Int → Except EvaluationError Int) :
      Checks [.number, .number] (Stack.binary f) :=
    .popInt fun _ => .popInt fun _ => .nil _
  cases p
  case pop =>
    have hpop : apply .pop = Stack.pop >>= fun _ => pure () := by
      funext s
      cases s <;> rfl
    rw [hpop]
    exact .pop fun _ => .nil _
  case swap => exact .pop fun _ => .pop fun _ => .nil _
  case sel => exact .pop fun _ => .pop fun _ => .popInt fun _ => .nil _
  case nget => exact .popInt fun _ => .nil _
  all_goals
    unfold operands apply
    exact hbinary _

theorem unlessZero_of_ne (f : Int → Int → Int) (a : Int) {b : Int} (hb : b ≠ 0) :
    unlessZero f a b = .ok (f a b) := if_neg hb

theorem truth_decide (c : Prop) [Decidable c] : truth c = .ok (if c then 1 else 0) := by
  simp [truth]

theorem apply_of_yields {p : Primitive} {taken results : List Value} {below : Stack}
    (h : p.Yields taken below results) : p.apply (taken ++ below) = .ok () (results ++ below) := by
  cases h with
  | @div a b q r below h =>
    have hb := h.divisor_ne_zero
    obtain ⟨rfl, -⟩ := h.unique (truncates_tdiv a hb)
    exact Stack.binary_of_ok (unlessZero_of_ne _ _ hb) below
  | @rem a b q r below h =>
    have hb := h.divisor_ne_zero
    obtain ⟨-, rfl⟩ := h.unique (truncates_tdiv a hb)
    exact Stack.binary_of_ok (unlessZero_of_ne _ _ hb) below
  | eq a b below =>
    exact @Stack.binary_of_ok (fun a b => truth (a = b)) _ _ _ (truth_decide (a = b)) below
  | gt a b below =>
    exact @Stack.binary_of_ok (fun a b => truth (a > b)) _ _ _ (truth_decide (a > b)) below
  | lt a b below =>
    exact @Stack.binary_of_ok (fun a b => truth (a < b)) _ _ _ (truth_decide (a < b)) below
  | @nget i n below h => exact (Stack.nget_succ i below).trans (by rw [h]; rfl)
  | add | sub | mul | pop | swap | sel => rfl

theorem apply_of_refuses {p : Primitive} {taken : List Value} {below : Stack}
    {e : EvaluationError} (h : p.Refuses taken below e) :
    p.apply (taken ++ below) = .error e below := by
  cases h with
  | div | rem => rfl
  | outside h => exact Stack.nget_outside h
  | @block i body below h => exact (Stack.nget_succ i below).trans (by rw [h])

theorem yields_or_refuses {p : Primitive} {taken : List Value}
    (h : List.Forall₂ Kind.Admits p.operands taken) (below : Stack) :
    (∃ results, p.Yields taken below results) ∨ ∃ e, p.Refuses taken below e := by
  cases p
  case pop =>
    obtain _ | ⟨-, ⟨⟩⟩ := h
    exact .inl ⟨_, .pop _ below⟩
  case swap =>
    obtain _ | ⟨-, _ | ⟨-, ⟨⟩⟩⟩ := h
    exact .inl ⟨_, .swap _ _ below⟩
  case sel =>
    obtain _ | ⟨-, _ | ⟨-, _ | ⟨hn, ⟨⟩⟩⟩⟩ := h
    obtain ⟨n, rfl⟩ := Kind.eq_int hn
    exact .inl ⟨_, .sel _ _ n below⟩
  case nget =>
    obtain _ | ⟨hi, ⟨⟩⟩ := h
    obtain ⟨i, rfl⟩ := Kind.eq_int hi
    by_cases hi : i < 1 ∨ below.length < i
    · exact .inr ⟨_, .outside hi⟩
    · obtain ⟨j, rfl⟩ : ∃ j : Nat, i = j + 1 := ⟨(i - 1).toNat, by omega⟩
      have hj : j < below.length := by omega
      have hget := List.getElem?_eq_getElem hj
      cases hv : below[j] with
      | int n => exact .inl ⟨_, .nget (hget.trans (congrArg some hv))⟩
      | block body => exact .inr ⟨_, .block (hget.trans (congrArg some hv))⟩
  -- All others take two numbers, and only a divisor can be refused.
  all_goals
    obtain _ | ⟨hb, _ | ⟨ha, ⟨⟩⟩⟩ := h
    obtain ⟨b, rfl⟩ := Kind.eq_int hb
    obtain ⟨a, rfl⟩ := Kind.eq_int ha
  case add => exact .inl ⟨_, .add a b below⟩
  case sub => exact .inl ⟨_, .sub a b below⟩
  case mul => exact .inl ⟨_, .mul a b below⟩
  case eq => exact .inl ⟨_, .eq a b below⟩
  case gt => exact .inl ⟨_, .gt a b below⟩
  case lt => exact .inl ⟨_, .lt a b below⟩
  case div =>
    by_cases hb : b = 0
    · subst hb
      exact .inr ⟨_, .div a below⟩
    · exact .inl ⟨_, .div below (truncates_tdiv a hb)⟩
  case rem =>
    by_cases hb : b = 0
    · subst hb
      exact .inr ⟨_, .rem a below⟩
    · exact .inl ⟨_, .rem below (truncates_tdiv a hb)⟩

theorem apply_of_ends {p : Primitive} {s : Stack} {r : StackRun} (h : p.Ends s r) :
    p.apply s = r := by
  cases h with
  | missing hk ht => exact (p.apply_checks _ _ _ _ hk ht).1
  | unfit hk ht hv => exact (p.apply_checks _ _ _ _ hk ht).2 _ _ hv
  | refused _ hr => exact apply_of_refuses hr
  | done _ hy => exact apply_of_yields hy

end Primitive

/-- A stack is too short for operands of these kinds, or has one of another kind among them, or
starts with such operands. -/
theorem Stack.operands_cases (kinds : List Kind) (s : Stack) :
    (∃ passed k more, kinds = passed ++ k :: more ∧ List.Forall₂ Kind.Admits passed s) ∨
    (∃ passed k more taken v below, kinds = passed ++ k :: more ∧
      List.Forall₂ Kind.Admits passed taken ∧ ¬ k.Admits v ∧ s = taken ++ v :: below) ∨
    ∃ taken below, List.Forall₂ Kind.Admits kinds taken ∧ s = taken ++ below := by
  induction kinds generalizing s with
  | nil => exact .inr (.inr ⟨[], s, .nil, rfl⟩)
  | cons k kinds ih =>
    cases s with
    | nil => exact .inl ⟨[], k, kinds, rfl, .nil⟩
    | cons v s =>
      by_cases hv : k.Admits v
      · obtain ⟨passed, j, more, rfl, ht⟩ | ⟨passed, j, more, taken, w, below, rfl, ht, hw, rfl⟩ |
          ⟨taken, below, ht, rfl⟩ := ih s
        · exact .inl ⟨k :: passed, j, more, rfl, .cons hv ht⟩
        · exact .inr (.inl ⟨k :: passed, j, more, v :: taken, w, below, rfl, .cons hv ht, hw, rfl⟩)
        · exact .inr (.inr ⟨v :: taken, below, .cons hv ht, rfl⟩)
      · exact .inr (.inl ⟨[], k, kinds, [], v, s, rfl, .nil, hv, rfl⟩)

namespace Primitive

theorem exists_ends (p : Primitive) (s : Stack) : ∃ r, p.Ends s r := by
  obtain ⟨passed, k, more, hk, ht⟩ | ⟨passed, k, more, taken, v, below, hk, ht, hv, rfl⟩ |
    ⟨taken, below, ht, rfl⟩ := s.operands_cases p.operands
  · exact ⟨_, .missing hk ht⟩
  · exact ⟨_, .unfit hk ht hv⟩
  · obtain ⟨results, hy⟩ | ⟨e, hr⟩ := yields_or_refuses ht below
    · exact ⟨_, .done ht hy⟩
    · exact ⟨_, .refused ht hr⟩

theorem onStack_apply (p : Primitive) (m : Machine) :
    (m.apply (.primitive p)).onStack = p.apply m.stack := by
  rw [Machine.apply]
  cases p.apply m.stack <;> rfl

theorem trace_apply (p : Primitive) (m : Machine) :
    (m.apply (.primitive p)).left.trace = m.trace := by
  rw [Machine.apply]
  cases p.apply m.stack <;> rfl

/-- An operation applied by itself ends as its operands on the stack have it, in one way only, and
notes nothing. -/
theorem apply_iff_ends (p : Primitive) (m : Machine) :
    (∀ r, (m.apply (.primitive p)).onStack = r ↔ p.Ends m.stack r) ∧
      (m.apply (.primitive p)).left.trace = m.trace := by
  refine ⟨fun r => ?_, p.trace_apply m⟩
  rw [onStack_apply]
  constructor
  · rintro rfl
    obtain ⟨r, hr⟩ := p.exists_ends m.stack
    rwa [apply_of_ends hr]
  · exact apply_of_ends

/-- A block is found before the second operand is found missing. -/
example : ((⟨[.block []], .off⟩ : Machine).apply (.primitive .add)).onStack =
    .error .notANumber [] := rfl

end Primitive
end StackLang
