import Mathlib.Algebra.GroupWithZero.Nat
import Mathlib.Algebra.Order.BigOperators.Group.List
import Mathlib.Algebra.Order.Group.Nat
import Mathlib.Data.List.Perm.Subperm
import StackLang.Stack.Primitive

/-- The state that an action leaves behind, whether it succeeds or fails. -/
def EStateM.Result.left {ε σ α : Type} : EStateM.Result ε σ α → σ
  | .ok _ s => s
  | .error _ s => s

namespace StackLang
open scoped List

namespace Stack

theorem pop_eq (s : Stack) : pop s = match s with
    | [] => .error .notEnoughValues []
    | v :: s => .ok v s := by
  cases s <;> rfl

theorem popBlock_eq (s : Stack) : popBlock s = match s with
    | [] => .error .notEnoughValues []
    | .int _ :: s => .error .notABlock s
    | .block body :: s => .ok body s := by
  rcases s with _ | ⟨_ | _, _⟩ <;> rfl

theorem binary_eq (f : Int → Int → Except EvaluationError Int) (s : Stack) :
    binary f s = match s with
    | .int b :: .int a :: s => match f a b with
      | .ok n => .ok () (.int n :: s)
      | .error e => .error e s
    | .int _ :: .block _ :: s => .error .notANumber s
    | .block _ :: s => .error .notANumber s
    | _ => .error .notEnoughValues [] := by
  rcases s with _ | ⟨b | _, _ | ⟨a | _, s⟩⟩
  case cons.int.cons.int =>
    change (match f a b with
      | .ok n => push (.int n)
      | .error e => throw e : StackM Unit) s = match f a b with
      | .ok n => .ok () (.int n :: s)
      | .error e => .error e s
    cases f a b <;> rfl
  all_goals rfl

theorem swap_eq (s : Stack) : swap s = match s with
    | a :: b :: s => .ok () (b :: a :: s)
    | _ => .error .notEnoughValues [] := by
  rcases s with _ | ⟨_, _ | _⟩ <;> rfl

theorem select_eq (s : Stack) : select s = match s with
    | ifZero :: otherwise :: .int n :: s => .ok () ((if n = 0 then ifZero else otherwise) :: s)
    | _ :: _ :: .block _ :: s => .error .notANumber s
    | _ => .error .notEnoughValues [] := by
  rcases s with _ | ⟨_, _ | ⟨_, _ | ⟨_ | _, _⟩⟩⟩ <;> rfl

theorem nget_eq (s : Stack) : nget s = match s with
    | [] => .error .notEnoughValues []
    | .block _ :: s => .error .notANumber s
    | .int depth :: s => match peek? s depth with
      | none => .error .notEnoughValues s
      | some (.block _) => .error .notANumber s
      | some (.int n) => .ok () (.int n :: s) := by
  rcases s with _ | ⟨depth | _, s⟩
  case cons.int =>
    have hpop : popInt (.int depth :: s) = .ok depth s := rfl
    have hget : (get : StackM Stack) s = .ok s s := rfl
    simp only [nget, bind, EStateM.bind, hpop, hget]
    rcases peek? s depth with _ | ⟨_ | _⟩ <;> rfl
  all_goals rfl

def blocks : Stack → List (List Command)
  | [] => []
  | .int _ :: s => blocks s
  | .block body :: s => body :: blocks s

theorem weight_eq_sum (s : Stack) : s.weight = (s.blocks.map Command.sizeAll).sum := by
  induction s with
  | nil => rfl
  | cons v s ih => cases v <;> simp [blocks, Value.weight, ih]

theorem mem_blocks {body : List Command} {s : Stack} : body ∈ s.blocks ↔ .block body ∈ s := by
  induction s with
  | nil => simp [blocks]
  | cons v s ih => cases v <;> simp [blocks, ih]

theorem weight_le_of_blocks_subperm {s t : Stack} (h : t.blocks <+~ s.blocks) :
    t.weight ≤ s.weight := by
  -- The order of the blocks plays no part in a sum, and to leave some out makes it no larger.
  obtain ⟨bodies, hp, hs⟩ := h
  rw [weight_eq_sum, weight_eq_sum, ← (hp.map _).sum_eq]
  exact (hs.map _).sum_le_sum (fun _ _ => Nat.zero_le _)

theorem blocks_cons_subperm (v : Value) {s t : Stack} (h : s.blocks <+~ t.blocks) :
    s.blocks <+~ blocks (v :: t) := by
  cases v with
  | int n => exact h
  | block body => exact h.cons_right body

theorem blocks_pop (s : Stack) : (pop s).left.blocks <+~ s.blocks := by
  rw [pop_eq]
  cases s with
  | nil => exact .refl _
  | cons v s => exact blocks_cons_subperm v (.refl _)

theorem blocks_binary (f : Int → Int → Except EvaluationError Int) (s : Stack) :
    (binary f s).left.blocks <+~ s.blocks := by
  rw [binary_eq]
  split
  · split <;> exact .refl _
  · exact blocks_cons_subperm _ (blocks_cons_subperm _ (.refl _))
  · exact blocks_cons_subperm _ (.refl _)
  · exact List.nil_subperm

theorem blocks_swap (s : Stack) : (swap s).left.blocks <+~ s.blocks := by
  rw [swap_eq]
  split
  · next a b s =>
    cases a <;> cases b <;> first | exact .refl _ | exact (List.Perm.swap _ _ _).subperm
  · exact List.nil_subperm

theorem blocks_select (s : Stack) : (select s).left.blocks <+~ s.blocks := by
  rw [select_eq]
  split
  · next a b n s =>
    -- Either of the two values may be the one that stays.
    have ha : blocks (a :: s) <+~ blocks (a :: b :: .int n :: s) := by
      cases a with
      | int => exact blocks_cons_subperm b (.refl _)
      | block body => exact (List.subperm_cons body).2 (blocks_cons_subperm b (.refl _))
    have hb : blocks (b :: s) <+~ blocks (a :: b :: .int n :: s) :=
      blocks_cons_subperm a (by cases b <;> exact .refl _)
    change blocks ((if n = 0 then a else b) :: s) <+~ _
    split
    · exact ha
    · exact hb
  · exact blocks_cons_subperm _ (blocks_cons_subperm _ (blocks_cons_subperm _ (.refl _)))
  · exact List.nil_subperm

theorem blocks_nget (s : Stack) : (nget s).left.blocks <+~ s.blocks := by
  rw [nget_eq]
  split
  · exact .refl _
  · exact blocks_cons_subperm _ (.refl _)
  · split <;> exact .refl _

end Stack

/-- No primitive copies a block: those it leaves are among those it found, whether it fails or
not. -/
theorem Primitive.blocks_apply (p : Primitive) (s : Stack) :
    (p.apply s).left.blocks <+~ s.blocks := by
  cases p
  case pop =>
    have hs := Stack.blocks_pop s
    rw [Stack.pop_eq] at hs
    cases s <;> exact hs
  case swap => exact Stack.blocks_swap s
  case sel => exact Stack.blocks_select s
  case nget => exact Stack.blocks_nget s
  all_goals
    unfold apply
    exact Stack.blocks_binary _ s

end StackLang
