import StackLang.Proofs.Command.Source

namespace StackLang

namespace Form

mutual

/-- How many lists are open at the innermost place of a form. -/
def depth : Form → Nat
  | .list fs => depthAll fs + 1
  | _ => 0

def depthAll : List Form → Nat
  | [] => 0
  | f :: fs => max (depth f) (depthAll fs)

end

end Form

namespace Command

mutual

def depth : Command → Nat
  | .block body => depthAll body + 1
  | _ => 0

def depthAll : List Command → Nat
  | [] => 0
  | c :: cs => max (depth c) (depthAll cs)

end

theorem depthAll_le_iff {cs : List Command} {d : Nat} :
    depthAll cs ≤ d ↔ ∀ c ∈ cs, c.depth ≤ d := by
  induction cs with
  | nil => exact iff_of_true (Nat.zero_le d) (List.forall_mem_nil _)
  | cons c cs ih => rw [depthAll, Nat.max_le, ih, List.forall_mem_cons]

mutual

theorem depth_toForm : (c : Command) → c.toForm.depth = c.depth
  | .int _ => rfl
  | .builtin _ => rfl
  | .block body => congrArg (· + 1) (depthAll_toForms body)

theorem depthAll_toForms : (cs : List Command) → Form.depthAll (toForms cs) = depthAll cs
  | [] => rfl
  | c :: cs => by
    rw [toForms, Form.depthAll, depth_toForm c, depthAll_toForms cs]
    rfl

end

theorem depth_of_ofForms {fs : List Form} {cs : List Command} (h : ofForms fs = .ok cs) :
    depthAll cs = Form.depthAll fs := by
  rw [← toForms_of_ofForms h, depthAll_toForms]

mutual

/-- The source of a command from a printer that can call itself only so many levels deep. -/
def charsWithin? : Nat → Command → Option (List Char)
  | _, .int n => some (Decimal.numeral n)
  | _, .builtin b => some b.name.toList
  | 0, .block _ => none
  | limit + 1, .block body => (charsEachWithin? limit body).map parenthesized

def charsEachWithin? : Nat → List Command → Option (List (List Char))
  | _, [] => some []
  | limit, c :: cs => do
    let row ← charsWithin? limit c
    let rows ← charsEachWithin? limit cs
    return row :: rows

end

mutual

/-- Such a printer writes what nests no deeper than that, and nothing else. -/
theorem charsWithin?_eq (limit : Nat) (c : Command) :
    c.charsWithin? limit = if c.depth ≤ limit then some c.chars else none := by
  cases c with
  | int n =>
    rw [charsWithin?]
    exact (if_pos (Nat.zero_le limit)).symm
  | builtin b =>
    rw [charsWithin?]
    exact (if_pos (Nat.zero_le limit)).symm
  | block body =>
    cases limit with
    | zero =>
      rw [charsWithin?, if_neg]
      exact Nat.not_succ_le_zero _
    | succ limit =>
      rw [charsWithin?, charsEachWithin?_eq limit body]
      simp only [depth, Nat.succ_le_succ_iff]
      split <;> rfl

theorem charsEachWithin?_eq (limit : Nat) (cs : List Command) :
    charsEachWithin? limit cs = if depthAll cs ≤ limit then some (charsEach cs) else none := by
  cases cs with
  | nil =>
    rw [charsEachWithin?]
    exact (if_pos (Nat.zero_le limit)).symm
  | cons c cs =>
    rw [charsEachWithin?, charsWithin?_eq limit c, charsEachWithin?_eq limit cs]
    simp only [depthAll, Nat.max_le]
    by_cases hc : c.depth ≤ limit <;> by_cases hcs : depthAll cs ≤ limit <;>
      simp [hc, hcs, charsEach]

end

end Command
end StackLang
