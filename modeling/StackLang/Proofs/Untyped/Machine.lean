import StackLang.Command.Printer
import StackLang.Error.Report
import StackLang.Stack.Primitive

namespace StackLang.Untyped

/-- Forms, comments and commands as things of one kind: what an object is gets checked where it
matters. -/
inductive Object where
  | int (n : Int)
  | float (x : Binary64)
  | symbol (name : String)
  | text (s : String)
  | list (items : List Object)
  | comment (text : String)
  /-- A number as a command and as a value; `int` is the form. -/
  | literal (n : Int)
  | builtin (operation : Builtin)
  | block (body : List Object)

inductive Fault where
  /-- Something is not of the kind that it has to be. -/
  | assertion
  /-- There is no operation under a key. -/
  | missingKey
  | indexOutOfRange
  /-- A part of a request is refused. -/
  | invalidField
deriving DecidableEq, Repr

inductive Failure where
  | fault (cause : Fault)
  /-- An error to answer a request with, as it is written. -/
  | error (message : String)

def Failure.of (e : Error) : Failure := .error e.message

abbrev Checked := Except Failure

namespace Object

mutual

def chars : Object → List Char
  | .int n => Decimal.numeral n
  | .float x => x.chars
  | .symbol name => name.toList
  | .text s => Form.literal s
  | .list items => parenthesized (charsEach items)
  | .comment s => ';' :: s.toList ++ ['\n']
  | .literal n => Decimal.numeral n
  | .builtin b => b.name.toList
  | .block body => parenthesized (charsEach body)

def charsEach : List Object → List (List Char)
  | [] => []
  | x :: xs => chars x :: charsEach xs

end

mutual

def translate : Object → Checked Object
  | .int n => .ok (.literal n)
  | .symbol name =>
    match Builtin.ofName name with
    | .ok b => .ok (.builtin b)
    | .error e => .error (.of (.code e))
  | .list items => (translateAll items).map .block
  | .float _ => .error (.of (.code .usingFloat))
  | .text _ => .error (.of (.code .usingText))
  | _ => .error (.fault .assertion)

def translateAll : List Object → Checked (List Object)
  | [] => .ok []
  | x :: xs => do
    let c ← translate x
    let cs ← translateAll xs
    return c :: cs

end

def toInteger : Object → Checked Int
  | .literal n => .ok n
  | _ => .error (.of (.evaluation .notANumber))

def toBlock : Object → Checked (List Object)
  | .block body => .ok body
  | _ => .error (.of (.evaluation .notABlock))

end Object

/-- Actions on a stack of objects, the top one first. -/
abbrev OperandM := StateT (List Object) Checked

def push : Object → OperandM Unit
  | .literal n => modify (.literal n :: ·)
  | .block body => modify (.block body :: ·)
  | _ => throw (.fault .assertion)

def pop : OperandM Object := do
  match ← get with
  | [] => throw (.of (.evaluation .notEnoughValues))
  | x :: rest =>
    set rest
    return x

def popInteger : OperandM Int := do
  match (← pop).toInteger with
  | .ok n => return n
  | .error e => throw e

def popBlock : OperandM (List Object) := do
  match (← pop).toBlock with
  | .ok body => return body
  | .error e => throw e

def swap : OperandM Unit := do
  let a ← pop
  let b ← pop
  push a
  push b

/-- The number at a depth. Its place is counted from the bottom. -/
def numberAt (values : List Object) (depth : Int) : Checked Object :=
  let place := (values.length : Int) - depth
  if 0 ≤ place ∧ place < values.length then
    match values.reverse[place.toNat]? with
    | none => .error (.fault .indexOutOfRange)
    | some x => x.toInteger.map fun _ => x
  else .error (.of (.evaluation .notEnoughValues))

def nget : OperandM Unit := do
  let depth ← popInteger
  push (← StateT.lift (numberAt (← get) depth))

theorem nget_literal (depth : Int) (rest : List Object) :
    nget (.literal depth :: rest) = (numberAt rest depth).bind fun x => push x rest := by
  have h : nget (.literal depth :: rest) = (StateT.lift (numberAt rest depth) >>= push) rest := rfl
  rw [h]
  cases numberAt rest depth <;> rfl

def binary (f : Int → Int → Except EvaluationError Int) : OperandM Unit := do
  let b ← popInteger
  let a ← popInteger
  match f a b with
  | .ok n => push (.literal n)
  | .error e => throw (.of (.evaluation e))

def select : OperandM Unit := do
  let ifZero ← pop
  let otherwise ← pop
  let condition ← popInteger
  push (if condition = 0 then ifZero else otherwise)

def operations : List (Primitive × OperandM Unit) :=
  [(.add, binary fun a b => .ok (a + b)),
   (.sub, binary fun a b => .ok (a - b)),
   (.mul, binary fun a b => .ok (a * b)),
   (.div, binary (Primitive.unlessZero Int.tdiv)),
   (.rem, binary (Primitive.unlessZero Int.tmod)),
   (.eq, binary fun a b => Primitive.truth (a = b)),
   (.gt, binary fun a b => Primitive.truth (a > b)),
   (.lt, binary fun a b => Primitive.truth (a < b)),
   (.pop, do discard pop),
   (.swap, swap),
   (.sel, select),
   (.nget, nget)]

def applyPrimitive (p : Primitive) : OperandM Unit :=
  match operations.lookup p with
  | some operation => operation
  | none => throw (.fault .missingKey)

/-- Carries out an object, which must be a command, and tells which code is to run next. -/
def perform : Object → OperandM (List (List Object))
  | .literal n => do
    push (.literal n)
    return []
  | .block body => do
    push (.block body)
    return []
  | .builtin .exec => do return [← popBlock]
  | .builtin (.primitive p) => do
    applyPrimitive p
    return []
  | _ => throw (.fault .assertion)

namespace Object

mutual

/-- The number of objects in a block at any depth, the block itself included. -/
def size : Object → Nat
  | .block body => 1 + sizeAll body
  | _ => 1

def sizeAll : List Object → Nat
  | [] => 0
  | x :: xs => size x + sizeAll xs

end

def weight (x : Object) : Nat := x.size - 1

end Object

def weight : List Object → Nat
  | [] => 0
  | x :: stack => x.weight + weight stack

def load : List (List Object) → Nat
  | [] => 0
  | code :: pieces => Object.sizeAll code + load pieces

theorem load_append (pieces more : List (List Object)) :
    load (pieces ++ more) = load pieces + load more := by
  induction pieces with
  | nil => simp [load]
  | cons code pieces ih => simp only [List.cons_append, load, ih, Nat.add_assoc]

theorem weight_literal (n : Int) : (Object.literal n).weight = 0 := rfl

theorem weight_block (body : List Object) : (Object.block body).weight = Object.sizeAll body := by
  rw [Object.weight, Object.size, Nat.add_sub_cancel_left]

theorem bind_eq_ok {α β : Type} {m : OperandM α} {k : α → OperandM β} {s t : List Object} {b : β}
    (h : (m >>= k) s = .ok (b, t)) : ∃ a u, m s = .ok (a, u) ∧ k a u = .ok (b, t) := by
  change (m s).bind (fun p => k p.1 p.2) = _ at h
  cases hm : m s with
  | error e => rw [hm] at h; cases h
  | ok p => rw [hm] at h; exact ⟨p.1, p.2, rfl, h⟩

theorem push_eq_ok {x : Object} {s t : List Object} (h : push x s = .ok ((), t)) : t = x :: s := by
  cases x with
  | literal n => cases h; rfl
  | block body => cases h; rfl
  | _ => cases h

theorem pop_eq_ok {x : Object} {s t : List Object} (h : pop s = .ok (x, t)) : s = x :: t := by
  cases s with
  | nil => cases h
  | cons y s => cases h; rfl

theorem popInteger_eq_ok {n : Int} {s t : List Object} (h : popInteger s = .ok (n, t)) :
    s = .literal n :: t := by
  obtain ⟨x, u, hp, h⟩ := bind_eq_ok h
  cases x with
  | literal m => cases h; exact pop_eq_ok hp
  | _ => cases h

theorem popBlock_eq_ok {body : List Object} {s t : List Object} (h : popBlock s = .ok (body, t)) :
    s = .block body :: t := by
  obtain ⟨x, u, hp, h⟩ := bind_eq_ok h
  cases x with
  | block code => cases h; exact pop_eq_ok hp
  | _ => cases h

theorem weight_swap_le {s t : List Object} (h : swap s = .ok ((), t)) : weight t ≤ weight s := by
  obtain ⟨a, u, ha, h⟩ := bind_eq_ok h
  obtain ⟨b, v, hb, h⟩ := bind_eq_ok h
  obtain ⟨_, w, hc, h⟩ := bind_eq_ok h
  rw [push_eq_ok h, push_eq_ok hc, pop_eq_ok ha, pop_eq_ok hb]
  simp only [weight]
  omega

theorem weight_binary_le {f : Int → Int → Except EvaluationError Int} {s t : List Object}
    (h : binary f s = .ok ((), t)) : weight t ≤ weight s := by
  obtain ⟨b, u, hb, h⟩ := bind_eq_ok h
  obtain ⟨a, v, ha, h⟩ := bind_eq_ok h
  rw [popInteger_eq_ok hb, popInteger_eq_ok ha]
  cases hf : f a b with
  | ok n =>
    rw [hf] at h
    rw [push_eq_ok h]
    simp only [weight, weight_literal]
    omega
  | error e => rw [hf] at h; cases h

theorem weight_select_le {s t : List Object} (h : select s = .ok ((), t)) :
    weight t ≤ weight s := by
  obtain ⟨a, u, ha, h⟩ := bind_eq_ok h
  obtain ⟨b, v, hb, h⟩ := bind_eq_ok h
  obtain ⟨n, w, hn, h⟩ := bind_eq_ok h
  rw [push_eq_ok h, pop_eq_ok ha, pop_eq_ok hb, popInteger_eq_ok hn]
  simp only [weight]
  split <;> omega

theorem weight_of_numberAt {values : List Object} {depth : Int} {x : Object}
    (h : numberAt values depth = .ok x) : x.weight = 0 := by
  unfold numberAt at h
  dsimp only at h
  split at h
  · split at h
    · cases h
    · next y _ =>
      cases y with
      | literal n => cases h; rfl
      | _ => cases h
  · cases h

theorem weight_nget_le {s t : List Object} (h : nget s = .ok ((), t)) : weight t ≤ weight s := by
  obtain ⟨depth, u, hd, -⟩ := bind_eq_ok h
  have hs := popInteger_eq_ok hd
  subst hs
  rw [nget_literal] at h
  cases hn : numberAt u depth with
  | error e => rw [hn] at h; cases h
  | ok x =>
    rw [hn] at h
    rw [push_eq_ok h]
    simp only [weight, weight_literal, weight_of_numberAt hn, Nat.le_refl]

theorem weight_pop_le {s t : List Object} (h : (discard pop : OperandM Unit) s = .ok ((), t)) :
    weight t ≤ weight s := by
  cases s with
  | nil => cases h
  | cons x s =>
    cases h
    rw [weight]
    omega

/-- No operation puts code on the stack that was not there before. -/
theorem weight_operations_le : ∀ entry ∈ operations, ∀ s t,
    entry.2 s = .ok ((), t) → weight t ≤ weight s := by
  simp only [operations, List.forall_mem_cons]
  exact ⟨fun _ _ => weight_binary_le, fun _ _ => weight_binary_le, fun _ _ => weight_binary_le,
    fun _ _ => weight_binary_le, fun _ _ => weight_binary_le, fun _ _ => weight_binary_le,
    fun _ _ => weight_binary_le, fun _ _ => weight_binary_le, fun _ _ => weight_pop_le,
    fun _ _ => weight_swap_le, fun _ _ => weight_select_le, fun _ _ => weight_nget_le,
    List.forall_mem_nil _⟩

theorem weight_applyPrimitive_le {p : Primitive} {s t : List Object}
    (h : applyPrimitive p s = .ok ((), t)) : weight t ≤ weight s := by
  unfold applyPrimitive at h
  cases hl : operations.lookup p with
  | none => rw [hl] at h; cases h
  | some operation =>
    rw [hl] at h
    obtain ⟨before, after, hs, -⟩ := List.lookup_eq_some_iff.1 hl
    exact weight_operations_le (p, operation) (by rw [hs]; simp) s t h

theorem perform_spends {c : Object} {s t : List Object} {calls : List (List Object)}
    (h : perform c s = .ok (calls, t)) :
    load calls + weight t + 1 ≤ c.size + weight s ∧ calls.length ≤ 1 := by
  cases c with
  | literal n =>
    cases h
    simp only [load, weight, weight_literal, Object.size, List.length_nil]
    omega
  | block body =>
    cases h
    simp only [load, weight, weight_block, Object.size, List.length_nil]
    omega
  | builtin b =>
    cases b with
    | exec =>
      obtain ⟨body, u, hp, h⟩ := bind_eq_ok h
      cases h
      rw [popBlock_eq_ok hp]
      simp only [load, weight, weight_block, Object.size, List.length_singleton]
      omega
    | primitive p =>
      obtain ⟨_, u, hp, h⟩ := bind_eq_ok h
      cases h
      have hw := weight_applyPrimitive_le hp
      simp only [load, Object.size, List.length_nil]
      omega
  | _ => cases h

def evaluate (stack : List Object) (pieces : List (List Object)) : Checked (List Object) :=
  match pieces with
  | [] => .ok stack
  | [] :: pieces => evaluate stack pieces
  | (c :: rest) :: pieces =>
    match _h : perform c stack with
    | .ok (calls, stack) => evaluate stack (calls ++ rest :: pieces)
    | .error e => .error e
termination_by 2 * (load pieces + weight stack) + pieces.length
decreasing_by
  · simp only [load, Object.sizeAll, List.length_cons]
    omega
  · obtain ⟨hspent, hcalls⟩ := perform_spends _h
    simp only [load_append, load, Object.sizeAll, List.length_append, List.length_cons]
    omega

end StackLang.Untyped
