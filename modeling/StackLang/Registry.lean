import StackLang.Program

namespace StackLang

/-- At most one program for each name. -/
structure Registry where
  entries : List (String × Program)

namespace Registry

def empty : Registry := ⟨[]⟩

def find? (r : Registry) (name : String) : Option Program := r.entries.lookup name

def insert (r : Registry) (name : String) (p : Program) : Registry :=
  ⟨(name, p) :: r.entries.filter (·.1 ≠ name)⟩

def sorted (r : Registry) : List (String × Program) :=
  r.entries.mergeSort fun a b => a.1 ≤ b.1

def names (r : Registry) : List String := r.sorted.map (·.1)

theorem find?_insert_self (r : Registry) (name : String) (p : Program) :
    (r.insert name p).find? name = some p := by
  simp [insert, find?]

theorem lookup_filter_ne {name other : String} (h : other ≠ name)
    (es : List (String × Program)) :
    (es.filter (·.1 ≠ name)).lookup other = es.lookup other := by
  induction es with
  | nil => rfl
  | cons e es ih =>
    rcases e with ⟨key, p⟩
    by_cases hk : key = name
    · have ho : (other == name) = false := by simpa using h
      rw [List.filter_cons_of_neg (by simp [hk]), ih, List.lookup_cons, hk, ho]
    · rw [List.filter_cons_of_pos (by simp [hk]), List.lookup_cons, List.lookup_cons, ih]

theorem find?_insert_ne (r : Registry) {name other : String} (h : other ≠ name) (p : Program) :
    (r.insert name p).find? other = r.find? other := by
  have ho : (other == name) = false := by simpa using h
  simp only [insert, find?, List.lookup_cons, ho]
  exact lookup_filter_ne h r.entries

def insertAll (r : Registry) (entries : List (String × Program)) : Registry :=
  entries.foldl (fun r (name, p) => r.insert name p) r

/-- Programs of two arguments named for the operations they carry out. The first argument is the
left operand: its program swaps the arguments, since the upper value is the right one. -/
def prelude : Registry :=
  empty.insertAll <|
    [Primitive.add, .sub, .mul, .div, .rem, .eq, .gt, .lt].map fun p =>
      (p.name, ⟨2, [.builtin (.primitive .swap), .builtin (.primitive p)]⟩)

end Registry
end StackLang
