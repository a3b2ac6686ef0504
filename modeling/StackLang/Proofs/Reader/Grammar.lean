import StackLang.Proofs.Reader.Atom
import StackLang.Reader

namespace StackLang.Grammar
open Token

/-- What follows a comment, after its semicolon. -/
def afterComment (cs : List Char) : List Char :=
  (cs.dropWhile (· ≠ '\n')).drop 1

/-- The value of a text literal after its opening quote, and what follows the closing one. After a
backslash the next character is taken as it is. -/
def literal : (escaped : Bool) → List Char → Option (List Char × List Char)
  | _, [] => none
  | true, c :: cs => (literal false cs).map (Prod.map (c :: ·) id)
  | false, c :: cs =>
    if c = '"' then some ([], cs)
    else if c = '\\' then literal true cs
    else (literal false cs).map (Prod.map (c :: ·) id)

theorem length_afterComment_le (cs : List Char) : (afterComment cs).length ≤ cs.length := by
  have h := (List.dropWhile_sublist (l := cs) (· ≠ '\n')).length_le
  simp only [afterComment, List.length_drop]
  omega

theorem afterComment_append {body : List Char} (h : '\n' ∉ body) (cs : List Char) :
    afterComment (body ++ '\n' :: cs) = cs := by
  have hb : ∀ c ∈ body, decide (c ≠ '\n') = true := by
    intro c hc
    rw [decide_eq_true_iff]
    rintro rfl
    exact h hc
  rw [afterComment, List.dropWhile_append_of_pos hb]
  rfl

theorem length_literal_le {escaped : Bool} {cs value rest : List Char}
    (h : literal escaped cs = some (value, rest)) : rest.length ≤ cs.length := by
  fun_induction literal escaped cs generalizing value with
  | case1 => cases h
  | case2 c cs ih =>
    obtain ⟨⟨v, r⟩, hv, hr⟩ := Option.map_eq_some_iff.1 h
    cases hr
    exact Nat.le_succ_of_le (ih hv)
  | case3 cs => cases h; simp
  | case4 c cs ih => exact Nat.le_succ_of_le (ih h)
  | case5 c cs hq hb ih =>
    obtain ⟨⟨v, r⟩, hv, hr⟩ := Option.map_eq_some_iff.1 h
    cases hr
    exact Nat.le_succ_of_le (ih hv)

/-- What a reader leaves of a text is no longer than the text. -/
abbrev Rest (cs : List Char) := {rest : List Char // rest.length ≤ cs.length}

/-- The forms up to the end of the text, or `inside` a list up to its end, and what follows. -/
def forms (inside : Bool) : (cs : List Char) → Except SyntaxFault (List Form × Rest cs)
  | [] => if inside then .error .unterminatedList else .ok ([], ⟨[], Nat.le_refl _⟩)
  | c :: cs =>
    if isBlank c then
      (forms inside cs).map fun (fs, rest) => (fs, ⟨rest, Nat.le_succ_of_le rest.2⟩)
    else if c = ';' then
      (forms inside (afterComment cs)).map fun (fs, rest) =>
        (fs, ⟨rest, Nat.le_trans rest.2 (Nat.le_succ_of_le (length_afterComment_le cs))⟩)
    else if inside && c = ')' then .ok ([], ⟨cs, Nat.le_succ _⟩)
    else
      -- Anything else is the first form here, and the forms after it follow where it ends.
      let first : Except SyntaxFault (Form × Rest cs) :=
        if c = '(' then (forms true cs).map fun (items, rest) => (.list items, rest)
        else if c = '"' then
          match h : literal false cs with
          | some (value, rest) => .ok (.text (String.ofList value), ⟨rest, length_literal_le h⟩)
          | none => .error .unterminatedText
        else if isSymbolic c then
          .ok (atom (c :: cs.takeWhile isSymbolic) (cs.dropWhile isSymbolic).head?,
            ⟨cs.dropWhile isSymbolic, (List.dropWhile_sublist _).length_le⟩)
        else .error .invalidForm
      first.bind fun (f, rest) => (forms inside rest.1).map fun (fs, after) =>
        (f :: fs, ⟨after, Nat.le_trans after.2 (Nat.le_succ_of_le rest.2)⟩)
termination_by cs => cs.length
decreasing_by
  · simp
  · have := length_afterComment_le cs
    simp only [List.length_cons]
    omega
  · simp
  · have := rest.2
    simp only [List.length_cons]
    omega

def read (inside : Bool) (cs : List Char) : Except SyntaxFault (List Form × List Char) :=
  (forms inside cs).map (Prod.map id Subtype.val)

def before (f : Form) (r : Except SyntaxFault (List Form × List Char)) :
    Except SyntaxFault (List Form × List Char) :=
  r.map (Prod.map (f :: ·) id)

theorem read_nil (inside : Bool) :
    read inside [] = if inside then .error .unterminatedList else .ok ([], []) := by
  rw [read, forms]
  cases inside <;> rfl

theorem read_blank {c : Char} (h : isBlank c = true) (inside : Bool) (cs : List Char) :
    read inside (c :: cs) = read inside cs := by
  rw [read, forms, if_pos h, read]
  cases forms inside cs <;> rfl

theorem read_comment (inside : Bool) (cs : List Char) :
    read inside (';' :: cs) = read inside (afterComment cs) := by
  rw [read, forms, if_neg (by decide), if_pos rfl, read]
  cases forms inside (afterComment cs) <;> rfl

theorem read_close (cs : List Char) : read true (')' :: cs) = .ok ([], cs) := by
  rw [read, forms, if_neg (by decide), if_neg (by decide), if_pos (by decide)]
  rfl

theorem read_list (inside : Bool) (cs : List Char) :
    read inside ('(' :: cs) =
      (read true cs).bind fun (items, rest) => before (.list items) (read inside rest) := by
  rw [read, forms, if_neg (by decide), if_neg (by decide), if_neg (by simp), if_pos rfl]
  unfold read
  rcases forms true cs with e | ⟨items, rest⟩
  · rfl
  · change ((forms inside rest.1).map _).map _ = before _ ((forms inside rest.1).map _)
    cases forms inside rest.1 <;> rfl

theorem read_text (inside : Bool) (cs : List Char) :
    read inside ('"' :: cs) = match literal false cs with
      | some (value, rest) => before (.text (String.ofList value)) (read inside rest)
      | none => .error .unterminatedText := by
  rw [read, forms, if_neg (by decide), if_neg (by decide), if_neg (by simp), if_neg (by decide),
    if_pos rfl]
  unfold read
  split
  · next value rest h =>
    simp only [h]
    change ((forms inside rest).map _).map _ = before _ ((forms inside rest).map _)
    cases forms inside rest <;> rfl
  · next h =>
    rw [h]
    rfl

theorem read_run {run rest : List Char} (hrun : ∀ c ∈ run, isSymbolic c = true) (hne : run ≠ [])
    (hrest : Stops isSymbolic rest) (inside : Bool) :
    read inside (run ++ rest) = before (atom run rest.head?) (read inside rest) := by
  obtain ⟨c, cs, rfl⟩ := List.exists_cons_of_ne_nil hne
  have hc := hrun c List.mem_cons_self
  have hcs : ∀ d ∈ cs, isSymbolic d = true := fun d hd => hrun d (List.mem_cons_of_mem c hd)
  have hother (d : Char) (hd : isSymbolic d = false) : c ≠ d := ne_of_isSymbolic hc hd
  rw [List.cons_append, read, forms, if_neg (by simp [isBlank_eq_false hc]),
    if_neg (hother ';' rfl), if_neg (by simp [hother ')' rfl]), if_neg (hother '(' rfl),
    if_neg (hother '"' rfl), if_pos hc, read, takeWhile_run hcs hrest]
  simp only [dropWhile_run hcs hrest]
  change ((forms inside rest).map _).map _ = _
  cases forms inside rest <;> rfl

theorem read_invalid {c : Char} {inside : Bool} (hb : isBlank c = false) (hs : isSymbolic c = false)
    (hc : c ≠ ';') (ho : c ≠ '(') (hq : c ≠ '"') (hi : inside = true → c ≠ ')')
    (cs : List Char) : read inside (c :: cs) = .error .invalidForm := by
  rw [read, forms, if_neg (by simp [hb]), if_neg hc, if_neg (by simpa using hi), if_neg ho,
    if_neg hq, if_neg (by simp [hs])]
  rfl

theorem read_dropWhile_isBlank (inside : Bool) (cs : List Char) :
    read inside (cs.dropWhile isBlank) = read inside cs := by
  induction cs with
  | nil => rfl
  | cons c cs ih =>
    by_cases hc : isBlank c = true
    · rw [List.dropWhile_cons_of_pos hc, ih, read_blank hc]
    · rw [List.dropWhile_cons_of_neg hc]

theorem literal_eq_textBody (cs : List Char) :
    literal false cs = (textBody cs).map fun (value, width) => (value, cs.drop width) := by
  fun_induction textBody cs with
  | case1 => rfl
  | case2 cs => rfl
  | case3 => rfl
  | case4 c cs ih =>
    have h : literal false ('\\' :: c :: cs) = (literal false cs).map (Prod.map (c :: ·) id) := by
      simp [literal]
    rw [h, ih, Option.map_map, Option.map_map]
    rfl
  | case5 c cs hq hb hn ih =>
    have hs : c ≠ '\\' := by
      rintro rfl
      rcases cs with _ | ⟨d, cs⟩
      · exact hb rfl rfl
      · exact hn d cs rfl rfl
    have h : literal false (c :: cs) = (literal false cs).map (Prod.map (c :: ·) id) := by
      rw [literal, if_neg hq, if_neg hs]
    rw [h, ih, Option.map_map, Option.map_map]
    rfl

end StackLang.Grammar
