import StackLang.Console.Output

namespace StackLang

namespace Text

theorem unifyNewlines_eq_self {cs : List Char} (h : '\r' ∉ cs) : unifyNewlines cs = cs := by
  fun_induction unifyNewlines cs with
  | case1 => rfl
  | case2 cs ih => exact absurd List.mem_cons_self h
  | case3 cs _ ih => exact absurd List.mem_cons_self h
  | case4 c cs _ _ ih => rw [ih fun hm => h (List.mem_cons_of_mem c hm)]

theorem lines_eq_nil {cs : List Char} : lines cs = [] ↔ cs = [] := by
  fun_induction lines cs <;> simp_all

/-- A text with all of its lines ended, the last one too. -/
def lineEnded (cs : List Char) : List Char :=
  if cs ≠ [] ∧ cs.getLast? ≠ some '\n' then cs ++ ['\n'] else cs

theorem lineEnded_cons {cs : List Char} (h : cs ≠ []) (c : Char) :
    lineEnded (c :: cs) = c :: lineEnded cs := by
  obtain ⟨d, ds, rfl⟩ := List.exists_cons_of_ne_nil h
  simp only [lineEnded, List.getLast?_cons_cons, ne_eq, reduceCtorEq, not_false_eq_true, true_and]
  split <;> rfl

theorem flatMap_lines (cs : List Char) : (lines cs).flatMap (· ++ ['\n']) = lineEnded cs := by
  fun_induction lines cs with
  | case1 => rfl
  | case2 cs ih =>
    by_cases hcs : cs = []
    · subst hcs
      rfl
    · rw [lineEnded_cons hcs, ← ih]
      rfl
  | case3 c cs hc hl ih =>
    rw [lines_eq_nil] at hl
    subst hl
    simp [lineEnded, hc]
  | case4 c cs hc line more hl ih =>
    have hcs : cs ≠ [] := by
      rintro rfl
      cases hl
    rw [lineEnded_cons hcs, ← ih, hl]
    rfl

theorem lineEnded_cases (cs : List Char) :
    lineEnded cs = [] ∨ ∃ front, lineEnded cs = front ++ ['\n'] := by
  rw [lineEnded]
  split
  · exact .inr ⟨cs, rfl⟩
  · next h =>
    rcases List.eq_nil_or_concat cs with rfl | ⟨front, c, rfl⟩
    · exact .inl rfl
    · have hc : c = '\n' := by simpa using h
      exact .inr ⟨front, by rw [hc, List.concat_eq_append]⟩

end Text

namespace LineSource

variable {s : LineSource}

/-- Fetches `n` characters for what is written meanwhile. -/
def pull (s : LineSource) : Nat → List Notice × LineSource
  | 0 => ([], s)
  | n + 1 =>
    let (_, notices, s) := s.next
    let (more, s) := s.pull n
    (notices ++ more, s)

theorem delivered_ofText (cs : List Char) : (ofText cs).delivered = Text.lineEnded cs :=
  Text.flatMap_lines cs

theorem pull_succ (s : LineSource) (n : Nat) :
    s.pull (n + 1) = (s.next.2.1 ++ (s.next.2.2.pull n).1, (s.next.2.2.pull n).2) := rfl

theorem next_of_delivered_cons (he : s.ended = false) {c : Char} {cs : List Char}
    (hd : s.delivered = c :: cs) :
    s.next.2.2.ended = false ∧ s.next.2.2.delivered = cs ∧
      ∀ notice ∈ s.next.2.1, ∃ p, notice = .prompt p := by
  rcases s with ⟨lines, _ | ⟨d, pending⟩, prompt, ended⟩
  · cases he
    rcases lines with _ | ⟨_ | ⟨d, line⟩, lines⟩
    · cases hd
    · cases hd
      exact ⟨rfl, rfl, by simp [next]⟩
    · cases hd
      exact ⟨rfl, rfl, by simp [next]⟩
  · cases hd
    exact ⟨he, rfl, List.forall_mem_nil _⟩

theorem next_of_delivered_nil (he : s.ended = false) (hd : s.delivered = []) :
    s.next = (none, [.prompt s.prompt, .farewell], { s with ended := true }) ∧ s.pending = [] := by
  rcases s with ⟨lines, _ | ⟨d, pending⟩, prompt, ended⟩
  · cases he
    rcases lines with _ | ⟨line, lines⟩
    · exact ⟨rfl, rfl⟩
    · simp [delivered] at hd
  · cases hd

theorem pull_of_ended (he : s.ended = true) (hp : s.pending = []) (n : Nat) :
    s.pull n = ([], s) := by
  have hn : s.next = (none, [], s) := by simp [next, he, hp]
  induction n with
  | zero => rfl
  | succ n ih => rw [pull_succ, hn, ih, List.nil_append]

/-- Up to the last character only prompts are written. -/
theorem pull_of_le (he : s.ended = false) {n : Nat} (hn : n ≤ s.delivered.length) :
    (s.pull n).2.ended = false ∧ (s.pull n).2.delivered = s.delivered.drop n ∧
      ∀ notice ∈ (s.pull n).1, ∃ p, notice = .prompt p := by
  induction n generalizing s with
  | zero => exact ⟨he, rfl, List.forall_mem_nil _⟩
  | succ n ih =>
    cases hd : s.delivered with
    | nil =>
      rw [hd] at hn
      exact absurd hn (Nat.not_succ_le_zero n)
    | cons c cs =>
      obtain ⟨he', hd', hnotices⟩ := next_of_delivered_cons he hd
      have hn' : n ≤ s.next.2.2.delivered.length := by
        rw [hd, List.length_cons] at hn
        rw [hd']
        omega
      obtain ⟨hended, hdelivered, hmore⟩ := ih he' hn'
      rw [pull_succ]
      refine ⟨hended, by rw [hdelivered, hd', List.drop_succ_cons], ?_⟩
      intro notice hm
      exact (List.mem_append.1 hm).elim (hnotices notice) (hmore notice)

/-- Behind the last character a line end is written, after a prompt for a line that never comes. -/
theorem pull_of_lt (he : s.ended = false) {n : Nat} (hn : s.delivered.length < n) :
    ∃ prompts, (s.pull n).1 = prompts ++ [.farewell] ∧
      ∀ notice ∈ prompts, ∃ p, notice = .prompt p := by
  induction n generalizing s with
  | zero => exact absurd hn (Nat.not_lt_zero _)
  | succ n ih =>
    cases hd : s.delivered with
    | nil =>
      obtain ⟨hnext, hp⟩ := next_of_delivered_nil he hd
      refine ⟨[.prompt s.prompt], ?_, by simp⟩
      have hpull := @pull_of_ended { s with ended := true } rfl hp n
      rw [pull_succ, hnext]
      dsimp only
      rw [hpull]
      rfl
    | cons c cs =>
      obtain ⟨he', hd', hnotices⟩ := next_of_delivered_cons he hd
      have hn' : s.next.2.2.delivered.length < n := by
        rw [hd, List.length_cons] at hn
        rw [hd']
        omega
      obtain ⟨prompts, hpull, hprompts⟩ := ih he' hn'
      refine ⟨s.next.2.1 ++ prompts, ?_, ?_⟩
      · rw [pull_succ, hpull, List.append_assoc]
      · intro notice hm
        exact (List.mem_append.1 hm).elim (hnotices notice) (hprompts notice)

end LineSource
end StackLang
