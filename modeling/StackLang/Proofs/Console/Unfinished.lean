import StackLang.Proofs.Console.Delivery
import StackLang.Proofs.Console.Modes
import StackLang.Proofs.Reader.Remainder

namespace StackLang

namespace Text

theorem ended_take_iff {cs : List Char} {k : Nat} (hk : k ≤ cs.length) :
    Ended (cs.take k) ↔ StartsLine cs k := by
  cases k with
  | zero => exact iff_of_true (.inl rfl) (startsLine_zero cs)
  | succ k =>
    rw [startsLine_succ, List.take_succ_eq_append_getElem hk, List.getElem?_eq_getElem hk]
    constructor
    · rintro (h | ⟨front, h⟩)
      · exact absurd h (List.append_ne_nil_of_right_ne_nil _ (List.cons_ne_nil _ _))
      · rw [List.singleton_inj.1 (List.append_inj' h rfl).2]
    · intro h
      exact .inr ⟨cs.take k, by rw [Option.some.inj h]⟩

theorem Ended.lineEnded_eq {cs : List Char} (h : Ended cs) : lineEnded cs = cs := by
  rcases h with rfl | ⟨front, rfl⟩
  · rfl
  · simp [lineEnded]

theorem lines_row_append {row : List Char} (h : '\n' ∉ row) (cs : List Char) :
    lines (row ++ '\n' :: cs) = row :: lines cs := by
  induction row with
  | nil => rfl
  | cons c row ih =>
    rw [List.mem_cons, not_or] at h
    rw [List.cons_append, lines, if_neg (Ne.symm h.1), ih h.2]

theorem lines_flatMap_append {rows : List (List Char)} (h : ∀ row ∈ rows, '\n' ∉ row)
    (cs : List Char) : lines (rows.flatMap (· ++ ['\n']) ++ cs) = rows ++ lines cs := by
  induction rows with
  | nil => rfl
  | cons row rows ih =>
    obtain ⟨hrow, hrows⟩ := List.forall_mem_cons.1 h
    rw [List.flatMap_cons, List.append_assoc, List.append_assoc, List.singleton_append,
      lines_row_append hrow, ih hrows]
    rfl

/-- The first `n` lines of a text, each with its end. -/
def firstLines (cs : List Char) (n : Nat) : List Char :=
  ((lines cs).take n).flatMap (· ++ ['\n'])

/-- How many lines start among the first `k` characters. -/
def linesTo (cs : List Char) (k : Nat) : Nat := (lines (cs.take k)).length

theorem linesTo_succ (cs : List Char) (k : Nat) :
    linesTo cs (k + 1) = linesTo cs k + if k < cs.length ∧ StartsLine cs k then 1 else 0 :=
  length_lines_take_succ cs k

theorem linesTo_mono (cs : List Char) {i k : Nat} (h : i ≤ k) : linesTo cs i ≤ linesTo cs k := by
  induction h with
  | refl => exact Nat.le_refl _
  | step _ ih => exact Nat.le_trans ih (linesTo_succ cs _ ▸ Nat.le_add_right _ _)

theorem lines_lineEnded (cs : List Char) : lines (lineEnded cs) = lines cs := by
  have h := lines_flatMap_append (fun row => @not_mem_lines cs row) []
  rwa [List.append_nil, flatMap_lines, lines, List.append_nil] at h

section
variable {cs : List Char} {n : Nat}

theorem lines_firstLines (cs : List Char) (n : Nat) :
    lines (firstLines cs n) = (lines cs).take n := by
  have h := @lines_flatMap_append ((lines cs).take n)
    (fun row hm => not_mem_lines (List.mem_of_mem_take hm)) []
  rwa [List.append_nil, lines, List.append_nil] at h

theorem firstLines_append_rest (cs : List Char) (n : Nat) :
    firstLines cs n ++ ((lines cs).drop n).flatMap (· ++ ['\n']) = lineEnded cs := by
  rw [firstLines, ← List.flatMap_append, List.take_append_drop, flatMap_lines]

theorem length_firstLines_le (cs : List Char) (n : Nat) :
    (firstLines cs n).length ≤ (lineEnded cs).length := by
  rw [← firstLines_append_rest cs n, List.length_append]
  exact Nat.le_add_right _ _

theorem take_lineEnded_firstLines (cs : List Char) (n : Nat) :
    (lineEnded cs).take (firstLines cs n).length = firstLines cs n := by
  rw [← firstLines_append_rest cs n, List.take_left]

theorem ended_firstLines (cs : List Char) (n : Nat) : Ended (firstLines cs n) := by
  rcases List.eq_nil_or_concat ((lines cs).take n) with h | ⟨rows, row, h⟩
  · exact .inl (by rw [firstLines, h]; rfl)
  · exact .inr ⟨rows.flatMap (· ++ ['\n']) ++ row, by simp [firstLines, h]⟩

theorem linesTo_firstLines (h : n ≤ (lines cs).length) :
    linesTo (lineEnded cs) (firstLines cs n).length = n := by
  rw [linesTo, take_lineEnded_firstLines, lines_firstLines, List.length_take_of_le h]

theorem firstLines_of_startsLine {k : Nat} (hk : k ≤ (lineEnded cs).length)
    (h : StartsLine (lineEnded cs) k) :
    firstLines cs (linesTo (lineEnded cs) k) = (lineEnded cs).take k := by
  have he := (ended_take_iff hk).2 h
  have hfront : (lines ((lineEnded cs).take k)).flatMap (· ++ ['\n']) = (lineEnded cs).take k := by
    rw [flatMap_lines, he.lineEnded_eq]
  have hlines := lines_flatMap_append (fun row => @not_mem_lines ((lineEnded cs).take k) row)
    ((lineEnded cs).drop k)
  rw [hfront, List.take_append_drop, lines_lineEnded] at hlines
  rw [firstLines, hlines, linesTo, List.take_left, hfront]

theorem firstLines_succ {line : List Char} (h : (lines cs)[n]? = some line) :
    firstLines cs (n + 1) = firstLines cs n ++ (line ++ ['\n']) := by
  rw [firstLines, List.take_add_one, h, List.flatMap_append, firstLines, Option.toList_some,
    List.flatMap_singleton]

theorem linesTo_lineEnded_of_le {k : Nat} (h : (lineEnded cs).length ≤ k) :
    linesTo (lineEnded cs) k = (lines cs).length := by
  rw [linesTo, List.take_of_length_le h, lines_lineEnded]

theorem linesTo_lineEnded_le (cs : List Char) (k : Nat) :
    linesTo (lineEnded cs) k ≤ (lines cs).length := by
  have hmax := linesTo_mono (lineEnded cs) (Nat.le_max_left k (lineEnded cs).length)
  rwa [linesTo_lineEnded_of_le (Nat.le_max_right _ _)] at hmax

theorem length_firstLines_lt (h : n < (lines cs).length) :
    (firstLines cs n).length < (lineEnded cs).length := by
  refine Nat.lt_of_le_of_ne (length_firstLines_le cs n) fun heq => ?_
  have hl := linesTo_firstLines (Nat.le_of_lt h)
  rw [linesTo_lineEnded_of_le (Nat.le_of_eq heq.symm)] at hl
  omega

theorem startsLine_firstLines (cs : List Char) (n : Nat) :
    StartsLine (lineEnded cs) (firstLines cs n).length := by
  rw [← ended_take_iff (length_firstLines_le cs n), take_lineEnded_firstLines]
  exact ended_firstLines cs n

theorem linesTo_behind_firstLines (h : n < (lines cs).length) :
    linesTo (lineEnded cs) ((firstLines cs n).length + 1) = n + 1 := by
  rw [linesTo_succ, linesTo_firstLines (Nat.le_of_lt h),
    if_pos ⟨length_firstLines_lt h, startsLine_firstLines cs n⟩]

/-- Which lines, or the end of the text behind them, are among the first `k` characters. -/
theorem firstLines_lt_iff (h : n ≤ (lines cs).length) (k : Nat) :
    (firstLines cs n).length < k ↔
      n < linesTo (lineEnded cs) k + if (lineEnded cs).length < k then 1 else 0 := by
  have hle := length_firstLines_le cs n
  by_cases hk : (lineEnded cs).length < k
  · rw [if_pos hk, linesTo_lineEnded_of_le (Nat.le_of_lt hk)]
    omega
  · rw [if_neg hk, Nat.add_zero]
    constructor
    · intro hlt
      have hn : n < (lines cs).length := by
        refine Nat.lt_of_le_of_ne h fun heq => ?_
        have hall : firstLines cs n = lineEnded cs := by
          rw [firstLines, heq, List.take_length, flatMap_lines]
        rw [hall] at hlt
        exact hk hlt
      have hmono := linesTo_mono (lineEnded cs) (Nat.succ_le_of_lt hlt)
      rwa [Nat.succ_eq_add_one, linesTo_behind_firstLines hn] at hmono
    · intro hlt
      refine Nat.lt_of_not_le fun hge => ?_
      have hmono := linesTo_mono (lineEnded cs) hge
      rw [linesTo_firstLines h] at hmono
      omega

/-- The places where a line starts, up to and with the end of the text. -/
theorem filter_startsLine (cs : List Char) (n : Nat) :
    (List.range n).filter (StartsLine (lineEnded cs) ·) =
      (List.range (linesTo (lineEnded cs) n + if (lineEnded cs).length < n then 1 else 0)).map
        fun j => (firstLines cs j).length := by
  induction n with
  | zero => rfl
  | succ n ih =>
    rw [List.range_succ, List.filter_append, ih, linesTo_succ]
    by_cases hs : StartsLine (lineEnded cs) n
    · have hfirst : (firstLines cs (linesTo (lineEnded cs) n)).length = n := by
        rw [firstLines_of_startsLine hs.le hs, List.length_take_of_le hs.le]
      have hcount : (linesTo (lineEnded cs) n +
            if n < (lineEnded cs).length ∧ StartsLine (lineEnded cs) n then 1 else 0) +
          (if (lineEnded cs).length < n + 1 then 1 else 0) = linesTo (lineEnded cs) n + 1 := by
        have hle := hs.le
        rw [if_congr (and_iff_left hs) rfl rfl]
        split <;> split <;> omega
      rw [hcount, if_neg (Nat.not_lt.2 hs.le), List.range_succ, List.map_append]
      simp [hs, hfirst]
    · have hne : n ≠ (lineEnded cs).length := by
        rintro rfl
        exact hs (LineSource.startsLine_lineEnded cs)
      have hlt : (lineEnded cs).length < n + 1 ↔ (lineEnded cs).length < n := by omega
      simp [hs, hlt]

end
end Text

namespace Console
open Text

def Output.prompt? : Output → Option Prompt
  | .prompt p => some p
  | .out _ | .err _ => none

def prompts (outputs : List Output) : List Prompt := outputs.filterMap Output.prompt?

theorem prompts_append (os more : List Output) :
    prompts (os ++ more) = prompts os ++ prompts more :=
  List.filterMap_append

theorem prompts_answer (s : Session) (f : Form) : prompts (answer s f).1 = [] := by
  rw [prompts, answer_fst, List.filterMap_append, List.filterMap_map, List.filterMap_map]
  simp [Function.comp_def, Output.prompt?]

section
variable {text : List Char} {k : Nat}

theorem prompt_of_lt {i : Nat} (hi : k < i) (p : Prompt) :
    (if linesTo text i = linesTo text (k + 1) then
      if k < text.length ∧ StartsLine text k then .continuation else p
    else .continuation) = if linesTo text i = linesTo text k then p else .continuation := by
  have hle : linesTo text (k + 1) ≤ linesTo text i := linesTo_mono text hi
  rw [linesTo_succ] at hle ⊢
  by_cases hs : k < text.length ∧ StartsLine text k
  · rw [if_pos hs] at hle
    rw [if_pos hs, if_pos hs, ite_self, if_neg (Nat.ne_of_gt hle)]
  · rw [if_neg hs, if_neg hs, Nat.add_zero]

/-- What is written to get some characters: the prompt noted for the first line that is fetched, and
the continuation prompt for each further line. -/
theorem prompts_pull {source : LineSource} (h : source.Standing text k) (n : Nat) :
    prompts ((source.pull n).1.map .ofNotice) =
        ((List.range' k n).filter (StartsLine text ·)).map (fun i =>
          if linesTo text i = linesTo text k then source.prompt else .continuation) ∧
      (source.pull n).2.Standing text (k + n) := by
  induction n generalizing source k with
  | zero => exact ⟨rfl, h⟩
  | succ n ih =>
    obtain ⟨-, hwritten, hprompt, hstanding⟩ := h.next
    obtain ⟨hmore, hlast⟩ := ih hstanding
    rw [LineSource.pull_succ]
    refine ⟨?_, by rw [Nat.add_comm n, ← Nat.add_assoc]; exact hlast⟩
    dsimp only
    have htail : ∀ i ∈ (List.range' (k + 1) n).filter (StartsLine text ·),
        (if linesTo text i = linesTo text (k + 1) then source.next.2.2.prompt
          else .continuation) =
        if linesTo text i = linesTo text k then source.prompt else .continuation := by
      intro i hi
      rw [hprompt]
      exact prompt_of_lt (List.mem_range'_1.1 (List.mem_of_mem_filter hi)).1 _
    rw [List.map_append, prompts_append, hmore, List.map_congr_left htail, hwritten,
      List.range'_succ]
    by_cases hs : StartsLine text k
    · rw [if_pos hs, List.filter_cons_of_pos (by simpa using hs), List.map_cons, List.map_cons,
        if_pos rfl]
      split <;> rfl
    · rw [if_neg hs, List.filter_cons_of_neg (by simpa using hs)]
      rfl

/-- The prompt for the line that starts at a place, if forms start at the places given. -/
def promptAt (text : List Char) (starts : List Nat) (i : Nat) : Prompt :=
  if ∃ f ∈ starts, f ≤ i ∧ linesTo text f = linesTo text i then .primary else .continuation

theorem promptAt_cons_of_lt {i : Nat} (hk : k ≤ i) {starts : List Nat}
    (hstarts : ∀ f ∈ starts, i < f) : promptAt text (k :: starts) i =
      if linesTo text i = linesTo text k then .primary else .continuation := by
  refine if_congr ?_ rfl rfl
  constructor
  · rintro ⟨f, hf, hfi, hl⟩
    rcases List.mem_cons.1 hf with rfl | hf
    · exact hl.symm
    · exact absurd (hstarts f hf) (Nat.not_lt.2 hfi)
  · exact fun hl => ⟨k, List.mem_cons_self, hk, hl.symm⟩

/-- Of the places where forms start, only the last one before the line matters. -/
theorem promptAt_cons_cons {i m : Nat} (hk : k ≤ m) (hm : m ≤ i) (starts : List Nat) :
    promptAt text (k :: m :: starts) i = promptAt text (m :: starts) i := by
  refine if_congr ?_ rfl rfl
  constructor
  · rintro ⟨f, hf, hfi, hl⟩
    rcases List.mem_cons.1 hf with rfl | hf
    · have hfrom := linesTo_mono text hk
      have hto := linesTo_mono text hm
      exact ⟨m, List.mem_cons_self, hm, by omega⟩
    · exact ⟨f, hf, hfi, hl⟩
  · rintro ⟨f, hf, hfi, hl⟩
    exact ⟨f, List.mem_cons_of_mem k hf, hfi, hl⟩

/-- The prompts of a dialogue. The reader has fetched as much of the text as has been asked for, and
a form starts wherever another one has been read. -/
theorem prompts_converse (s : Session) {source : LineSource} (h : source.Standing text k)
    {final : Cursor} {steps : List (Form × Cursor)}
    (hfirst : ∀ step ∈ steps, k ≤ step.2.fetched ∧ step.2.fetched ≤ final.fetched)
    (hascending : steps.Pairwise (·.2.fetched ≤ ·.2.fetched)) :
    prompts (converse s source k final steps).1 =
      ((List.range' k (final.fetched - k)).filter (StartsLine text ·)).map
        (promptAt text (k :: steps.map (·.2.fetched))) := by
  -- What is pulled for a form is a stretch of places, and the places of all forms lie side by side.
  induction steps generalizing s source k with
  | nil =>
    have hpull := (prompts_pull h.startForm (final.fetched - k)).1
    change prompts ((source.startForm.pull (final.fetched - k)).1.map .ofNotice) = _
    rw [hpull]
    refine List.map_congr_left fun i hi => ?_
    have hki := (List.mem_range'_1.1 (List.mem_of_mem_filter hi)).1
    exact (promptAt_cons_of_lt hki (List.forall_mem_nil _)).symm
  | cons step steps ih =>
    obtain ⟨⟨hfrom, hto⟩, hrest⟩ := List.forall_mem_cons.1 hfirst
    obtain ⟨hnext, hascending⟩ := List.pairwise_cons.1 hascending
    obtain ⟨hpull, hstanding⟩ := prompts_pull h.startForm (step.2.fetched - k)
    rw [Nat.add_sub_cancel' hfrom] at hstanding
    have hlater := ih (answer s step.1).2 hstanding
      (fun step' hm => ⟨hnext step' hm, (hrest step' hm).2⟩) hascending
    have hsplit : List.range' k (final.fetched - k) =
        List.range' k (step.2.fetched - k) ++
          List.range' step.2.fetched (final.fetched - step.2.fetched) := by
      have happend := @List.range'_append_1 k (step.2.fetched - k) (final.fetched - step.2.fetched)
      rw [Nat.add_sub_cancel' hfrom] at happend
      rw [happend]
      congr 1
      omega
    rw [converse_cons]
    dsimp only
    rw [prompts_append, prompts_append, prompts_answer, List.append_nil, hpull, hlater, hsplit,
      List.filter_append, List.map_append]
    congr 1
    · refine List.map_congr_left fun i hi => ?_
      obtain ⟨hki, hlt⟩ := List.mem_range'_1.1 (List.mem_of_mem_filter hi)
      rw [Nat.add_sub_cancel' hfrom] at hlt
      refine (promptAt_cons_of_lt hki fun f hf => Nat.lt_of_lt_of_le hlt ?_).symm
      obtain ⟨step', hm, rfl⟩ := List.mem_map.1 hf
      rcases List.mem_cons.1 hm with rfl | hm
      · exact Nat.le_refl _
      · exact hnext step' hm
    · refine List.map_congr_left fun i hi => ?_
      have hmi := (List.mem_range'_1.1 (List.mem_of_mem_filter hi)).1
      exact (promptAt_cons_cons hfrom hmi _).symm

end

theorem prompts_interact (s : Session) (stdin : List Char) :
    prompts (interact s stdin).1 =
      ((List.range (Course.ofText (lineEnded (unifyNewlines stdin))).final.fetched).filter
          (StartsLine (lineEnded (unifyNewlines stdin)) ·)).map
        (promptAt (lineEnded (unifyNewlines stdin)) (0 ::
          (Course.ofText (lineEnded (unifyNewlines stdin))).formSteps.map (·.2.fetched))) := by
  have hconverse := prompts_converse s (LineSource.standing_ofText (unifyNewlines stdin))
    (fun step hm => ⟨Nat.zero_le _, Course.fetched_le_final_of_formSteps _ step hm⟩)
    (Course.formSteps_ascending (lineEnded (unifyNewlines stdin)))
  rw [Nat.sub_zero, ← List.range_eq_range'] at hconverse
  have herror (e? : Option SyntaxError) :
      prompts (e?.toList.map (.err <| ·.message ++ "\n")) = [] := by
    cases e? <;> rfl
  rw [interact_eq_converse]
  dsimp only
  rw [prompts_append, herror, List.append_nil]
  exact hconverse

theorem countP_lt_iff {a b : Nat} (hab : a ≤ b) (l : List Nat) :
    l.countP (· ≤ a) < l.countP (· ≤ b) ↔ ∃ n ∈ l, a < n ∧ n ≤ b := by
  induction l with
  | nil => simp
  | cons n l ih =>
    rw [List.countP_cons, List.countP_cons, List.exists_mem_cons_iff, ← ih]
    have hle := List.countP_mono_left (l := l) (p := (· ≤ a)) (q := (· ≤ b)) fun n _ hn => by
      simp only [decide_eq_true_eq] at hn ⊢
      omega
    simp only [decide_eq_true_eq]
    split <;> split <;> omega

section
variable {cs : List Char} {j : Nat}

theorem asked_iff (cs : List Char) (j : Nat) :
    j < linesTo (lineEnded cs) (Course.ofText (lineEnded cs)).final.fetched +
        (if (lineEnded cs).length < (Course.ofText (lineEnded cs)).final.fetched then 1 else 0) ↔
      j ≤ (lines cs).length ∧ (Course.ofText (firstLines cs j)).stopsEarly = false := by
  have hstops : (Course.ofText (firstLines cs j)).stopsEarly = false ↔
      (firstLines cs j).length < (Course.ofText (lineEnded cs)).final.fetched := by
    have hs := Course.stopsEarly_take (lineEnded cs) (length_firstLines_le cs j)
    rw [take_lineEnded_firstLines] at hs
    rw [← Nat.not_le, ← hs, Bool.not_eq_true]
  rw [hstops]
  constructor
  · intro hlt
    have hj : j ≤ (lines cs).length := by
      have hle := linesTo_lineEnded_le cs (Course.ofText (lineEnded cs)).final.fetched
      split at hlt <;> omega
    exact ⟨hj, (firstLines_lt_iff hj _).2 hlt⟩
  · rintro ⟨hj, hlt⟩
    exact (firstLines_lt_iff hj _).1 hlt

theorem promptAt_zero (text : List Char) (starts : List Nat) :
    promptAt text (0 :: starts) 0 = .primary :=
  if_pos ⟨0, List.mem_cons_self, Nat.le_refl 0, rfl⟩

theorem length_forms_firstLines (cs : List Char) (j : Nat) :
    (Course.ofText (firstLines cs j)).forms.length =
      ((Course.ofText (lineEnded cs)).formSteps.map (·.2.fetched)).countP
        (· ≤ (firstLines cs j).length) := by
  have hforms := @Course.length_forms_take (firstLines cs j).length (lineEnded cs)
  rw [take_lineEnded_firstLines] at hforms
  rw [hforms (ended_firstLines cs j), List.countP_map]
  rfl

theorem length_firstLines_mono (cs : List Char) (j : Nat) :
    (firstLines cs j).length ≤ (firstLines cs (j + 1)).length := by
  cases hj : (lines cs)[j]? with
  | none =>
    have hle := List.getElem?_eq_none_iff.1 hj
    rw [firstLines, firstLines, List.take_of_length_le hle,
      List.take_of_length_le (Nat.le_succ_of_le hle)]
  | some line =>
    rw [firstLines_succ hj, List.length_append]
    exact Nat.le_add_right _ _

theorem length_forms_firstLines_mono (cs : List Char) (j : Nat) :
    (Course.ofText (firstLines cs j)).forms.length ≤
      (Course.ofText (firstLines cs (j + 1))).forms.length := by
  rw [length_forms_firstLines, length_forms_firstLines]
  refine List.countP_mono_left fun n _ hn => ?_
  have hle := length_firstLines_mono cs j
  simp only [decide_eq_true_eq] at hn ⊢
  omega

/-- Behind a line, the prompt is the primary one if the line has completed a form. -/
theorem promptAt_firstLines (hj : j < (lines cs).length) :
    promptAt (lineEnded cs) (0 :: (Course.ofText (lineEnded cs)).formSteps.map (·.2.fetched))
        (firstLines cs (j + 1)).length =
      if (Course.ofText (firstLines cs j)).forms.length <
        (Course.ofText (firstLines cs (j + 1))).forms.length then .primary else .continuation := by
  have hbefore := linesTo_firstLines (Nat.le_of_lt hj)
  have hbehind := linesTo_behind_firstLines hj
  have hthis := linesTo_firstLines (Nat.succ_le_of_lt hj)
  rw [length_forms_firstLines, length_forms_firstLines]
  refine if_congr ?_ rfl rfl
  rw [countP_lt_iff (length_firstLines_mono cs j), hthis]
  constructor
  · rintro ⟨f, hf, hfi, hl⟩
    -- On the line before, or at the start of the text, fewer lines have started.
    have hlt : (firstLines cs j).length < f := by
      refine Nat.lt_of_not_le fun hge => ?_
      have hmono := linesTo_mono (lineEnded cs) hge
      omega
    rcases List.mem_cons.1 hf with rfl | hf
    · exact absurd hlt (Nat.not_lt_zero _)
    · exact ⟨f, hf, hlt, hfi⟩
  · rintro ⟨f, hf, hlt, hfi⟩
    have hfrom := linesTo_mono (lineEnded cs) (Nat.succ_le_of_lt hlt)
    have hto := linesTo_mono (lineEnded cs) hfi
    rw [Nat.succ_eq_add_one, hbehind] at hfrom
    rw [hthis] at hto
    exact ⟨f, List.mem_cons_of_mem 0 hf, hfi, Nat.le_antisymm hto hfrom⟩

end

/-- All prompts of a dialogue, line by line. -/
theorem getElem?_prompts_interact (s : Session) (stdin : List Char) (j : Nat) (p : Prompt) :
    (prompts (interact s stdin).1)[j]? = some p ↔
      (j ≤ (lines (unifyNewlines stdin)).length ∧
        (Course.ofText (firstLines (unifyNewlines stdin) j)).stopsEarly = false) ∧
      p = promptAt (lineEnded (unifyNewlines stdin))
        (0 :: (Course.ofText (lineEnded (unifyNewlines stdin))).formSteps.map (·.2.fetched))
        (firstLines (unifyNewlines stdin) j).length := by
  rw [prompts_interact, filter_startsLine, List.map_map, List.getElem?_map, ← asked_iff]
  generalize linesTo (lineEnded (unifyNewlines stdin)) _ + _ = n
  by_cases hj : j < n
  · rw [List.getElem?_range hj, Option.map_some, Option.some_inj, and_iff_right hj, eq_comm]
    rfl
  · rw [List.getElem?_eq_none (by rw [List.length_range]; exact Nat.le_of_not_lt hj)]
    exact iff_of_false nofun fun h => hj h.1

/-- What has been read of an input when a number of lines have been fetched. -/
def linesRead (stdin : List Char) (n : Nat) : List Char := firstLines (unifyNewlines stdin) n

/-- Whether a prompt tells if a form has been left unfinished: the primary prompt stands for
nothing but blanks and comments behind the last form. -/
def Tells (p : Prompt) (text : List Char) : Prop :=
  p = .primary ↔ Filler (Course.remainder text)

/-- What is left unfinished behind the last form, if not filler, is a list or a text literal. -/
theorem unterminated_of_not_filler {text : List Char} (he : Ended text)
    (hs : (Course.ofText text).stopsEarly = false) (h : ¬Filler (Course.remainder text)) :
    ∃ e, (Course.ofText text).error? = some e ∧ e.fault ≠ .invalidForm := by
  rw [Course.filler_remainder he] at h
  obtain ⟨e, herror⟩ := Option.ne_none_iff_exists'.1 h
  refine ⟨e, herror, ?_⟩
  rw [Course.stopsEarly, herror] at hs
  simpa using hs

/-- A prompt does not tell if a form is left unfinished, if a line with no more than blanks and
comments is behind all forms so far, or if a line completes a form and begins another one. -/
theorem not_tells_iff {cs line : List Char} {j : Nat} (hj : (lines cs)[j]? = some line)
    {p : Prompt} (hp : p = if (Course.ofText (firstLines cs j)).forms.length <
      (Course.ofText (firstLines cs (j + 1))).forms.length then .primary else .continuation) :
    ¬Tells p (firstLines cs (j + 1)) ↔
      (Filler (Course.remainder (firstLines cs j)) ∧ Filler (line ++ ['\n'])) ∨
      ((Course.ofText (firstLines cs j)).forms.length <
          (Course.ofText (firstLines cs (j + 1))).forms.length ∧
        ¬Filler (Course.remainder (firstLines cs (j + 1)))) := by
  have he := ended_firstLines cs j
  have hrem := @Course.remainder_append (firstLines cs j) (line ++ ['\n']) he
  have hforms := @Course.forms_append_filler (firstLines cs j) (line ++ ['\n']) he
  rw [← firstLines_succ hj] at hrem hforms
  by_cases hlt : (Course.ofText (firstLines cs j)).forms.length <
      (Course.ofText (firstLines cs (j + 1))).forms.length
  · rw [if_pos hlt] at hp
    constructor
    · intro h
      exact .inr ⟨hlt, fun hf => h (iff_of_true hp hf)⟩
    · rintro (⟨hr, hl⟩ | ⟨-, hn⟩) h
      · rw [hforms hr hl] at hlt
        exact Nat.lt_irrefl _ hlt
      · exact hn (h.1 hp)
  · rw [if_neg hlt] at hp
    have heq := Nat.le_antisymm (length_forms_firstLines_mono cs j) (Nat.le_of_not_lt hlt)
    -- No form has been completed, so what is left is what was left before, and the line.
    have hsplit := @Grammar.filler_append _ (line ++ ['\n']) (Course.ended_remainder he)
    rw [← hrem heq] at hsplit
    have hne : p ≠ .primary := by
      rw [hp]
      nofun
    rw [Tells, hsplit]
    constructor
    · intro h
      exact .inl (by_contra fun hn => h (iff_of_false hne hn))
    · rintro (hf | ⟨hc, -⟩) h
      · exact hne (h.2 hf)
      · exact hlt hc

/-- The prompts of a dialogue, whatever session it is with. A line is asked for when all lines
before it have been read, unless one of them has a character that nothing begins with. The first
prompt is the primary one, and so is each prompt behind a line that has completed a form; all others
are continuation prompts. So a prompt tells whether a form has been left unfinished, except behind a
line that has no more than blanks and comments while nothing is unfinished, and behind a line that
completes a form and leaves another one unfinished. -/
theorem prompts_tell_completed_forms (s : Session) (stdin : List Char) :
    (prompts (interact s stdin).1)[0]? = some .primary ∧
    (∀ j p, (prompts (interact s stdin).1)[j + 1]? = some p ↔
      j < (lines (unifyNewlines stdin)).length ∧
      (Course.ofText (linesRead stdin (j + 1))).stopsEarly = false ∧
      p = if (Course.ofText (linesRead stdin j)).forms.length <
        (Course.ofText (linesRead stdin (j + 1))).forms.length then .primary else .continuation) ∧
    Tells .primary (linesRead stdin 0) ∧
    ∀ j line p, (lines (unifyNewlines stdin))[j]? = some line →
      (prompts (interact s stdin).1)[j + 1]? = some p →
      (¬Filler (Course.remainder (linesRead stdin (j + 1))) →
        ∃ e, (Course.ofText (linesRead stdin (j + 1))).error? = some e ∧
          e.fault ≠ .invalidForm) ∧
      (¬Tells p (linesRead stdin (j + 1)) ↔
        (Filler (Course.remainder (linesRead stdin j)) ∧ Filler (line ++ ['\n'])) ∨
        ((Course.ofText (linesRead stdin j)).forms.length <
            (Course.ofText (linesRead stdin (j + 1))).forms.length ∧
          ¬Filler (Course.remainder (linesRead stdin (j + 1))))) := by
  have hprompts := getElem?_prompts_interact s stdin
  have hlater (j : Nat) (p : Prompt) : (prompts (interact s stdin).1)[j + 1]? = some p ↔
      j < (lines (unifyNewlines stdin)).length ∧
      (Course.ofText (linesRead stdin (j + 1))).stopsEarly = false ∧
      p = if (Course.ofText (linesRead stdin j)).forms.length <
          (Course.ofText (linesRead stdin (j + 1))).forms.length then .primary
        else .continuation := by
    rw [hprompts, and_assoc]
    refine and_congr_right fun hj => ?_
    rw [promptAt_firstLines hj]
    rfl
  refine ⟨?_, hlater, ?_, fun j line p hj hp => ?_⟩
  · refine (hprompts 0 _).2 ⟨⟨Nat.zero_le _, ?_⟩, (promptAt_zero _ _).symm⟩
    change (Course.ofText []).stopsEarly = false
    rw [Course.stopsEarly, Course.error?_nil]
    rfl
  · exact iff_of_true rfl ((Course.filler_remainder (.inl rfl)).2 Course.error?_nil)
  · obtain ⟨-, hs, hshown⟩ := (hlater j p).1 hp
    exact ⟨unterminated_of_not_filler (ended_firstLines _ _) hs, not_tells_iff hj hshown⟩

/-- A list over two lines, and a comment on a line of its own behind it. -/
theorem prompts_tell_completed_forms_list :
    (prompts (interact (.start false false) "(+\n1)\n;".toList).1)[1]? = some .continuation ∧
      (∃ e, (Course.ofText (linesRead "(+\n1)\n;".toList 1)).error? = some e ∧
        e.fault ≠ .invalidForm) ∧
      (prompts (interact (.start false false) "(+\n1)\n;".toList).1)[3]? = some .continuation ∧
      ¬Tells .continuation (linesRead "(+\n1)\n;".toList 3) := by
  obtain ⟨-, hprompts, -, htells⟩ :=
    prompts_tell_completed_forms (.start false false) "(+\n1)\n;".toList
  have hlist := (hprompts 0 .continuation).2 (by decide +kernel)
  have hcomment := (hprompts 2 .continuation).2 (by decide +kernel)
  have hopen : ¬Filler (Course.remainder (linesRead "(+\n1)\n;".toList 1)) := fun h =>
    absurd ((Course.filler_remainder (ended_firstLines _ 1)).1 h) (by decide +kernel)
  have hclosed : Filler (Course.remainder (linesRead "(+\n1)\n;".toList 2)) :=
    (Course.filler_remainder (ended_firstLines _ 2)).2 (by decide +kernel)
  have hline : Filler ([';'] ++ ['\n']) := @Filler.comment [] [] List.not_mem_nil .nil
  exact ⟨hlist, (htells 0 ['(', '+'] _ (by decide) hlist).1 hopen, hcomment,
    (htells 2 [';'] _ (by decide) hcomment).2.2 (.inl ⟨hclosed, hline⟩)⟩

/-- A blank line, behind which nothing is unfinished, and a line behind which something is. -/
theorem prompts_blank_line_and_open_list :
    prompts (interact (.start false false) "\n7 (f\n)\n".toList).1 =
        [.primary, .continuation, .primary, .primary] ∧
      Filler (Course.remainder (linesRead "\n7 (f\n)\n".toList 1)) ∧
      ¬Filler (Course.remainder (linesRead "\n7 (f\n)\n".toList 2)) := by
  refine ⟨?_, ?_, ?_⟩
  · rw [interact_eq_converse]
    decide +kernel
  · exact (Course.filler_remainder (ended_firstLines _ 1)).2 (by decide +kernel)
  · exact fun h => absurd ((Course.filler_remainder (ended_firstLines _ 2)).1 h) (by decide +kernel)

end Console
end StackLang
