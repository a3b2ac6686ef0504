import Mathlib.Data.List.DropRight
import StackLang.Proofs.Console.Prompting

namespace StackLang

namespace Text

/-- Whether a line starts at a place. Behind the last line feed one starts too, if only to find that
the text has ended. -/
def StartsLine (cs : List Char) (k : Nat) : Prop := k = 0 ∨ cs[k - 1]? = some '\n'

instance (cs : List Char) (k : Nat) : Decidable (StartsLine cs k) :=
  inferInstanceAs (Decidable (_ ∨ _))

theorem startsLine_zero (cs : List Char) : StartsLine cs 0 := .inl rfl

theorem startsLine_succ {cs : List Char} {k : Nat} :
    StartsLine cs (k + 1) ↔ cs[k]? = some '\n' := by
  simp [StartsLine]

theorem not_startsLine_of_lt {cs : List Char} {k : Nat} (h : cs.length < k) :
    ¬StartsLine cs k := by
  rintro (rfl | hk)
  · exact Nat.not_lt_zero _ h
  · rw [List.getElem?_eq_none (Nat.le_sub_one_of_lt h)] at hk
    cases hk

theorem StartsLine.le {cs : List Char} {k : Nat} (h : StartsLine cs k) : k ≤ cs.length :=
  Nat.le_of_not_lt fun hk => not_startsLine_of_lt hk h

theorem not_mem_lines {cs line : List Char} (h : line ∈ lines cs) : '\n' ∉ line := by
  fun_induction lines cs generalizing line with
  | case1 => cases h
  | case2 cs ih =>
    rcases List.mem_cons.1 h with rfl | h
    · exact List.not_mem_nil
    · exact ih h
  | case3 c cs hc hl ih =>
    obtain rfl := List.mem_singleton.1 h
    simpa using Ne.symm hc
  | case4 c cs hc first more hl ih =>
    rw [hl] at ih
    rcases List.mem_cons.1 h with rfl | h
    · have hfirst := ih List.mem_cons_self
      simpa [hfirst] using Ne.symm hc
    · exact ih (List.mem_cons_of_mem first h)

theorem length_lines_concat (cs : List Char) (c : Char) :
    (lines (cs ++ [c])).length =
      (lines cs).length + if StartsLine cs cs.length then 1 else 0 := by
  fun_induction lines cs with
  | case1 => by_cases hc : c = '\n' <;> simp [lines, StartsLine, hc]
  | case2 cs ih =>
    have hs : StartsLine ('\n' :: cs) ('\n' :: cs).length ↔ StartsLine cs cs.length := by
      cases cs <;> simp [StartsLine]
    rw [List.cons_append, lines, if_pos rfl, List.length_cons, List.length_cons, ih,
      if_congr hs rfl rfl]
    omega
  | case3 d cs hd hl ih =>
    obtain rfl := lines_eq_nil.1 hl
    by_cases hc : c = '\n' <;> simp [lines, StartsLine, hc, hd]
  | case4 d cs hd first more hl ih =>
    have hcs : cs ≠ [] := by
      rintro rfl
      cases hl
    have hs : StartsLine (d :: cs) (d :: cs).length ↔ StartsLine cs cs.length := by
      obtain ⟨e, es, rfl⟩ := List.exists_cons_of_ne_nil hcs
      simp [StartsLine]
    rw [hl] at ih
    rw [List.cons_append, lines, if_neg hd, if_congr hs rfl rfl]
    cases hm : lines (cs ++ [c]) with
    | nil => simp [lines_eq_nil] at hm
    | cons line rest =>
      rw [hm] at ih
      exact ih

theorem startsLine_take {cs : List Char} {k : Nat} (h : k ≤ cs.length) :
    StartsLine (cs.take k) (cs.take k).length ↔ StartsLine cs k := by
  rw [List.length_take_of_le h]
  cases k with
  | zero => exact iff_of_true (startsLine_zero _) (startsLine_zero _)
  | succ k => rw [startsLine_succ, startsLine_succ, List.getElem?_take_of_lt (Nat.lt_succ_self k)]

theorem length_lines_take_succ (cs : List Char) (k : Nat) :
    (lines (cs.take (k + 1))).length =
      (lines (cs.take k)).length + if k < cs.length ∧ StartsLine cs k then 1 else 0 := by
  by_cases hk : k < cs.length
  · rw [List.take_succ_eq_append_getElem hk, length_lines_concat,
      if_congr (startsLine_take (Nat.le_of_lt hk)) rfl rfl]
    simp [hk]
  · have hle : cs.length ≤ k := Nat.le_of_not_lt hk
    rw [List.take_of_length_le hle, List.take_of_length_le (Nat.le_succ_of_le hle)]
    simp [hk]

/-- A line with its line feed, or what is left of one. -/
def IsRow (cs : List Char) : Prop := ∃ body, cs = body ++ ['\n'] ∧ '\n' ∉ body

theorem IsRow.tail {c : Char} {cs : List Char} (h : IsRow (c :: cs)) :
    (cs = [] ∨ IsRow cs) ∧ (cs = [] ↔ c = '\n') := by
  obtain ⟨_ | ⟨d, body⟩, hcs, hbody⟩ := h
  · obtain ⟨rfl, rfl⟩ := List.cons.inj hcs
    exact ⟨.inl rfl, iff_of_true rfl rfl⟩
  · obtain ⟨rfl, rfl⟩ := List.cons.inj hcs
    rw [List.mem_cons, not_or] at hbody
    exact ⟨.inr ⟨body, rfl, hbody.2⟩, iff_of_false (by simp) (Ne.symm hbody.1)⟩

end Text

namespace LineSource
open Text

/-- A line source that has been asked for `k` characters of a text. -/
structure Standing (text : List Char) (k : Nat) (s : LineSource) : Prop where
  delivered_eq : s.delivered = text.drop k
  ended_iff : s.ended = true ↔ text.length < k
  pending_iff : s.pending = [] ↔ text.length < k ∨ StartsLine text k
  row : s.pending = [] ∨ IsRow s.pending
  lines : ∀ line ∈ s.lines, '\n' ∉ line

theorem standing_ofText (cs : List Char) : (ofText cs).Standing (lineEnded cs) 0 where
  delivered_eq := delivered_ofText cs
  ended_iff := iff_of_false Bool.false_ne_true (Nat.not_lt_zero _)
  pending_iff := iff_of_true rfl (.inr (startsLine_zero _))
  row := .inl rfl
  lines _ h := not_mem_lines h

namespace Standing

variable {text : List Char} {k : Nat} {s : LineSource}

theorem startForm (h : s.Standing text k) : s.startForm.Standing text k :=
  ⟨h.delivered_eq, h.ended_iff, h.pending_iff, h.row, h.lines⟩

theorem behind {c : Char} {cs : List Char} (hrow : IsRow (c :: cs)) {rows : List (List Char)}
    (hrows : ∀ line ∈ rows, '\n' ∉ line)
    (hdelivered : c :: cs ++ rows.flatMap (· ++ ['\n']) = text.drop k) (prompt : Prompt) :
    text[k]? = some c ∧ k < text.length ∧ Standing text (k + 1) ⟨rows, cs, prompt, false⟩ := by
  have hdrop := congrArg List.tail hdelivered
  have hc := congrArg List.head? hdelivered
  rw [List.head?_drop] at hc
  have hk : k < text.length := by
    refine Nat.lt_of_not_le fun hle => ?_
    rw [List.getElem?_eq_none hle] at hc
    cases hc
  obtain ⟨hrest, hend⟩ := hrow.tail
  have hlength : ¬text.length < k + 1 := Nat.not_lt.2 hk
  refine ⟨hc.symm, hk, ?_, iff_of_false Bool.false_ne_true hlength, ?_, hrest, hrows⟩
  · rw [List.tail_drop] at hdrop
    exact hdrop
  · rw [or_iff_right hlength, startsLine_succ, ← hc]
    simpa using hend

theorem not_startsLine_of_pending (h : s.Standing text k) (hp : s.pending ≠ []) :
    ¬StartsLine text k := fun hs => hp (h.pending_iff.2 (.inr hs))

theorem startsLine_of_pending (h : s.Standing text k) (hp : s.pending = [])
    (he : s.ended = false) : StartsLine text k := by
  refine (h.pending_iff.1 hp).resolve_left fun hk => ?_
  rw [h.ended_iff.2 hk] at he
  cases he

theorem pending_of_startsLine (h : s.Standing text k) (hs : StartsLine text k) : s.pending = [] :=
  h.pending_iff.2 (.inr hs)

/-- Behind the end of the text there is nothing but its end. -/
theorem of_ended (h : s.Standing text k) (he : s.ended = true) :
    s.next = (none, [], s) ∧ s.Standing text (k + 1) := by
  have hk := h.ended_iff.1 he
  have hp : s.pending = [] := h.pending_iff.2 (.inl hk)
  have hk' : text.length < k + 1 := Nat.lt_succ_of_lt hk
  have hdrop : text.drop k = text.drop (k + 1) := by
    rw [List.drop_eq_nil_iff.2 (Nat.le_of_lt hk), List.drop_eq_nil_iff.2 (Nat.le_of_lt hk')]
  refine ⟨by simp [LineSource.next, hp, he], ?_⟩
  exact
    ⟨h.delivered_eq.trans hdrop, iff_of_true he hk', iff_of_true hp (.inl hk'), .inl hp, h.lines⟩

theorem of_lines_nil (h : s.Standing text k) (he : s.ended = false) (hp : s.pending = [])
    (hl : s.lines = []) : k = text.length ∧ Standing text (k + 1) { s with ended := true } := by
  have hk : ¬text.length < k := fun hk => by
    rw [h.ended_iff.2 hk] at he
    cases he
  have hnil : s.delivered = [] := by rw [delivered, hp, hl, he]; rfl
  have hle : text.length ≤ k := List.drop_eq_nil_iff.1 (h.delivered_eq.symm.trans hnil)
  have hk' : text.length < k + 1 := Nat.lt_succ_of_le hle
  have hdrop : text.drop (k + 1) = [] := List.drop_eq_nil_iff.2 (Nat.le_of_lt hk')
  have hended : delivered { s with ended := true } = [] := by rw [delivered, hp]; rfl
  exact ⟨by omega, hended.trans hdrop.symm, iff_of_true rfl hk', iff_of_true hp (.inl hk'), .inl hp,
    h.lines⟩

/-- A line source that is asked for one more character. It writes a prompt if a line starts there, a
line end too if the text ends there, and otherwise nothing. -/
theorem next (h : s.Standing text k) :
    s.next.1 = text[k]? ∧
    s.next.2.1 = (if StartsLine text k then
      .prompt s.prompt :: if k = text.length then [.farewell] else [] else []) ∧
    s.next.2.2.prompt =
      (if k < text.length ∧ StartsLine text k then .continuation else s.prompt) ∧
    s.next.2.2.Standing text (k + 1) := by
  -- Inside a row no line starts. With nothing pending one does, unless the end has been met before.
  cases hp : s.pending with
  | cons c cs =>
    have hs := h.not_startsLine_of_pending (by simp [hp])
    have hrow : IsRow (c :: cs) := hp ▸ h.row.resolve_left (by simp [hp])
    have he : s.ended = false := Bool.eq_false_iff.2 fun he => by
      have hk := h.pending_iff.2 (.inl (h.ended_iff.1 he))
      rw [hp] at hk
      cases hk
    have hdelivered : c :: cs ++ s.lines.flatMap (· ++ ['\n']) = text.drop k := by
      rw [← h.delivered_eq, delivered, hp, he]
      rfl
    obtain ⟨hc, -, hstanding⟩ := behind hrow h.lines hdelivered s.prompt
    have hnext : s.next = (some c, [], ⟨s.lines, cs, s.prompt, false⟩) := by
      simp [LineSource.next, hp, he]
    rw [hnext, if_neg hs, if_neg fun hc => hs hc.2]
    exact ⟨hc.symm, rfl, rfl, hstanding⟩
  | nil =>
    cases he : s.ended with
    | true =>
      obtain ⟨hnext, hstanding⟩ := h.of_ended he
      have hk := h.ended_iff.1 he
      have hs := not_startsLine_of_lt hk
      rw [hnext, if_neg hs, if_neg fun hc => hs hc.2]
      exact ⟨(List.getElem?_eq_none (Nat.le_of_lt hk)).symm, rfl, rfl, hstanding⟩
    | false =>
      have hs := h.startsLine_of_pending hp he
      cases hl : s.lines with
      | nil =>
        obtain ⟨rfl, hstanding⟩ := h.of_lines_nil he hp hl
        have hnext : s.next = (none, [.prompt s.prompt, .farewell], { s with ended := true }) := by
          simp [LineSource.next, hp, he, hl]
        rw [hnext, if_pos hs, if_pos rfl, if_neg fun hc => Nat.lt_irrefl _ hc.1]
        exact ⟨(List.getElem?_eq_none (Nat.le_refl _)).symm, rfl, rfl, hstanding⟩
      | cons line rows =>
        have hlines := h.lines
        rw [hl] at hlines
        obtain ⟨hline, hrows⟩ := List.forall_mem_cons.1 hlines
        obtain ⟨c, cs, hcs⟩ : ∃ c cs, line ++ ['\n'] = c :: cs :=
          List.exists_cons_of_ne_nil (by simp)
        have hdelivered : c :: cs ++ rows.flatMap (· ++ ['\n']) = text.drop k := by
          rw [← h.delivered_eq, delivered, hp, hl, he, ← hcs]
          rfl
        obtain ⟨hc, hlt, hstanding⟩ :=
          behind ⟨line, hcs.symm, hline⟩ hrows hdelivered .continuation
        have hnext : s.next = (some c, [.prompt s.prompt], ⟨rows, cs, .continuation, false⟩) := by
          simp [LineSource.next, hp, he, hl, hcs]
        rw [hnext, if_pos hs, if_neg (Nat.ne_of_lt hlt), if_pos ⟨hlt, hs⟩]
        exact ⟨hc.symm, rfl, rfl, hstanding⟩

end Standing

/-- What a line source can be asked for: the next character, or to note that a form starts. -/
inductive Demand where
  | next
  | startForm
deriving DecidableEq, Repr

structure Delivery where
  demand : Demand
  /-- What was left of the line fetched last when the demand was made. -/
  pending : List Char
  /-- The character asked for, `none` being the end of the text. -/
  character : Option Char
  written : List Notice
deriving DecidableEq, Repr

def meet (s : LineSource) : Demand → Delivery × LineSource
  | .next => (⟨.next, s.pending, s.next.1, s.next.2.1⟩, s.next.2.2)
  | .startForm => (⟨.startForm, s.pending, none, []⟩, s.startForm)

def meetAll (s : LineSource) : List Demand → List Delivery × LineSource
  | [] => ([], s)
  | d :: ds =>
    let (delivery, s) := s.meet d
    let (more, s) := s.meetAll ds
    (delivery :: more, s)

/-- How the line source of a text meets demands. -/
def deliveries (text : List Char) (demands : List Demand) : List Delivery :=
  ((ofText text).meetAll demands).1

namespace Delivery

def fetchesLine (d : Delivery) : Bool := !d.written.isEmpty && d.character.isSome

/-- How many characters have been asked for. -/
def asked (log : List Delivery) : Nat := log.countP (·.demand = .next)

/-- Whether a form has been started since the last line was fetched. The first line is fetched for
the start of one. -/
def StartsForm (log : List Delivery) : Prop :=
  (∀ d ∈ log, d.fetchesLine = false) ∨
    ∃ d ∈ log.rtakeWhile (!·.fetchesLine), d.demand = .startForm

/-- What a delivery from a text may be, given all earlier ones. -/
inductive Due (text : List Char) (log : List Delivery) : Delivery → Prop
  | noted (pending : List Char) : Due text log ⟨.startForm, pending, none, []⟩
  /-- Within a line, or behind the end of the text. -/
  | silent (pending : List Char) (h : ¬StartsLine text (asked log)) :
    Due text log ⟨.next, pending, text[asked log]?, []⟩
  | line {p : Prompt} (h : StartsLine text (asked log)) (hlt : asked log < text.length)
      (hp : p = .primary ↔ StartsForm log) :
    Due text log ⟨.next, [], text[asked log]?, [.prompt p]⟩
  /-- The end of the text, met for the first time. -/
  | ending {p : Prompt} (h : StartsLine text (asked log)) (heq : asked log = text.length)
      (hp : p = .primary ↔ StartsForm log) :
    Due text log ⟨.next, [], none, [.prompt p, .farewell]⟩

theorem asked_concat (log : List Delivery) (d : Delivery) :
    asked (log ++ [d]) = asked log + if d.demand = .next then 1 else 0 := by
  by_cases h : d.demand = .next <;> simp [asked, h]

theorem startsForm_nil : StartsForm [] := .inl (List.forall_mem_nil _)

theorem startsForm_concat_startForm (log : List Delivery) {d : Delivery}
    (hd : d.demand = .startForm) (hf : d.fetchesLine = false) : StartsForm (log ++ [d]) := by
  refine .inr ⟨d, ?_, hd⟩
  rw [List.rtakeWhile_concat_pos _ _ _ (by simp [hf])]
  exact List.mem_append_right _ List.mem_cons_self

theorem not_startsForm_concat (log : List Delivery) {d : Delivery} (hf : d.fetchesLine = true) :
    ¬StartsForm (log ++ [d]) := by
  rintro (h | ⟨e, he, -⟩)
  · have hd := h d (List.mem_append_right _ List.mem_cons_self)
    rw [hf] at hd
    cases hd
  · rw [List.rtakeWhile_concat_neg _ _ _ (by simp [hf])] at he
    cases he

theorem startsForm_concat_next (log : List Delivery) {d : Delivery} (hd : d.demand = .next)
    (hf : d.fetchesLine = false) : StartsForm (log ++ [d]) ↔ StartsForm log := by
  unfold StartsForm
  rw [List.rtakeWhile_concat_pos _ _ _ (by simp [hf])]
  simp [or_imp, forall_and, hf, hd, or_and_right, exists_or]

def AllDue (text : List Char) (log : List Delivery) : Prop :=
  ∀ before d after, log = before ++ d :: after → d.Due text before

theorem allDue_nil (text : List Char) : AllDue text [] := fun before _ _ h => by
  cases before <;> cases h

theorem AllDue.concat {text : List Char} {log : List Delivery} (h : AllDue text log)
    {d : Delivery} (hd : d.Due text log) : AllDue text (log ++ [d]) := by
  intro before e after hsplit
  rcases List.eq_nil_or_concat after with rfl | ⟨after, last, rfl⟩
  · obtain ⟨rfl, he⟩ := List.append_inj' hsplit rfl
    cases he
    exact hd
  · rw [List.concat_eq_append, ← List.cons_append, ← List.append_assoc] at hsplit
    exact h _ _ _ (List.append_inj_left' hsplit rfl)

theorem AllDue.of_concat {text : List Char} {log : List Delivery} {d : Delivery}
    (h : AllDue text (log ++ [d])) : AllDue text log ∧ d.Due text log := by
  refine ⟨fun before e after hlog => ?_, h log d [] rfl⟩
  exact h before e (after ++ [d]) (by rw [hlog, List.append_assoc, List.cons_append])

/-- The characters asked for are those of the text in order, and then its end. -/
theorem AllDue.characters {text : List Char} {log : List Delivery} (h : AllDue text log) :
    (log.filter (·.demand = .next)).map character = (List.range (asked log)).map (text[·]?) := by
  induction log using List.reverseRecOn with
  | nil => rfl
  | append_singleton log d ih =>
    obtain ⟨hlog, hd⟩ := h.of_concat
    rw [List.filter_append, List.map_append, ih hlog, asked_concat]
    cases hd with
    | noted => simp
    | silent => simp [List.range_succ]
    | line => simp [List.range_succ]
    | ending _ heq => simp [List.range_succ, heq]

/-- There is a prompt for each line fetched, one more and a line end where the text is found to have
ended, and nothing else. -/
theorem AllDue.written {text : List Char} {log : List Delivery} (h : AllDue text log)
    (hend : StartsLine text text.length) :
    ∃ prompts : List Prompt,
      log.flatMap Delivery.written =
        prompts.map .prompt ++ (if text.length < asked log then [.farewell] else []) ∧
      prompts.length = (Text.lines (text.take (asked log))).length +
        if text.length < asked log then 1 else 0 := by
  -- Both counts change with the last delivery only where a line starts.
  induction log using List.reverseRecOn with
  | nil => exact ⟨[], by simp [asked], by simp [asked, Text.lines]⟩
  | append_singleton log d ih =>
    obtain ⟨hlog, hd⟩ := h.of_concat
    obtain ⟨prompts, hwritten, hlength⟩ := ih hlog
    have hlines := length_lines_take_succ text (asked log)
    rw [List.flatMap_append, hwritten, asked_concat]
    cases hd with
    | noted => exact ⟨prompts, by simp, by simpa using hlength⟩
    | silent _ hs =>
      have hne : asked log ≠ text.length := by
        intro heq
        rw [heq] at hs
        exact hs hend
      have hlt : text.length < asked log + 1 ↔ text.length < asked log := by omega
      rw [if_neg fun hc => hs hc.2, Nat.add_zero] at hlines
      refine ⟨prompts, by simp [hlt], ?_⟩
      rw [if_pos rfl, hlines, if_congr hlt rfl rfl]
      exact hlength
    | @line p hs hlt hp =>
      have hle : ¬text.length < asked log := Nat.not_lt.2 (Nat.le_of_lt hlt)
      have hle' : ¬text.length < asked log + 1 := Nat.not_lt.2 hlt
      rw [if_pos ⟨hlt, hs⟩] at hlines
      rw [if_neg hle] at hlength
      refine ⟨prompts ++ [p], by simp [hle, hle'], ?_⟩
      rw [if_pos rfl, hlines, if_neg hle', List.length_append, hlength]
      rfl
    | @ending p hs heq hp =>
      have hle : ¬text.length < asked log := Nat.not_lt.2 (Nat.le_of_eq heq)
      have hlt : text.length < asked log + 1 := Nat.lt_succ_of_le (Nat.le_of_eq heq.symm)
      rw [if_neg fun hc => Nat.lt_irrefl _ (heq ▸ hc.1), Nat.add_zero] at hlines
      rw [if_neg hle] at hlength
      refine ⟨prompts ++ [p], by simp [hle, hlt], ?_⟩
      rw [if_pos rfl, hlines, if_pos hlt, List.length_append, hlength]
      rfl

end Delivery

structure Kept (text : List Char) (log : List Delivery) (s : LineSource) : Prop where
  standing : s.Standing text (Delivery.asked log)
  prompt_iff : s.prompt = .primary ↔ Delivery.StartsForm log

theorem kept_ofText (text : List Char) : (ofText text).Kept (lineEnded text) [] :=
  ⟨standing_ofText text, iff_of_true rfl Delivery.startsForm_nil⟩

namespace Kept
open Delivery

variable {text : List Char} {log : List Delivery} {s : LineSource}

theorem meet_startForm (h : s.Kept text log) :
    (s.meet .startForm).1.Due text log ∧
      (s.meet .startForm).2.Kept text (log ++ [(s.meet .startForm).1]) := by
  refine ⟨.noted s.pending, ?_, iff_of_true rfl (startsForm_concat_startForm log rfl rfl)⟩
  rw [asked_concat]
  exact h.standing.startForm

theorem meet_next (h : s.Kept text log) :
    (s.meet .next).1.Due text log ∧
      (s.meet .next).2.Kept text (log ++ [(s.meet .next).1]) := by
  obtain ⟨hcharacter, hwritten, hprompt, hstanding⟩ := h.standing.next
  have hasked : asked (log ++ [(s.meet .next).1]) = asked log + 1 := asked_concat _ _
  have hmeet : (s.meet .next).1 = ⟨.next, s.pending, s.next.1, s.next.2.1⟩ := rfl
  by_cases hs : StartsLine text (asked log)
  · rw [if_pos hs] at hwritten
    have hpending := h.standing.pending_of_startsLine hs
    by_cases hk : asked log < text.length
    · rw [if_neg (Nat.ne_of_lt hk)] at hwritten
      rw [if_pos ⟨hk, hs⟩] at hprompt
      have hfetched : (s.meet .next).1.fetchesLine = true := by
        simp [hmeet, fetchesLine, hwritten, hcharacter, hk]
      refine ⟨?_, hasked ▸ hstanding, iff_of_false ?_ (not_startsForm_concat log hfetched)⟩
      · rw [hmeet, hpending, hcharacter, hwritten]
        exact .line hs hk h.prompt_iff
      · change s.next.2.2.prompt ≠ _
        rw [hprompt]
        nofun
    · obtain heq : asked log = text.length := Nat.le_antisymm hs.le (Nat.le_of_not_lt hk)
      rw [if_pos heq] at hwritten
      rw [if_neg fun hc => hk hc.1] at hprompt
      rw [heq, List.getElem?_eq_none (Nat.le_refl _)] at hcharacter
      have hfetched : (s.meet .next).1.fetchesLine = false := by
        simp [hmeet, fetchesLine, hcharacter]
      refine ⟨?_, hasked ▸ hstanding, ?_⟩
      · rw [hmeet, hpending, hcharacter, hwritten]
        exact .ending hs heq h.prompt_iff
      · rw [startsForm_concat_next log rfl hfetched, ← h.prompt_iff, ← hprompt]
        rfl
  · rw [if_neg hs] at hwritten
    rw [if_neg fun hc => hs hc.2] at hprompt
    have hfetched : (s.meet .next).1.fetchesLine = false := by
      simp [hmeet, fetchesLine, hwritten]
    refine ⟨?_, hasked ▸ hstanding, ?_⟩
    · rw [hmeet, hcharacter, hwritten]
      exact .silent s.pending hs
    · rw [startsForm_concat_next log rfl hfetched, ← h.prompt_iff, ← hprompt]
      rfl

theorem meet (h : s.Kept text log) (d : Demand) :
    (s.meet d).1.Due text log ∧ (s.meet d).2.Kept text (log ++ [(s.meet d).1]) := by
  cases d with
  | next => exact h.meet_next
  | startForm => exact h.meet_startForm

theorem meetAll (h : s.Kept text log) (hlog : AllDue text log) (demands : List Demand) :
    AllDue text (log ++ (s.meetAll demands).1) := by
  induction demands generalizing s log with
  | nil => simpa [LineSource.meetAll] using hlog
  | cons d demands ih =>
    obtain ⟨hdue, hkept⟩ := h.meet d
    rw [LineSource.meetAll, List.append_cons]
    exact ih hkept (hlog.concat hdue)

end Kept

theorem startsLine_lineEnded (cs : List Char) :
    StartsLine (lineEnded cs) (lineEnded cs).length := by
  rcases lineEnded_cases cs with h | ⟨front, h⟩
  · rw [h]
    exact startsLine_zero []
  · rw [h]
    exact .inr (by simp)

theorem demands_meetAll (s : LineSource) (demands : List Demand) :
    (s.meetAll demands).1.map Delivery.demand = demands := by
  induction demands generalizing s with
  | nil => rfl
  | cons d demands ih =>
    cases d with
    | next => exact congrArg (Demand.next :: ·) (ih _)
    | startForm => exact congrArg (Demand.startForm :: ·) (ih _)

theorem asked_deliveries (text : List Char) (demands : List Demand) :
    Delivery.asked (deliveries text demands) = demands.count .next := by
  have h := congrArg (List.count .next) (demands_meetAll (ofText text) demands)
  rw [← h, List.count, List.countP_map]
  rfl

/-- However a line source is used, it delivers its text once and in order, each line with a line
feed, and then the end of the text for ever. It writes one prompt for each line fetched, one more
and a line end when the end of the text is met, and nothing after that. It writes only when nothing
is left of the line fetched last, and the prompt is the primary one if a form has been started since
that line was fetched, or if it is the first. -/
theorem deliveries_in_order (text : List Char) (demands : List Demand) :
    ((deliveries text demands).filter (·.demand = .next)).map Delivery.character =
      (List.range (demands.count .next)).map ((lineEnded text)[·]?) ∧
    (∃ prompts : List Prompt,
      (deliveries text demands).flatMap Delivery.written = prompts.map .prompt ++
        (if (lineEnded text).length < demands.count .next then [.farewell] else []) ∧
      prompts.length = (Text.lines ((lineEnded text).take (demands.count .next))).length +
        if (lineEnded text).length < demands.count .next then 1 else 0) ∧
    ∀ before d after, deliveries text demands = before ++ d :: after →
      d.Due (lineEnded text) before := by
  have hdue : Delivery.AllDue (lineEnded text) (deliveries text demands) :=
    (kept_ofText text).meetAll (Delivery.allDue_nil _) demands
  have hcharacters := hdue.characters
  have hwritten := hdue.written (startsLine_lineEnded text)
  rw [asked_deliveries] at hcharacters hwritten
  exact ⟨hcharacters, hwritten, hdue⟩

/-- An empty line and one without an end, a form started for each of them. -/
theorem deliveries_in_order_two_lines :
    deliveries ['\n', 'x'] [.next, .startForm, .next, .next, .next] =
      [⟨.next, [], some '\n', [.prompt .primary]⟩, ⟨.startForm, [], none, []⟩,
        ⟨.next, [], some 'x', [.prompt .primary]⟩, ⟨.next, ['\n'], some '\n', []⟩,
        ⟨.next, [], none, [.prompt .continuation, .farewell]⟩] ∧
      Delivery.Due ['\n', 'x', '\n']
        [⟨.next, [], some '\n', [.prompt .primary]⟩, ⟨.startForm, [], none, []⟩]
        ⟨.next, [], some 'x', [.prompt .primary]⟩ := by
  have hlog : deliveries ['\n', 'x'] [.next, .startForm, .next, .next, .next] =
      [⟨.next, [], some '\n', [.prompt .primary]⟩, ⟨.startForm, [], none, []⟩] ++
        ⟨.next, [], some 'x', [.prompt .primary]⟩ :: [⟨.next, ['\n'], some '\n', []⟩,
        ⟨.next, [], none, [.prompt .continuation, .farewell]⟩] := by decide
  have htext : lineEnded ['\n', 'x'] = ['\n', 'x', '\n'] := by decide
  have hdue := (deliveries_in_order _ _).2.2 _ _ _ hlog
  rw [htext] at hdue
  exact ⟨hlog, hdue⟩

end LineSource
end StackLang
