import StackLang.Proofs.Reader.LineEnd

namespace StackLang

/-- Whether only the character behind an item shows that the item has ended. -/
def Item.openEnded : Item → Bool
  | .form (.int _) | .form (.float _) | .form (.symbol _) => true
  | .form (.text _) | .form (.list _) | .comment _ => false

def Attempt.examined {α : Type} : Attempt α → Nat
  | .hit _ _ examined => examined
  | .miss examined => examined
  | .broken _ taken => taken

namespace Token

variable {cs ds : List Char} {n : Nat}

theorem eq_of_take_eq (h : cs.take n = ds.take n) (hn : cs.length < n) : ds = cs := by
  have hl := congrArg List.length h
  rw [List.length_take, List.length_take] at hl
  rw [← List.take_of_length_le (Nat.le_of_lt hn), h, List.take_of_length_le (by omega)]

theorem head?_eq_of_take_eq (h : cs.take n = ds.take n) (hn : 0 < n) : ds.head? = cs.head? := by
  have hh := congrArg List.head? h
  rw [List.head?_take, List.head?_take, if_neg (Nat.ne_of_gt hn), if_neg (Nat.ne_of_gt hn)] at hh
  exact hh.symm

theorem take_eq_of_le (h : cs.take n = ds.take n) {m : Nat} (hm : m ≤ n) :
    cs.take m = ds.take m := by
  rw [← Nat.min_eq_left hm, ← List.take_take, h, List.take_take]

theorem takeWhile_eq_of_take_eq {p : Char → Bool} (h : cs.take n = ds.take n)
    (hn : (cs.takeWhile p).length < n) : ds.takeWhile p = cs.takeWhile p := by
  induction n generalizing cs ds with
  | zero => exact absurd hn (Nat.not_lt_zero _)
  | succ n ih =>
    rcases cs with _ | ⟨c, cs⟩
    · rw [eq_of_take_eq h (Nat.succ_pos n)]
    · rcases ds with _ | ⟨d, ds⟩
      · simp at h
      · obtain ⟨rfl, ht⟩ : c = d ∧ cs.take n = ds.take n := by simpa using h
        cases hc : p c with
        | false => simp [hc]
        | true =>
          rw [List.takeWhile_cons_of_pos hc, List.length_cons] at hn
          rw [List.takeWhile_cons_of_pos hc, List.takeWhile_cons_of_pos hc,
            ih ht (Nat.lt_of_succ_lt_succ hn)]

theorem textBody_take {value : List Char} {width : Nat}
    (h : textBody cs = some (value, width)) : textBody (cs.take width) = some (value, width) := by
  fun_induction textBody cs generalizing value width with
  | case1 => cases h
  | case2 cs => cases h; rfl
  | case3 => cases h
  | case4 c cs ih =>
    obtain ⟨⟨v, w⟩, hv, hw⟩ := Option.map_eq_some_iff.1 h
    cases hw
    rw [List.take_succ_cons, List.take_succ_cons, textBody, ih hv]
    rfl
  | case5 c cs hq hb hn ih =>
    obtain ⟨⟨v, w⟩, hv, hw⟩ := Option.map_eq_some_iff.1 h
    cases hw
    rw [List.take_succ_cons, textBody_cons hq (ne_backslash hb hn), ih hv]
    rfl

theorem textBody_eq_of_take_eq {value : List Char} {width : Nat}
    (h : textBody cs = some (value, width)) (hn : cs.take width = ds.take width) :
    textBody ds = some (value, width) := by
  have ht := textBody_take h
  rw [hn] at ht
  rw [← List.take_append_drop width ds]
  exact textBody_append ht _

/-- What is recognized depends only on what is looked at. -/
theorem any_eq_of_take_eq (h : cs.take (any cs).examined = ds.take (any cs).examined) :
    any ds = any cs := by
  cases front cs with
  | comment cs =>
    change (';' :: cs).take ((cs.takeWhile (· ≠ '\n')).length + 2) =
      ds.take ((cs.takeWhile (· ≠ '\n')).length + 2) at h
    rcases ds with _ | ⟨d, ds⟩
    · simp at h
    · obtain ⟨rfl, ht⟩ := List.cons.inj h
      have hb : ds.takeWhile (· ≠ '\n') = cs.takeWhile (· ≠ '\n') :=
        takeWhile_eq_of_take_eq ht (Nat.lt_succ_self _)
      change comment (';' :: ds) = comment (';' :: cs)
      rw [comment, comment, hb]
  | text cs =>
    rw [any_text] at h ⊢
    rcases hb : textBody cs with _ | ⟨value, width⟩
    · rw [hb] at h
      rw [eq_of_take_eq h (Nat.lt_succ_self _), any_text, hb]
    · rw [hb] at h
      rcases ds with _ | ⟨d, ds⟩
      · simp [Attempt.examined] at h
      · obtain ⟨rfl, ht⟩ := List.cons.inj h
        rw [any_text, textBody_eq_of_take_eq hb ht]
  | @run run rest hrun hne hrest =>
    -- The character behind a run is looked at too, so the other text has the same run.
    rw [any_run hrun hne hrest] at h ⊢
    change (run ++ rest).take (run.length + 1) = ds.take (run.length + 1) at h
    have htake := congrArg (List.take run.length) h
    have hdrop := congrArg (List.drop run.length) h
    rw [List.take_take, List.take_take, Nat.min_eq_left (Nat.le_succ _), List.take_left] at htake
    rw [← List.take_drop, ← List.take_drop, List.drop_left] at hdrop
    have hhead := head?_eq_of_take_eq hdrop Nat.one_pos
    rw [← List.take_append_drop run.length ds, ← htake,
      any_run hrun hne (by rw [Stops, hhead]; exact hrest), hhead]
  | other hs hc hq =>
    rw [any_invalid hs hc hq] at h
    have hhead := head?_eq_of_take_eq h Nat.one_pos
    rw [any_invalid hs hc hq, any_invalid (by rw [Stops, hhead]; exact hs) (hhead ▸ hc)
      (hhead ▸ hq)]

theorem openEnded_atom (run : List Char) (next : Option Char) :
    (Item.form (Grammar.atom run next)).openEnded = true := by
  unfold Grammar.atom
  split
  · split <;> rfl
  · rfl

theorem examined_any {i : Item} {taken examined : Nat} (h : any cs = .hit i taken examined) :
    examined = taken + if i.openEnded then 1 else 0 := by
  cases front cs with
  | comment cs => cases h; rfl
  | text cs =>
    rw [any_text] at h
    rcases hb : textBody cs with _ | ⟨value, width⟩ <;> rw [hb] at h <;> cases h
    rfl
  | run hrun hne hrest =>
    rw [any_run hrun hne hrest] at h
    cases h
    rw [openEnded_atom]
    rfl
  | other hs hc hq =>
    rw [any_invalid hs hc hq] at h
    cases h

end Token

end StackLang
