import StackLang.Proofs.Decimal.Notation
import StackLang.Proofs.Reader.Comment
import StackLang.Proofs.Reader.Layout

namespace StackLang

namespace Grammar
open Token

theorem float?_sign (negative : Bool) {body : List Char} (h : Stops isSign body) :
    float? (Binary64.chars.sign negative ++ body) = float?.unsigned? negative body := by
  cases negative with
  | true => rfl
  | false => exact float?_eq_unsigned h

theorem value?_sign (negative : Bool) {body : List Char} (h : Stops isSign body) :
    Decimal.value? (Binary64.chars.sign negative ++ body) =
      Decimal.value?.unsigned? negative body := by
  cases negative with
  | true => rfl
  | false => exact value?_eq_unsigned h

theorem unsigned?_eq_none {body : List Char} {c : Char} (hc : c ∈ body) (hd : c.isDigit = false)
    (hp : c ≠ '.') (negative : Bool) :
    float?.unsigned? negative body = none ∧ Decimal.value?.unsigned? negative body = none := by
  have hnot {cs : List Char} (hm : c ∈ cs) : cs.all Char.isDigit ≠ true := fun h => by
    rw [List.all_eq_true.1 h c hm] at hd
    cases hd
  constructor
  · obtain ⟨whole, rest, rfl, hwhole, hrest⟩ := run_cases (fun d => decide (d ≠ '.')) body
    rw [float?.unsigned?, takeWhile_run hwhole hrest, dropWhile_run hwhole hrest, if_neg]
    intro h
    simp only [isDigits, Bool.and_eq_true] at h
    rcases List.mem_append.1 hc with hm | hm
    · exact hnot hm h.1.2
    · rcases rest with _ | ⟨d, fraction⟩
      · cases hm
      · have hpoint : d = '.' := by simpa using hrest d rfl
        rcases List.mem_cons.1 hm with rfl | hm
        · exact hp hpoint
        · exact hnot hm h.2.2
  · rw [Decimal.value?.unsigned?, if_neg]
    intro h
    rw [Bool.and_eq_true] at h
    exact hnot hc h.2

theorem float?_pointed {body : List Char} {q : ℚ} (h : Decimal.Pointed body q) (negative : Bool) :
    ∃ num den : ℕ, 0 < den ∧ (num : ℚ) / den = q ∧
      float?.unsigned? negative body = some (.ofRatio negative num den) := by
  obtain @⟨whole, fraction, _, hw, hf, hd, rfl⟩ := h
  have hwhole : ∀ c ∈ whole, c.isDigit = true := fun c hc => hd c (List.mem_append_left _ hc)
  have hfraction : isDigits fraction = true := by
    rw [isDigits, List.all_eq_true.2 fun c hc => hd c (List.mem_append_right _ hc)]
    simpa using hf
  refine ⟨_, 10 ^ fraction.length, by positivity, by push_cast; rfl, ?_⟩
  rw [float?_point hwhole, hfraction, Bool.and_true, if_pos (by simpa using hw), Nat.pow_eq]

theorem stops_pointed {body : List Char} {q : ℚ} (h : Decimal.Pointed body q) :
    Stops isSign body := by
  obtain @⟨whole, fraction, _, hw, hf, hd, -⟩ := h
  obtain ⟨d, ds, rfl⟩ := List.exists_cons_of_ne_nil hw
  refine stops_isSign ?_
  rintro _ ⟨⟩
  exact hd d List.mem_cons_self

theorem isSymbolic_pointed {body : List Char} {q : ℚ} (h : Decimal.Pointed body q) :
    ∀ c ∈ body, isSymbolic c = true := by
  obtain @⟨whole, fraction, _, hw, hf, hd, -⟩ := h
  intro c hc
  rcases List.mem_append.1 hc with hm | hm
  · exact isSymbolic_of_isDigit (hd c (List.mem_append_left _ hm))
  · rcases List.mem_cons.1 hm with rfl | hm
    · rfl
    · exact isSymbolic_of_isDigit (hd c (List.mem_append_right _ hm))

theorem isSymbolic_sign (negative : Bool) :
    ∀ c ∈ Binary64.chars.sign negative, isSymbolic c = true := by
  cases negative <;> exact List.all_eq_true.1 rfl

/-- Printed by position, a number that was read is read as the same number. -/
theorem float?_chars {x : Binary64} (h : x.Rounded) (hp : x.ByPosition) :
    (∀ c ∈ x.chars, isSymbolic c = true) ∧ float? x.chars = some x := by
  cases h with
  | infinite => exact hp.elim
  | @finite negative units hu hlt =>
    obtain ⟨body, hc, hb⟩ := Binary64.chars_of_byPosition hu hp
    obtain ⟨num, den, hden, hq, hf⟩ := float?_pointed hb negative
    have hround := (Decimal.roundUnits_of_value hden hq).trans (Decimal.toUnits_shortest hu)
    constructor
    · rw [hc]
      exact List.forall_mem_append.2 ⟨isSymbolic_sign negative, isSymbolic_pointed hb⟩
    · rw [hc, float?_sign negative (stops_pointed hb), hf,
        Binary64.ofRatio_eq_finite negative (hround ▸ hlt), hround]

/-- Printed otherwise it is a row of symbol characters that is no number. -/
theorem symbol_chars {x : Binary64} (h : x.Rounded) (hp : ¬x.ByPosition) :
    (∀ c ∈ x.chars, isSymbolic c = true) ∧ x.chars ≠ [] ∧ float? x.chars = none ∧
      Decimal.value? x.chars = none := by
  obtain ⟨negative, c, body, hx, hc, hall, d, hd, hmem⟩ := Binary64.chars_of_not_byPosition h hp
  have hstops : Stops isSign (c :: body) := by
    rintro _ ⟨⟩
    simpa [isSign] using hc
  have hdigit : d.isDigit = false ∧ d ≠ '.' := by
    simp only [List.mem_cons, List.not_mem_nil, or_false] at hmem
    rcases hmem with rfl | rfl <;> decide
  have hnone := unsigned?_eq_none hd hdigit.1 hdigit.2 negative
  have hsymbolic : ∀ e ∈ c :: body, isSymbolic e = true := fun e he =>
    (hall e he).elim isSymbolic_of_isDigit fun hs => by
      simp only [List.mem_cons, List.not_mem_nil, or_false] at hs
      rcases hs with rfl | rfl | rfl | rfl | rfl | rfl | rfl <;> rfl
  rw [hx, float?_sign negative hstops, value?_sign negative hstops]
  exact ⟨List.forall_mem_append.2 ⟨isSymbolic_sign negative, hsymbolic⟩, by simp, hnone⟩

theorem rounded_of_float? {run : List Char} {x : Binary64} (h : float? run = some x) :
    x.Rounded := by
  obtain ⟨negative, _, body, -, -, -, hf⟩ := sign_cases run
  rw [hf, float?.unsigned?] at h
  split at h
  · rw [← Option.some.inj h]
    exact Binary64.rounded_ofRatio _ _ (Nat.pow_pos (by decide))
  · cases h

theorem rounded_of_atom {run : List Char} {next : Option Char} {x : Binary64}
    (h : atom run next = .float x) : x.Rounded := by
  unfold atom at h
  split at h
  · split at h
    · next hf => cases h; exact rounded_of_float? hf
    · cases h
    · cases h
  · cases h

end Grammar

namespace Token

theorem rounded_of_any {cs : List Char} {x : Binary64} {taken examined : Nat}
    (h : any cs = .hit (.form (.float x)) taken examined) : x.Rounded := by
  cases front cs with
  | comment cs =>
    obtain ⟨text, width, ha, -⟩ := any_comment cs
    rw [ha] at h
    cases h
  | text cs =>
    rw [any_text] at h
    split at h <;> cases h
  | @run run rest hrun hne hrest =>
    rw [any_run hrun hne hrest, Attempt.hit.injEq, Item.form.injEq] at h
    exact Grammar.rounded_of_atom h.1
  | other hs hc hq =>
    rw [any_invalid hs hc hq] at h
    cases h

end Token

namespace Cursor

theorem rounded_of_single {c after : Cursor} {x : Binary64}
    (h : c.single = .found (.form (.float x)) after) : x.Rounded := by
  cases hany : Token.any c.ahead with
  | hit i taken examined =>
    rw [single_of_hit hany] at h
    cases h
    exact Token.rounded_of_any hany
  | miss examined => rw [single_of_miss hany] at h; cases h
  | broken fault taken => rw [single_of_broken hany] at h; cases h

theorem list_of_readOpen {items : List Form} {c after : Cursor} {f : Form}
    (h : readOpen [] items c = .found f after) : ∃ fs, f = .list fs := by
  have ho := readOpen_eq [] items c
  rw [h, Grammar.complete] at ho
  rcases hr : Grammar.read true c.ahead with e | ⟨fs, rest⟩ <;> rw [hr] at ho <;> cases ho
  exact ⟨_, rfl⟩

theorem rounded_of_next {c after : Cursor} {x : Binary64}
    (h : c.next = .found (.form (.float x)) after) : x.Rounded := by
  cases ha : c.skipBlanks.ahead with
  | nil => rw [next_of_nil ha] at h; cases h
  | cons ch cs =>
    by_cases ho : ch = '('
    · subst ho
      rw [next_of_open ha] at h
      obtain ⟨f, hr, hf⟩ := Scan.map_eq_found h
      obtain ⟨fs, rfl⟩ := list_of_readOpen hr
      cases hf
    · rw [next_of_other ha ho] at h
      exact rounded_of_single h

end Cursor

theorem Course.rounded_of_mem (c : Cursor) {x : Binary64}
    (h : Form.float x ∈ (Course.ofCursor c).forms) : x.Rounded := by
  fun_induction Course.ofCursor c with
  | case1 c i after hn rest ih =>
    cases i with
    | comment text => exact ih h
    | form f =>
      rcases List.mem_cons.1 h with rfl | hm
      · exact Cursor.rounded_of_next hn
      · exact ih hm
  | case2 | case3 => cases h

theorem readText_float {run : List Char} {x : Binary64} (hrun : run.all Token.isSymbolic = true)
    (hf : Grammar.float? run = some x) : readText (String.ofList run) = .ok [.float x] := by
  have hne : run ≠ [] := by
    rintro rfl
    cases hf
  have ha : Grammar.atom run none = .float x := by
    rw [Grammar.atom, hf]
    rfl
  rw [← ha]
  exact readText_eq_ok (Grammar.read_last_run (List.all_eq_true.1 hrun) hne)

theorem readText_symbol {run : List Char} (hrun : run.all Token.isSymbolic = true)
    (hne : run ≠ []) (hf : Grammar.float? run = none) (hv : Decimal.value? run = none) :
    readText (String.ofList run) = .ok [.symbol (String.ofList run)] := by
  have ha : Grammar.atom run none = .symbol (String.ofList run) := by
    rw [Grammar.atom, hf, hv]
    rfl
  rw [← ha]
  exact readText_eq_ok (Grammar.read_last_run (List.all_eq_true.1 hrun) hne)

/-- A number with a point that was read by itself, printed and read again. In the range that is
printed by position the same number comes back, with its sign; outside it, a symbol. -/
theorem readText_printed_float {text : String} {x : Binary64}
    (h : readText text = .ok [.float x]) :
    (x.ByPosition → readText (Form.float x).source = .ok [.float x]) ∧
      (¬x.ByPosition →
        readText (Form.float x).source = .ok [.symbol (Form.float x).source]) := by
  have hx : x.Rounded := by
    have hforms := (readText_eq_ok_iff.1 h).2
    exact Course.rounded_of_mem (.start text.toList) (hforms.symm ▸ List.mem_singleton_self _)
  constructor
  · intro hp
    obtain ⟨hrun, hf⟩ := Grammar.float?_chars hx hp
    exact readText_float (List.all_eq_true.2 hrun) hf
  · intro hp
    obtain ⟨hrun, hne, hf, hv⟩ := Grammar.symbol_chars hx hp
    exact readText_symbol (List.all_eq_true.2 hrun) hne hf hv

/-- A zero keeps its sign. -/
theorem readText_printed_float_negative_zero :
    readText "-0.00" = .ok [.float (.finite true 0)] ∧
      readText (Form.float (.finite true 0)).source = .ok [.float (.finite true 0)] := by
  have h : readText "-0.00" = .ok [.float (.finite true 0)] :=
    @readText_float "-0.00".toList _ rfl (by decide +kernel)
  exact ⟨h, (readText_printed_float h).1 (.inl rfl)⟩

/-- The first power of ten that is printed with an exponent. -/
theorem readText_printed_float_exponent :
    readText "10000000000000000.0" = .ok [.float (.finite false (10 ^ 16 * Binary64.unitsPerOne))] ∧
      (Form.float (.finite false (10 ^ 16 * Binary64.unitsPerOne))).source = "1e+16" ∧
      readText "1e+16" = .ok [.symbol "1e+16"] := by
  refine ⟨?_, ?_, ?_⟩
  · exact @readText_float "10000000000000000.0".toList _ rfl (by decide +kernel)
  · decide +kernel
  · exact @readText_symbol "1e+16".toList rfl (by decide) (by decide) (by decide)

end StackLang
