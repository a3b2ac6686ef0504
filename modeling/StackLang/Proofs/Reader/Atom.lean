import Mathlib.Data.List.TakeWhile
import StackLang.Reader.Token

namespace StackLang

namespace Grammar

def isDigits (cs : List Char) : Bool := !cs.isEmpty && cs.all Char.isDigit

/-- The number that a run is if it has digits on both sides of a point, with an optional sign. -/
def float? : List Char → Option Binary64
  | '-' :: cs => unsigned? true cs
  | '+' :: cs => unsigned? false cs
  | cs => unsigned? false cs
where
  unsigned? (negative : Bool) (cs : List Char) : Option Binary64 :=
    let whole := cs.takeWhile (· ≠ '.')
    let fraction := (cs.dropWhile (· ≠ '.')).drop 1
    if isDigits whole && isDigits fraction then
      some (.ofRatio negative (Decimal.digitsValue (whole ++ fraction))
        (Nat.pow 10 fraction.length))
    else none

/-- What a run of symbol characters stands for, given the character behind it. -/
def atom (run : List Char) (next : Option Char) : Form :=
  if Token.endsNumber next then
    match float? run, Decimal.value? run with
    | some x, _ => .float x
    | none, some n => .int n
    | none, none => .symbol (String.ofList run)
  else .symbol (String.ofList run)

end Grammar

namespace Token

/-- A text that has ended, or whose next character fails a test. -/
def Stops (p : Char → Bool) (rest : List Char) : Prop := ∀ c ∈ rest.head?, p c = false

theorem Stops.mono {p q : Char → Bool} {rest : List Char} (hpq : ∀ c, q c = true → p c = true)
    (h : Stops p rest) : Stops q rest := by
  intro c hc
  have hp := h c hc
  cases hq : q c with
  | false => rfl
  | true => rw [hpq c hq] at hp; cases hp

theorem stops_dropWhile (p : Char → Bool) (cs : List Char) : Stops p (cs.dropWhile p) := by
  intro c hc
  have h := List.head?_dropWhile_not p cs
  rw [Option.mem_def.1 hc] at h
  simpa using h

theorem takeWhile_append_of_stops {p : Char → Bool} {rest : List Char} (h : Stops p rest)
    (cs : List Char) : (cs ++ rest).takeWhile p = cs.takeWhile p := by
  induction cs with
  | nil =>
    cases rest with
    | nil => rfl
    | cons c rest => simp [h c rfl]
  | cons c cs ih => simp only [List.cons_append, List.takeWhile_cons, ih]

theorem drop_length_takeWhile (p : Char → Bool) (cs : List Char) :
    cs.drop (cs.takeWhile p).length = cs.dropWhile p := by
  induction cs with
  | nil => rfl
  | cons c cs ih => cases hc : p c <;> simp [hc, ih]

theorem takeWhile_run {p : Char → Bool} {run rest : List Char} (hrun : ∀ c ∈ run, p c = true)
    (hrest : Stops p rest) : (run ++ rest).takeWhile p = run := by
  rw [takeWhile_append_of_stops hrest, List.takeWhile_eq_self_iff.2 hrun]

theorem dropWhile_run {p : Char → Bool} {run rest : List Char} (hrun : ∀ c ∈ run, p c = true)
    (hrest : Stops p rest) : (run ++ rest).dropWhile p = rest := by
  rw [← drop_length_takeWhile, takeWhile_run hrun hrest, List.drop_left]

/-- Every text is a run that passes a test throughout, and something that stops it. -/
theorem run_cases (p : Char → Bool) (cs : List Char) :
    ∃ run rest, cs = run ++ rest ∧ (∀ c ∈ run, p c = true) ∧ Stops p rest :=
  ⟨cs.takeWhile p, cs.dropWhile p, List.takeWhile_append_dropWhile.symm,
    List.all_eq_true.1 List.all_takeWhile, stops_dropWhile p cs⟩

theorem isSymbolic_of_isDigit {c : Char} (h : c.isDigit = true) : isSymbolic c = true := by
  simp [isSymbolic, Char.isAlphanum, h]

theorem ne_of_isSymbolic {c d : Char} (hc : isSymbolic c = true) (hd : isSymbolic d = false) :
    c ≠ d := by
  rintro rfl
  rw [hc] at hd
  cases hd

theorem isSymbolic_eq_false_of_endsNumber {c : Char} (h : endsNumber (some c) = true) :
    isSymbolic c = false := by
  simp only [endsNumber, isBlank, Bool.or_eq_true, beq_iff_eq, List.contains_iff_mem,
    List.mem_cons, List.not_mem_nil, or_false] at h
  rcases h with (rfl | rfl) | rfl | rfl | rfl | rfl | rfl | rfl <;> decide

theorem endsNumber_eq_false {c : Char} (h : isSymbolic c = true) :
    endsNumber (some c) = false := by
  cases he : endsNumber (some c) with
  | false => rfl
  | true => rw [isSymbolic_eq_false_of_endsNumber he] at h; cases h

theorem isBlank_eq_false {c : Char} (h : isSymbolic c = true) : isBlank c = false := by
  have he := endsNumber_eq_false h
  simp only [endsNumber, Bool.or_eq_false_iff] at he
  exact he.2

theorem unsigned_append {rest : List Char} (h : Stops Char.isDigit rest) (negative : Bool)
    (width : Nat) (cs : List Char) :
    signedDigits.unsigned negative width (cs ++ rest) =
      { signedDigits.unsigned negative width cs with
        rest := (signedDigits.unsigned negative width cs).rest ++ rest } := by
  have hl : (cs.takeWhile Char.isDigit).length ≤ cs.length :=
    (List.takeWhile_sublist _).length_le
  simp only [signedDigits.unsigned, takeWhile_append_of_stops h, SignedDigits.mk.injEq, true_and]
  exact List.drop_append_of_le_length hl

theorem signedDigits_eq_unsigned {cs : List Char} (hp : cs.head? ≠ some '+')
    (hm : cs.head? ≠ some '-') : signedDigits cs = signedDigits.unsigned false 0 cs := by
  unfold signedDigits
  split
  · exact absurd rfl hp
  · exact absurd rfl hm
  · rfl

/-- Nothing behind a run of symbol characters is part of a number in front of it. -/
theorem signedDigits_append {rest : List Char} (h : Stops isSymbolic rest) (run : List Char) :
    signedDigits (run ++ rest) =
      { signedDigits run with rest := (signedDigits run).rest ++ rest } := by
  have hd : Stops Char.isDigit rest := h.mono fun _ => isSymbolic_of_isDigit
  rcases run with _ | ⟨c, run⟩
  · have hs (c : Char) (hc : isSymbolic c = true) : rest.head? ≠ some c := by
      intro he
      rw [h c he] at hc
      cases hc
    rw [List.nil_append, signedDigits_eq_unsigned (hs '+' rfl) (hs '-' rfl)]
    exact unsigned_append hd false 0 []
  · by_cases hp : c = '+'
    · subst hp
      exact unsigned_append hd false 1 run
    · by_cases hm : c = '-'
      · subst hm
        exact unsigned_append hd true 1 run
      · have hu (cs : List Char) :
            signedDigits (c :: cs) = signedDigits.unsigned false 0 (c :: cs) :=
          signedDigits_eq_unsigned (by simpa using hp) (by simpa using hm)
        rw [List.cons_append, hu, hu]
        exact unsigned_append hd false 0 (c :: run)

/-- Signs are told apart in the same way for a text and for a run as a whole. -/
theorem sign_cases (cs : List Char) :
    ∃ negative sign body, cs = sign ++ body ∧
      signedDigits cs = signedDigits.unsigned negative sign.length body ∧
      Decimal.value? cs = Decimal.value?.unsigned? negative body ∧
      Grammar.float? cs = Grammar.float?.unsigned? negative body := by
  unfold signedDigits
  split
  · exact ⟨false, ['+'], _, rfl, rfl, rfl, rfl⟩
  · exact ⟨true, ['-'], _, rfl, rfl, rfl, rfl⟩
  · next hp hm =>
    refine ⟨false, [], _, rfl, rfl, ?_, ?_⟩
    · unfold Decimal.value?
      split
      · exact absurd rfl (hm _)
      · exact absurd rfl (hp _)
      · rfl
    · unfold Grammar.float?
      split
      · exact absurd rfl (hm _)
      · exact absurd rfl (hp _)
      · rfl

theorem signedDigits_cases (cs : List Char) :
    ∃ negative sign digits tail, cs = sign ++ (digits ++ tail) ∧
      (∀ c ∈ digits, c.isDigit = true) ∧ Stops Char.isDigit tail ∧
      signedDigits cs = ⟨negative, digits, sign.length + digits.length, tail⟩ ∧
      Decimal.value? cs = Decimal.value?.unsigned? negative (digits ++ tail) ∧
      Grammar.float? cs = Grammar.float?.unsigned? negative (digits ++ tail) := by
  obtain ⟨negative, sign, body, rfl, hs, hv, hf⟩ := sign_cases cs
  obtain ⟨digits, tail, rfl, hd, ht⟩ := run_cases Char.isDigit body
  refine ⟨negative, sign, digits, tail, rfl, hd, ht, ?_, hv, hf⟩
  rw [hs]
  simp only [signedDigits.unsigned, takeWhile_run hd ht, List.drop_left]

theorem isDigits_append {digits tail : List Char} (hd : ∀ c ∈ digits, c.isDigit = true)
    (ht : Stops Char.isDigit tail) :
    Grammar.isDigits (digits ++ tail) = (!digits.isEmpty && tail.isEmpty) := by
  have ha : digits.all Char.isDigit = true := List.all_eq_true.2 hd
  rcases tail with _ | ⟨c, tail⟩
  · simp [Grammar.isDigits, ha]
  · have hc := ht c rfl
    simp [Grammar.isDigits, hc]

theorem value?_unsigned {digits tail : List Char} (hd : ∀ c ∈ digits, c.isDigit = true)
    (ht : Stops Char.isDigit tail) (negative : Bool) :
    Decimal.value?.unsigned? negative (digits ++ tail) =
      if !digits.isEmpty && tail.isEmpty then
        some (Decimal.signed negative (Decimal.digitsValue digits)) else none := by
  have h := isDigits_append hd ht
  unfold Grammar.isDigits at h
  rw [Decimal.value?.unsigned?, h]
  rcases tail with _ | ⟨c, tail⟩
  · rw [List.append_nil]
  · simp

theorem ne_point_of_isDigit {digits : List Char} (hd : ∀ c ∈ digits, c.isDigit = true) :
    ∀ c ∈ digits, decide (c ≠ '.') = true := by
  intro c hc
  have h := hd c hc
  rw [decide_eq_true_iff]
  rintro rfl
  cases h

theorem float?_point {digits : List Char} (hd : ∀ c ∈ digits, c.isDigit = true) (negative : Bool)
    (fraction : List Char) :
    Grammar.float?.unsigned? negative (digits ++ '.' :: fraction) =
      if !digits.isEmpty && Grammar.isDigits fraction then
        some (.ofRatio negative (Decimal.digitsValue (digits ++ fraction))
          (Nat.pow 10 fraction.length))
      else none := by
  have hp := ne_point_of_isDigit hd
  have hw : Grammar.isDigits digits = !digits.isEmpty := by
    simp [Grammar.isDigits, List.all_eq_true.2 hd]
  rw [Grammar.float?.unsigned?, List.takeWhile_append_of_pos hp, List.dropWhile_append_of_pos hp]
  simp [hw]

/-- A run that goes on behind its first digits with anything but a point is no number. -/
theorem float?_eq_none {digits tail : List Char} (hd : ∀ c ∈ digits, c.isDigit = true)
    (ht : Stops Char.isDigit tail) (hp : tail.head? ≠ some '.') (negative : Bool) :
    Grammar.float?.unsigned? negative (digits ++ tail) = none := by
  have hn := ne_point_of_isDigit hd
  rw [Grammar.float?.unsigned?, List.takeWhile_append_of_pos hn, List.dropWhile_append_of_pos hn]
  rcases tail with _ | ⟨c, tail⟩
  · simp [Grammar.isDigits]
  · have hs : Stops Char.isDigit (c :: tail.takeWhile fun d => decide (d ≠ '.')) := by
      intro d hm
      cases hm
      exact ht c rfl
    have hw := isDigits_append hd hs
    rw [List.isEmpty_cons, Bool.and_false] at hw
    rw [List.takeWhile_cons_of_pos (by simpa using hp), hw, Bool.false_and,
      if_neg Bool.false_ne_true]

/-- Where the digits of a run end before the run does, they are no number. -/
theorem endsNumber_append {cs : List Char} (h : ∀ c ∈ cs, isSymbolic c = true) (hn : cs ≠ [])
    (rest : List Char) : endsNumber (cs ++ rest).head? = false := by
  rcases cs with _ | ⟨c, cs⟩
  · exact absurd rfl hn
  · exact endsNumber_eq_false (h c List.mem_cons_self)

theorem integer_append {run rest : List Char} (hrun : ∀ c ∈ run, isSymbolic c = true)
    (hrest : Stops isSymbolic rest) :
    ∃ k ≤ run.length + 1, integer (run ++ rest) =
      match if endsNumber rest.head? then Decimal.value? run else none with
      | some n => .hit (.form (.int n)) run.length (run.length + 1)
      | none => .miss k := by
  obtain ⟨negative, sign, digits, tail, rfl, hd, ht, hs, hv, _⟩ := signedDigits_cases run
  refine ⟨sign.length + digits.length + 1, by simp only [List.length_append]; omega, ?_⟩
  rw [hv, value?_unsigned hd ht, integer, signedDigits_append hrest, hs]
  dsimp only
  -- If the run goes on behind the digits, it does so with a character that ends no number.
  rcases tail with _ | ⟨c, tail⟩
  · cases he : endsNumber rest.head? <;> cases digits <;> simp [he]
  · rw [endsNumber_append (fun d hm => hrun d (by simp [hm])) (by simp)]
    simp

theorem float_eq_miss {cs : List Char} {n : SignedDigits} (hs : signedDigits cs = n)
    (h : n.digits = [] ∨ n.rest.head? ≠ some '.') : float cs = .miss (n.width + 1) := by
  subst hs
  unfold float
  dsimp only
  split
  · next hd hr => simp [hd, hr] at h
  · rfl

theorem float_point {cs fraction tail : List Char} {n : SignedDigits} (hs : signedDigits cs = n)
    (hn : n.digits ≠ []) (hr : n.rest = '.' :: (fraction ++ tail))
    (hf : ∀ c ∈ fraction, c.isDigit = true) (ht : Stops Char.isDigit tail) :
    float cs = if fraction.isEmpty || !endsNumber tail.head? then
        .miss (n.width + 1 + fraction.length + 1)
      else
        .hit (.form (.float (.ofRatio n.negative (Decimal.digitsValue (n.digits ++ fraction))
          (Nat.pow 10 fraction.length)))) (n.width + 1 + fraction.length)
          (n.width + 1 + fraction.length + 1) := by
  subst hs
  unfold float
  obtain ⟨d, ds, hd⟩ := List.exists_cons_of_ne_nil hn
  simp only [hd, hr, takeWhile_run hf ht, List.drop_left]

theorem float_append {run rest : List Char} (hrun : ∀ c ∈ run, isSymbolic c = true)
    (hrest : Stops isSymbolic rest) :
    ∃ k ≤ run.length + 1, float (run ++ rest) =
      match if endsNumber rest.head? then Grammar.float? run else none with
      | some x => .hit (.form (.float x)) run.length (run.length + 1)
      | none => .miss k := by
  obtain ⟨negative, sign, digits, tail, rfl, hd, ht, hs, _, hf⟩ := signedDigits_cases run
  have ha := signedDigits_append hrest (sign ++ (digits ++ tail))
  rw [hs] at ha
  rw [hf]
  -- Without a point behind the first digits neither side has a number to offer.
  by_cases hp : tail.head? = some '.'
  · obtain ⟨cs, rfl⟩ := List.head?_eq_some_iff.1 hp
    obtain ⟨fraction, more, rfl, hfd, hfm⟩ := run_cases Char.isDigit cs
    rw [float?_point hd, isDigits_append hfd hfm]
    by_cases hn : digits = []
    · refine ⟨sign.length + digits.length + 1, by simp only [List.length_append]; omega, ?_⟩
      rw [float_eq_miss ha (.inl hn), hn]
      simp
    · have hstop : Stops Char.isDigit (more ++ rest) := by
        rcases more with _ | ⟨c, more⟩
        · exact hrest.mono fun _ => isSymbolic_of_isDigit
        · exact hfm
      have hw : (sign ++ (digits ++ '.' :: (fraction ++ more))).length =
          sign.length + digits.length + 1 + fraction.length + more.length := by
        simp only [List.length_append, List.length_cons]
        omega
      refine ⟨sign.length + digits.length + 1 + fraction.length + 1, by omega, ?_⟩
      rw [float_point ha hn (by simp) hfd hstop, hw]
      rcases more with _ | ⟨c, more⟩
      · cases he : endsNumber rest.head? <;> cases fraction <;> simp [he, hn]
      · rw [endsNumber_append (fun d hm => hrun d (by simp [hm])) (by simp)]
        simp
  · have hr : (tail ++ rest).head? ≠ some '.' := by
      rcases tail with _ | ⟨c, tail⟩
      · exact fun he => by cases hrest '.' he
      · exact hp
    refine ⟨sign.length + digits.length + 1, by simp only [List.length_append]; omega, ?_⟩
    rw [float_eq_miss ha (.inr hr), float?_eq_none hd ht hp, ite_self]

theorem symbol_append {run rest : List Char} (hrun : ∀ c ∈ run, isSymbolic c = true)
    (hne : run ≠ []) (hrest : Stops isSymbolic rest) :
    symbol (run ++ rest) =
      .hit (.form (.symbol (String.ofList run))) run.length (run.length + 1) := by
  have hw := takeWhile_run hrun hrest
  simp [symbol, hw, hne]

theorem comment_eq_miss {cs : List Char} (h : cs.head? ≠ some ';') : comment cs = .miss 1 := by
  unfold comment
  split
  · exact absurd rfl h
  · rfl

theorem text_eq_miss {cs : List Char} (h : cs.head? ≠ some '"') : text cs = .miss 1 := by
  unfold text
  split
  · exact absurd rfl h
  · rfl

theorem miss_orElse_hit {α : Type} (j : Nat) (value : α) (taken examined : Nat) :
    (Attempt.miss j <|> Attempt.hit value taken examined) =
      .hit value taken (max j examined) := rfl

theorem hit_orElse {α : Type} (value : α) (taken examined : Nat) (other : Attempt α) :
    (Attempt.hit value taken examined <|> other) = .hit value taken examined := rfl

/-- The recognizers together take a run as a whole for what it stands for, and look at one more
character. -/
theorem any_run {run rest : List Char} (hrun : ∀ c ∈ run, isSymbolic c = true)
    (hne : run ≠ []) (hrest : Stops isSymbolic rest) :
    any (run ++ rest) =
      .hit (.form (Grammar.atom run rest.head?)) run.length (run.length + 1) := by
  obtain ⟨j, hj, hf⟩ := float_append hrun hrest
  obtain ⟨k, hk, hi⟩ := integer_append hrun hrest
  obtain ⟨c, cs, rfl⟩ := List.exists_cons_of_ne_nil hne
  have hh (d : Char) (hd : isSymbolic d = false) : (c :: cs ++ rest).head? ≠ some d := by
    intro he
    exact ne_of_isSymbolic (hrun c List.mem_cons_self) hd (Option.some.inj he)
  have hl : 0 < (c :: cs).length := by simp
  rw [any, comment_eq_miss (hh ';' rfl), text_eq_miss (hh '"' rfl), hf, hi,
    symbol_append hrun hne hrest, Grammar.atom]
  -- A recognizer that misses has looked at no more than the one that hits does.
  generalize Grammar.float? (c :: cs) = x, Decimal.value? (c :: cs) = n
  cases endsNumber rest.head? with
  | false =>
    simp only [Bool.false_eq_true, if_false, miss_orElse_hit]
    congr 1
    omega
  | true =>
    simp only [if_true]
    rcases x with _ | x <;> rcases n with _ | n <;> simp only [miss_orElse_hit, hit_orElse] <;>
      congr 1 <;> omega

theorem any_invalid {cs : List Char} (hs : Stops isSymbolic cs) (hc : cs.head? ≠ some ';')
    (hq : cs.head? ≠ some '"') : any cs = .miss 1 := by
  obtain ⟨j, hj, hf⟩ := @float_append [] cs (by simp) hs
  obtain ⟨k, hk, hi⟩ := @integer_append [] cs (by simp) hs
  have hw : cs.takeWhile isSymbolic = [] := takeWhile_append_of_stops hs []
  have hsymbol : symbol cs = .miss 1 := by simp [symbol, hw]
  have hfloat : float cs = .miss j := by
    rw [← List.nil_append cs, hf]
    cases endsNumber cs.head? <;> rfl
  have hint : integer cs = .miss k := by
    rw [← List.nil_append cs, hi]
    cases endsNumber cs.head? <;> rfl
  rw [any, comment_eq_miss hc, text_eq_miss hq, hfloat, hint, hsymbol]
  change Attempt.miss (max 1 (max 1 (max j (max k 1)))) = _
  simp only [List.length_nil] at hj hk
  congr 1
  omega

end Token
end StackLang
