import StackLang.Decimal.Notation
import StackLang.Decimal.Numeral
import StackLang.Proofs.Decimal.Shortest

namespace StackLang.Decimal
open Binary64

theorem digitsValue_append (cs ds : List Char) :
    digitsValue (cs ++ ds) = 10 ^ ds.length * digitsValue cs + digitsValue ds := by
  rw [digitsValue, Nat.ofDigitChars_append, Nat.ofDigitChars_eq_ofDigitChars_zero]
  rfl

theorem digitsValue_zeros (k : ℕ) : digitsValue (List.replicate k '0') = 0 := by
  rw [digitsValue, Nat.ofDigitChars_replicate_zero, Nat.mul_zero]

theorem trailing_zeros (cs : List Char) :
    ∃ k, cs = (cs.reverse.dropWhile (· == '0')).reverse ++ List.replicate k '0' := by
  have hz : cs.reverse.takeWhile (· == '0') =
      List.replicate (cs.reverse.takeWhile (· == '0')).length '0' := by
    refine List.eq_replicate_iff.2 ⟨rfl, fun c hc => ?_⟩
    simpa using List.all_eq_true.1 List.all_takeWhile c hc
  refine ⟨(cs.reverse.takeWhile (· == '0')).length, ?_⟩
  rw [← List.reverse_replicate, ← hz, ← List.reverse_append, List.takeWhile_append_dropWhile,
    List.reverse_reverse]

theorem ten_ne_zero : (10 : ℚ) ≠ 0 := by norm_num

/-- The digits without the zeros at the end stand for the same number, the first one where it was.
-/
theorem value_significant (d : Decimal) :
    digitsValue (significant d).1 * (10 : ℚ) ^ ((significant d).2 + 1 - (significant d).1.length) =
      d.value := by
  have hd := digitsValue_toDigits d.coefficient
  obtain ⟨k, hk⟩ := trailing_zeros (Nat.toDigits 10 d.coefficient)
  unfold significant
  generalize Nat.toDigits 10 d.coefficient = digits at hd hk
  dsimp only
  generalize (digits.reverse.dropWhile (· == '0')).reverse = kept at hk
  subst hk
  rw [digitsValue_append, digitsValue_zeros, List.length_replicate, Nat.add_zero] at hd
  rcases kept with _ | ⟨c, cs⟩
  · -- Zero is what has no digits left.
    have h0 : d.coefficient = 0 := by simpa [digitsValue] using hd.symm
    simp [value, h0, digitsValue, Nat.ofDigitChars]
  · have he : d.exponent + ((c :: cs ++ List.replicate k '0').length : ℤ) - 1 + 1 -
        ((c :: cs).length : ℤ) = k + d.exponent := by
      rw [List.length_append, List.length_replicate]
      push_cast
      ring
    rw [List.isEmpty_cons, if_neg Bool.false_ne_true, he, zpow_add₀ ten_ne_zero, zpow_natCast,
      value, ← hd]
    push_cast
    ring

theorem significant_digits (d : Decimal) :
    (∀ c ∈ (significant d).1, c.isDigit = true) ∧ (significant d).1 ≠ [] := by
  obtain ⟨k, hk⟩ := trailing_zeros (Nat.toDigits 10 d.coefficient)
  have hdigits := isDigit_toDigits d.coefficient
  rw [hk] at hdigits
  unfold significant
  dsimp only
  generalize ((Nat.toDigits 10 d.coefficient).reverse.dropWhile (· == '0')).reverse = kept
    at hdigits
  rcases kept with _ | ⟨c, cs⟩
  · exact ⟨by simp, by simp⟩
  · exact ⟨fun c hc => hdigits c (List.mem_append_left _ hc), List.cons_ne_nil c cs⟩

theorem length_toDigits_bounds {n : ℕ} (h : n ≠ 0) :
    ∃ k, (Nat.toDigits 10 n).length = k + 1 ∧ 10 ^ k ≤ n ∧ n < 10 ^ (k + 1) := by
  obtain ⟨k, hk⟩ :=
    Nat.exists_eq_succ_of_ne_zero (Nat.length_toDigits_pos (b := 10) (n := n)).ne'
  refine ⟨k, hk, ?_, (Nat.length_toDigits_le_iff (by decide) k.succ_pos).1 hk.le⟩
  rcases Nat.eq_zero_or_pos k with rfl | hpos
  · exact Nat.one_le_iff_ne_zero.2 h
  · by_contra hlt
    have := (Nat.length_toDigits_le_iff (by decide) hpos).2 (Nat.lt_of_not_le hlt)
    omega

/-- The first digit stands at the power of ten that the number has got to. -/
theorem power_bounds {d : Decimal} (h : d.coefficient ≠ 0) :
    (10 : ℚ) ^ (significant d).2 ≤ d.value ∧ d.value < (10 : ℚ) ^ ((significant d).2 + 1) := by
  have hpow : (0 : ℚ) < 10 ^ d.exponent := by positivity
  obtain ⟨k, hk, hge, hlt⟩ := length_toDigits_bounds h
  have hp : (significant d).2 = k + d.exponent := by
    change d.exponent + ((Nat.toDigits 10 d.coefficient).length : ℤ) - 1 = _
    rw [hk]
    push_cast
    ring
  have hp' : (significant d).2 + 1 = (k + 1 : ℕ) + d.exponent := by
    rw [hp]
    push_cast
    ring
  rw [hp', hp, zpow_add₀ ten_ne_zero, zpow_add₀ ten_ne_zero, zpow_natCast, zpow_natCast, value]
  constructor
  · exact mul_le_mul_of_nonneg_right (by exact_mod_cast hge) hpow.le
  · exact mul_lt_mul_of_pos_right (by exact_mod_cast hlt) hpow

theorem coefficient_shortest {units : ℕ} (h : Representable units) (h0 : units ≠ 0) :
    (shortest units).coefficient ≠ 0 := by
  intro hc
  have hzero : (shortest units).toUnits = 0 :=
    toUnits_of_value (by simp [Representable]) (by
      rw [value, hc, Nat.cast_zero, zero_mul, zero_mul])
  exact h0 ((toUnits_shortest h).symm.trans hzero)

/-- A power of ten that is written as such parts the magnitudes. -/
theorem le_power_iff {k : ℤ} (hk : k ≤ (significant (shortest (toUnits ⟨1, k⟩))).2) {units : ℕ}
    (h : Representable units) (h0 : units ≠ 0) :
    k ≤ (significant (shortest units)).2 ↔ toUnits ⟨1, k⟩ ≤ units := by
  have hb := power_bounds (coefficient_shortest h h0)
  have hten : value ⟨1, k⟩ = 10 ^ k := by simp [value]
  have hu := toUnits_shortest h
  constructor
  · intro hle
    rw [← hu]
    refine toUnits_mono ?_
    rw [hten]
    exact (zpow_le_zpow_right₀ (by norm_num) hle).trans hb.1
  · intro hle
    by_contra hlt
    -- The magnitude is then below the power of ten and is read as no less: it is the one it has.
    have hval : (shortest units).value ≤ value ⟨1, k⟩ := by
      rw [hten]
      exact hb.2.le.trans (zpow_le_zpow_right₀ (by norm_num) (by omega))
    have heq : toUnits ⟨1, k⟩ = units := hle.antisymm (hu ▸ toUnits_mono hval)
    rw [heq] at hk
    exact hlt hk

theorem least_le_power_iff {units : ℕ} (h : Representable units) (h0 : units ≠ 0) :
    sourceNotation.least ≤ (significant (shortest units)).2 ↔ unitsPerOne ≤ units * 10 ^ 4 := by
  have hself : sourceNotation.least ≤ (significant (shortest (toUnits ⟨1, -4⟩))).2 := by
    decide +kernel
  have habove : unitsPerOne ≤ toUnits ⟨1, -4⟩ * 10 ^ 4 := by decide +kernel
  have heq : toUnits ⟨1, -4⟩ = roundUnits unitsPerOne (10 ^ 4) := by
    rw [toUnits_eq]
    simp
  refine (le_power_iff hself h h0).trans ⟨fun hle => ?_, fun hle => ?_⟩
  · exact habove.trans (Nat.mul_le_mul_right _ hle)
  · change toUnits ⟨1, -4⟩ ≤ units
    rw [heq, ← h.roundUnits_mul (d := 10 ^ 4) (by positivity)]
    exact roundUnits_mono (by positivity) hle

theorem power_lt_limit_iff {units : ℕ} (h : Representable units) (h0 : units ≠ 0) :
    (significant (shortest units)).2 < sourceNotation.limit ↔ units < 10 ^ 16 * unitsPerOne := by
  have hself : sourceNotation.limit ≤ (significant (shortest (toUnits ⟨1, 16⟩))).2 := by
    decide +kernel
  have heq : toUnits ⟨1, 16⟩ = 10 ^ 16 * unitsPerOne := by decide +kernel
  have hiff := le_power_iff hself h h0
  change _ ↔ toUnits ⟨1, 16⟩ ≤ units at hiff
  rw [heq] at hiff
  rw [← Int.not_le, hiff, Nat.not_le]

inductive Pointed : List Char → ℚ → Prop
  | intro {whole fraction : List Char} {q : ℚ} : whole ≠ [] → fraction ≠ [] →
      (∀ c ∈ whole ++ fraction, c.isDigit = true) →
      digitsValue (whole ++ fraction) / 10 ^ fraction.length = q →
      Pointed (whole ++ '.' :: fraction) q

theorem isDigit_zeros (k : ℕ) : ∀ c ∈ List.replicate k '0', c.isDigit = true := by
  intro c hc
  rw [List.eq_of_mem_replicate hc]
  rfl

section Positional

variable {digits : List Char} (hd : ∀ c ∈ digits, c.isDigit = true)
include hd

theorem pointed_of_neg (hne : digits ≠ []) {power : ℤ} (hp : power < 0) :
    Pointed (positional digits power) (digitsValue digits * 10 ^ (power + 1 - digits.length)) := by
  have ht : positional digits power =
      ['0'] ++ '.' :: (List.replicate (-power - 1).toNat '0' ++ digits) := by
    simp [positional, hp]
  -- The zeros on both sides of the point are one row in front of the digits.
  have hzeros : ['0'] ++ (List.replicate (-power - 1).toNat '0' ++ digits) =
      List.replicate ((-power - 1).toNat + 1) '0' ++ digits := by
    rw [← List.append_assoc, List.singleton_append, ← List.replicate_succ]
  have hv : digitsValue (List.replicate ((-power - 1).toNat + 1) '0' ++ digits) =
      digitsValue digits := by
    rw [digitsValue_append, digitsValue_zeros, Nat.mul_zero, Nat.zero_add]
  have he : power + 1 - digits.length =
      -((List.replicate (-power - 1).toNat '0' ++ digits).length : ℤ) := by
    rw [List.length_append, List.length_replicate]
    push_cast
    omega
  rw [ht]
  refine .intro (List.cons_ne_nil _ _) (by simp [hne]) ?_ ?_
  · rw [hzeros]
    exact List.forall_mem_append.2 ⟨isDigit_zeros _, hd⟩
  · rw [hzeros, hv, he, zpow_neg, zpow_natCast, div_eq_mul_inv]

theorem pointed_of_lt {power : ℤ} (hp : 0 ≤ power) (hl : power + 1 < digits.length) :
    Pointed (positional digits power) (digitsValue digits * 10 ^ (power + 1 - digits.length)) := by
  have hfraction : digits.drop (power.toNat + 1) ≠ [] := by
    rw [Ne, List.drop_eq_nil_iff]
    omega
  have hk : power.toNat + 1 - digits.length = 0 := by omega
  have ht : positional digits power =
      digits.take (power.toNat + 1) ++ '.' :: digits.drop (power.toNat + 1) := by
    simp [positional, not_lt.2 hp, hfraction, hk]
  have he : power + 1 - digits.length = -((digits.drop (power.toNat + 1)).length : ℤ) := by
    rw [List.length_drop]
    omega
  rw [ht]
  refine .intro ?_ hfraction ?_ ?_
  · rw [Ne, List.take_eq_nil_iff]
    rintro (h | rfl)
    · omega
    · simp at hl
      omega
  · rwa [List.take_append_drop]
  · rw [List.take_append_drop, he, zpow_neg, zpow_natCast, div_eq_mul_inv]

/-- The digits end in front of the point, and zeros go on from there. -/
theorem pointed_of_ge (hne : digits ≠ []) {power : ℤ} (hp : 0 ≤ power)
    (hl : digits.length ≤ power + 1) :
    Pointed (positional digits power) (digitsValue digits * 10 ^ (power + 1 - digits.length)) := by
  obtain ⟨k, hk⟩ := Int.eq_ofNat_of_zero_le (sub_nonneg.2 hl)
  have hw : digits.length ≤ power.toNat + 1 := by omega
  have hz : power.toNat + 1 - digits.length = k := by omega
  have ht : positional digits power = (digits ++ List.replicate k '0') ++ '.' :: ['0'] := by
    simp [positional, not_lt.2 hp, hw, hz]
  rw [ht, hk, zpow_natCast]
  refine .intro (by simp [hne]) (List.cons_ne_nil _ _) ?_ ?_
  · rw [List.append_assoc, ← List.replicate_succ']
    exact List.forall_mem_append.2 ⟨hd, isDigit_zeros _⟩
  · rw [List.append_assoc, ← List.replicate_succ', digitsValue_append, digitsValue_zeros,
      List.length_replicate, List.length_singleton]
    push_cast
    ring

theorem pointed_positional (hne : digits ≠ []) (power : ℤ) :
    Pointed (positional digits power) (digitsValue digits * 10 ^ (power + 1 - digits.length)) := by
  rcases lt_or_ge power 0 with hp | hp
  · exact pointed_of_neg hd hne hp
  · rcases lt_or_ge (power + 1) digits.length with hl | hl
    · exact pointed_of_lt hd hp hl
    · exact pointed_of_ge hd hne hp hl

end Positional

theorem pointed_shortest (units : ℕ) :
    Pointed (positional (significant (shortest units)).1 (significant (shortest units)).2)
      (shortest units).value := by
  obtain ⟨hd, hne⟩ := significant_digits (shortest units)
  rw [← value_significant]
  exact pointed_positional hd hne _

theorem scientific_eq_cons {digits : List Char} (hd : ∀ c ∈ digits, c.isDigit = true)
    (hne : digits ≠ []) (width : ℕ) (power : ℤ) :
    ∃ d more, scientific width digits power = d :: more ∧ d.isDigit = true ∧ 'e' ∈ more ∧
      ∀ c ∈ more, c.isDigit = true ∨ c ∈ ['.', 'e', '-', '+'] := by
  obtain ⟨d, ds, rfl⟩ := List.exists_cons_of_ne_nil hne
  refine ⟨d, _, rfl, hd d List.mem_cons_self, by simp, fun c hc => ?_⟩
  rcases List.mem_append.1 hc with hc | hc
  · rcases List.mem_append.1 hc with hc | hc
    · split at hc
      · cases hc
      · rcases List.mem_cons.1 hc with rfl | hc
        · exact .inr (by decide)
        · exact .inl (hd c (List.mem_of_mem_drop hc))
    · rcases List.mem_cons.1 hc with rfl | hc
      · exact .inr (by decide)
      · rcases List.mem_cons.1 hc with rfl | hc
        · refine .inr ?_
          split <;> decide
        · exact .inl (isDigit_zeros _ c hc)
  · exact .inl (isDigit_toDigits _ c hc)

theorem write_eq (n : Notation) (d : Decimal) : n.write d =
    if n.least ≤ (significant d).2 ∧ (significant d).2 < n.limit then
      positional (significant d).1 (significant d).2
    else scientific n.exponentWidth (significant d).1 (significant d).2 := by
  simp [Notation.write]

end StackLang.Decimal

namespace StackLang.Binary64
open Decimal

/-- Zero, and the magnitudes from `10 ^ -4` up to `10 ^ 16`. -/
def ByPosition : Binary64 → Prop
  | .finite _ units => units = 0 ∨ unitsPerOne ≤ units * 10 ^ 4 ∧ units < 10 ^ 16 * unitsPerOne
  | .infinite _ => False

/-- The shortest decimals that are written without an exponent. -/
theorem byPosition_iff {units : ℕ} (h : Representable units) (negative : Bool) :
    (sourceNotation.least ≤ (significant (shortest units)).2 ∧
      (significant (shortest units)).2 < sourceNotation.limit) ↔
      (Binary64.finite negative units).ByPosition := by
  by_cases h0 : units = 0
  · subst h0
    exact ⟨fun _ => .inl rfl, fun _ => by decide⟩
  · rw [least_le_power_iff h h0, power_lt_limit_iff h h0, ByPosition]
    exact (or_iff_right h0).symm

theorem chars_of_byPosition {negative : Bool} {units : ℕ} (h : Representable units)
    (hp : (Binary64.finite negative units).ByPosition) :
    ∃ body, (Binary64.finite negative units).chars = chars.sign negative ++ body ∧
      Pointed body (shortest units).value := by
  refine ⟨_, ?_, pointed_shortest units⟩
  rw [chars, write_eq, if_pos ((byPosition_iff h negative).2 hp)]

/-- A character that no number read has, behind one that is no sign. -/
theorem chars_of_not_byPosition {x : Binary64} (h : x.Rounded) (hp : ¬x.ByPosition) :
    ∃ negative c body, x.chars = chars.sign negative ++ c :: body ∧ c ∉ ['-', '+'] ∧
      (∀ d ∈ c :: body, d.isDigit = true ∨ d ∈ ['.', 'e', '-', '+', 'i', 'n', 'f']) ∧
      ∃ d ∈ c :: body, d ∈ ['e', 'i'] := by
  cases h with
  | @infinite negative =>
    refine ⟨negative, 'i', ['n', 'f'], rfl, by decide, fun d hd => .inr ?_, 'i', by decide⟩
    exact List.mem_append_right ['.', 'e', '-', '+'] hd
  | @finite negative units hu _ =>
    obtain ⟨hd, hne⟩ := significant_digits (shortest units)
    obtain ⟨c, body, ht, hc, he, hall⟩ := scientific_eq_cons hd hne sourceNotation.exponentWidth
      (significant (shortest units)).2
    refine ⟨negative, c, body, ?_, ?_, ?_, 'e', List.mem_cons_of_mem c he, by decide⟩
    · rw [chars, write_eq, if_neg fun hb => hp ((byPosition_iff hu negative).1 hb), ht]
    · intro hs
      simp only [List.mem_cons, List.not_mem_nil, or_false] at hs
      rcases hs with rfl | rfl <;> cases hc
    · refine List.forall_mem_cons.2 ⟨.inl hc, fun d hm => (hall d hm).imp_right fun hs => ?_⟩
      exact List.mem_append_left ['i', 'n', 'f'] hs

end StackLang.Binary64
