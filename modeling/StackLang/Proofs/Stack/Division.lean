import Mathlib.Data.Int.Basic

namespace StackLang

/-- The quotient `q` and the remainder `r` of `a` by `b`. -/
structure Truncates (a b q r : Int) : Prop where
  total : a = b * q + r
  small : r.natAbs < b.natAbs
  signed : r = 0 ∨ r.sign = a.sign

theorem Truncates.divisor_ne_zero {a b q r : Int} (h : Truncates a b q r) : b ≠ 0 := by
  have hs := h.small
  omega

theorem Truncates.nonneg_of_nonneg {a b q r : Int} (h : Truncates a b q r) (ha : 0 ≤ a) :
    0 ≤ r := by
  rcases h.signed with hr | hr
  · exact Int.le_of_eq hr.symm
  · rw [← Int.sign_nonneg_iff, hr]
    exact Int.sign_nonneg_iff.2 ha

theorem Truncates.nonpos_of_nonpos {a b q r : Int} (h : Truncates a b q r) (ha : a ≤ 0) :
    r ≤ 0 := by
  rcases h.signed with hr | hr
  · exact Int.le_of_eq hr
  · rw [← Int.sign_nonpos_iff, hr]
    exact Int.sign_nonpos_iff.2 ha

theorem Truncates.unique {a b q r q' r' : Int} (h : Truncates a b q r)
    (h' : Truncates a b q' r') : q' = q ∧ r' = r := by
  have hd : b * (q - q') = r' - r := by
    have hq := h.total
    have hq' := h'.total
    rw [Int.mul_sub]
    omega
  -- Both remainders lie on the same side of zero, so they differ by less than the divisor.
  have hlt : (r' - r).natAbs < b.natAbs := by
    have hs := h.small
    have hs' := h'.small
    rcases Int.le_total 0 a with ha | ha
    · have hr := h.nonneg_of_nonneg ha
      have hr' := h'.nonneg_of_nonneg ha
      omega
    · have hr := h.nonpos_of_nonpos ha
      have hr' := h'.nonpos_of_nonpos ha
      omega
  have hr : r' - r = 0 := Int.eq_zero_of_dvd_of_natAbs_lt_natAbs ⟨_, hd.symm⟩ hlt
  rw [hr] at hd
  have hq : q - q' = 0 := (Int.mul_eq_zero.1 hd).resolve_left h.divisor_ne_zero
  omega

def signedQuotient (a b : Int) : Int :=
  if a < 0 ↔ b < 0 then (a.natAbs / b.natAbs : Nat) else -(a.natAbs / b.natAbs : Nat)

theorem sub_mul_signedQuotient (a : Int) {b : Int} (hb : b ≠ 0) :
    a - b * signedQuotient a b =
      if a < 0 then -((a.natAbs % b.natAbs : Nat) : Int) else (a.natAbs % b.natAbs : Nat) := by
  have hdiv : (b.natAbs : Int) * (a.natAbs / b.natAbs : Nat) + (a.natAbs % b.natAbs : Nat) =
      a.natAbs := by
    exact_mod_cast Nat.div_add_mod a.natAbs b.natAbs
  unfold signedQuotient
  generalize a.natAbs / b.natAbs = q at hdiv ⊢
  generalize a.natAbs % b.natAbs = r at hdiv ⊢
  rcases Int.lt_or_le a 0 with ha | ha <;> rcases Int.lt_or_gt_of_ne hb with hb | hb
  · rw [Int.ofNat_natAbs_of_nonpos (Int.le_of_lt hb), Int.neg_mul] at hdiv
    rw [if_pos (by omega), if_pos ha]
    omega
  · rw [Int.natAbs_of_nonneg (Int.le_of_lt hb)] at hdiv
    rw [if_neg (by omega), if_pos ha, Int.mul_neg]
    omega
  · rw [Int.ofNat_natAbs_of_nonpos (Int.le_of_lt hb), Int.neg_mul] at hdiv
    rw [if_neg (by omega), if_neg (by omega), Int.mul_neg]
    omega
  · rw [Int.natAbs_of_nonneg (Int.le_of_lt hb)] at hdiv
    rw [if_pos (by omega), if_neg (by omega)]
    omega

theorem truncates_signedQuotient (a : Int) {b : Int} (hb : b ≠ 0) :
    Truncates a b (signedQuotient a b) (a - b * signedQuotient a b) := by
  have hlt : a.natAbs % b.natAbs < b.natAbs := Nat.mod_lt _ (by omega)
  have hr := sub_mul_signedQuotient a hb
  refine ⟨by omega, ?_, ?_⟩
  · rw [hr]
    split <;> omega
  · by_cases hm : a.natAbs % b.natAbs = 0
    · left
      rw [hr, hm]
      split <;> rfl
    · right
      rw [hr]
      split
      · next ha => rw [Int.sign_eq_neg_one_of_neg ha, Int.sign_eq_neg_one_of_neg (by omega)]
      · next ha =>
        have hne : a ≠ 0 := by
          rintro rfl
          exact hm (Nat.zero_mod _)
        rw [Int.sign_eq_one_of_pos (by omega), Int.sign_eq_one_of_pos (by omega)]

theorem tdiv_eq_signedQuotient (a b : Int) : a.tdiv b = signedQuotient a b := by
  have hpos (n : Nat) : ¬ Int.ofNat n < 0 := by simp
  have hneg (n : Nat) : Int.negSucc n < 0 := Int.negSucc_lt_zero n
  unfold signedQuotient
  cases a with
  | ofNat m =>
    cases b with
    | ofNat n => exact (if_pos (iff_of_false (hpos m) (hpos n))).symm
    | negSucc n => exact (if_neg fun h => hpos m (h.2 (hneg n))).symm
  | negSucc m =>
    cases b with
    | ofNat n => exact (if_neg fun h => hpos n (h.1 (hneg m))).symm
    | negSucc n => exact (if_pos (iff_of_true (hneg m) (hneg n))).symm

theorem truncates_tdiv (a : Int) {b : Int} (hb : b ≠ 0) :
    Truncates a b (a.tdiv b) (a.tmod b) := by
  rw [Int.tmod_def, tdiv_eq_signedQuotient]
  exact truncates_signedQuotient a hb

end StackLang
