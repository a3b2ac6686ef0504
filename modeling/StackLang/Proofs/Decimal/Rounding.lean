import Mathlib.Algebra.Order.Field.Rat
import Mathlib.Data.Nat.Cast.Order.Field
import Mathlib.Data.Nat.Log
import Mathlib.Tactic.Linarith
import Mathlib.Tactic.Positivity
import Mathlib.Tactic.Ring
import StackLang.Decimal.Binary64

namespace StackLang

theorem divNearest_cases (a b : Nat) :
    divNearest a b = a / b ∧ 2 * (a % b) ≤ b ∨ divNearest a b = a / b + 1 ∧ b ≤ 2 * (a % b) := by
  unfold divNearest
  dsimp only
  split_ifs <;> omega

theorem divNearest_mul_right {b : Nat} (hb : 0 < b) (q : Nat) : divNearest (q * b) b = q := by
  unfold divNearest
  rw [Nat.mul_div_cancel q hb, Nat.mul_mod_left, if_pos (by omega)]

theorem divNearest_mul_mul {c : Nat} (hc : 0 < c) (a b : Nat) :
    divNearest (a * c) (b * c) = divNearest a b := by
  have hl : 2 * (a % b * c) < b * c ↔ 2 * (a % b) < b := by
    rw [← Nat.mul_assoc, Nat.mul_lt_mul_right hc]
  have hg : b * c < 2 * (a % b * c) ↔ b < 2 * (a % b) := by
    rw [← Nat.mul_assoc, Nat.mul_lt_mul_right hc]
  simp only [divNearest, Nat.mul_div_mul_right a b hc, Nat.mul_mod_mul_right, hl, hg]

theorem divNearest_mono {a a' : Nat} (h : a ≤ a') (b : Nat) : divNearest a b ≤ divNearest a' b := by
  have hq : a / b ≤ a' / b := Nat.div_le_div_right h
  have ha := Nat.div_add_mod a b
  have ha' := Nat.div_add_mod a' b
  rcases hq.lt_or_eq with hlt | heq
  · have := divNearest_cases a b
    have := divNearest_cases a' b
    omega
  · -- The whole parts agree, so the remainders are in the same order as the numbers are.
    rw [heq] at ha
    have hr : a % b ≤ a' % b := by omega
    unfold divNearest
    dsimp only
    rw [heq]
    split_ifs <;> omega

namespace Binary64

/-- The magnitudes of 53 significant bits at most. -/
def Representable (units : Nat) : Prop := 2 ^ (units.log2 - 52) ∣ units

theorem roundUnits_eq (a b : Nat) : roundUnits a b =
    divNearest a (b * 2 ^ ((a / b).log2 - 52)) * 2 ^ ((a / b).log2 - 52) := by
  simp only [roundUnits, Nat.pow_eq]

theorem representable_mul_pow {q : Nat} (hq : q ≤ 2 ^ 53) (e : Nat) :
    Representable (q * 2 ^ e) := by
  unfold Representable
  rcases Nat.eq_zero_or_pos q with rfl | hpos
  · simp
  have hne : q * 2 ^ e ≠ 0 := by positivity
  rcases hq.lt_or_eq with hlt | rfl
  · have hlog : (q * 2 ^ e).log2 < 53 + e := by
      rw [Nat.log2_lt hne, Nat.pow_add]
      exact Nat.mul_lt_mul_of_pos_right hlt (by positivity)
    exact Nat.dvd_mul_left_of_dvd (Nat.pow_dvd_pow 2 (by omega)) q
  · rw [← Nat.pow_add, Nat.log2_two_pow]
    exact Nat.pow_dvd_pow 2 (by omega)

theorem roundUnits_mul_mul {c : Nat} (hc : 0 < c) (a b : Nat) :
    roundUnits (a * c) (b * c) = roundUnits a b := by
  rw [roundUnits_eq, roundUnits_eq, Nat.mul_div_mul_right a b hc, Nat.mul_right_comm,
    divNearest_mul_mul hc]

/-- Below `2 ^ (53 + e)` no more than `2 ^ 53` steps of `2 ^ e` are needed. -/
theorem divNearest_le {a b e : Nat} (hb : 0 < b) (h : (a / b).log2 ≤ 52 + e) :
    divNearest a (b * 2 ^ e) ≤ 2 ^ 53 := by
  have hq : a / b < 2 ^ (53 + e) :=
    Nat.lt_log2_self.trans_le (Nat.pow_le_pow_right (by decide) (by omega))
  have ha : a ≤ 2 ^ 53 * (b * 2 ^ e) := by
    rw [Nat.mul_left_comm, ← Nat.pow_add, Nat.mul_comm]
    exact ((Nat.div_lt_iff_lt_mul hb).1 hq).le
  calc
    divNearest a (b * 2 ^ e) ≤ divNearest (2 ^ 53 * (b * 2 ^ e)) (b * 2 ^ e) :=
      divNearest_mono ha _
    _ = 2 ^ 53 := divNearest_mul_right (by positivity) _

theorem representable_roundUnits (a : Nat) {b : Nat} (hb : 0 < b) :
    Representable (roundUnits a b) := by
  rw [roundUnits_eq]
  exact representable_mul_pow (divNearest_le hb (by omega)) _

theorem Representable.roundUnits_mul {m : Nat} (h : Representable m) {d : Nat} (hd : 0 < d) :
    roundUnits (m * d) d = m := by
  obtain ⟨k, hk⟩ := h
  rw [roundUnits_eq, Nat.mul_div_cancel m hd]
  generalize 2 ^ (m.log2 - 52) = grid at hk
  subst hk
  rw [Nat.mul_comm grid k, Nat.mul_assoc, Nat.mul_comm grid d]
  rcases Nat.eq_zero_or_pos grid with rfl | hg
  · simp
  · rw [divNearest_mul_right (by positivity)]

/-- A magnitude with a larger exponent is larger, whatever the digits come to. -/
theorem roundUnits_mono {a a' b : Nat} (hb : 0 < b) (h : a ≤ a') :
    roundUnits a b ≤ roundUnits a' b := by
  have hq : a / b ≤ a' / b := Nat.div_le_div_right h
  have hlog : (a / b).log2 ≤ (a' / b).log2 := by
    rw [Nat.log2_eq_log_two, Nat.log2_eq_log_two]
    exact Nat.log_mono_right hq
  rw [roundUnits_eq, roundUnits_eq]
  rcases (Nat.sub_le_sub_right hlog 52).eq_or_lt with heq | hlt
  · rw [heq]
    exact Nat.mul_le_mul_right _ (divNearest_mono h _)
  · -- The lower one does not reach the first power of two that the higher one is above.
    have hne : a' / b ≠ 0 := by
      intro h0
      rw [h0] at hlt
      exact absurd hlt (by simp)
    have hself : 2 ^ (a' / b).log2 ≤ a' / b := Nat.log2_self_le hne
    generalize hg' : (a' / b).log2 - 52 = g' at hlt ⊢
    generalize hg : (a / b).log2 - 52 = g at hlt ⊢
    have hhigh : 2 ^ 52 * (b * 2 ^ g') ≤ a' := by
      rw [Nat.mul_left_comm, ← Nat.pow_add, Nat.mul_comm, ← Nat.le_div_iff_mul_le hb]
      rwa [show 52 + g' = (a' / b).log2 by omega]
    calc
      divNearest a (b * 2 ^ g) * 2 ^ g ≤ 2 ^ 53 * 2 ^ g :=
        Nat.mul_le_mul_right _ (divNearest_le hb (by omega))
      _ ≤ 2 ^ 52 * 2 ^ g' := by
        rw [← Nat.pow_add, ← Nat.pow_add]
        exact Nat.pow_le_pow_right (by decide) (by omega)
      _ = divNearest (2 ^ 52 * (b * 2 ^ g')) (b * 2 ^ g') * 2 ^ g' := by
        rw [divNearest_mul_right (by positivity)]
      _ ≤ divNearest a' (b * 2 ^ g') * 2 ^ g' :=
        Nat.mul_le_mul_right _ (divNearest_mono hhigh _)

theorem roundUnits_le_of_div_le {a b a' b' : Nat} (hb : 0 < b) (hb' : 0 < b')
    (h : (a : ℚ) / b ≤ a' / b') : roundUnits a b ≤ roundUnits a' b' := by
  have hcross : a * b' ≤ a' * b := by
    rw [div_le_div_iff₀ (by exact_mod_cast hb) (by exact_mod_cast hb')] at h
    exact_mod_cast h
  calc
    roundUnits a b = roundUnits (a * b') (b * b') := (roundUnits_mul_mul hb' a b).symm
    _ ≤ roundUnits (a' * b) (b * b') := roundUnits_mono (Nat.mul_pos hb hb') hcross
    _ = roundUnits a' b' := by rw [Nat.mul_comm b b', roundUnits_mul_mul hb]

theorem roundUnits_eq_of_div_eq {a b a' b' : Nat} (hb : 0 < b) (hb' : 0 < b')
    (h : (a : ℚ) / b = a' / b') : roundUnits a b = roundUnits a' b' :=
  (roundUnits_le_of_div_le hb hb' h.le).antisymm (roundUnits_le_of_div_le hb' hb h.ge)

theorem ofRatio_eq_finite (negative : Bool) {num den : Nat}
    (h : roundUnits (num * unitsPerOne) den < overflow) :
    ofRatio negative num den = .finite negative (roundUnits (num * unitsPerOne) den) := by
  unfold ofRatio
  -- The limit itself is never to be computed.
  generalize overflow = limit at h ⊢
  exact if_pos h

theorem ofRatio_eq_infinite (negative : Bool) {num den : Nat}
    (h : overflow ≤ roundUnits (num * unitsPerOne) den) :
    ofRatio negative num den = .infinite negative := by
  unfold ofRatio
  generalize overflow = limit at h ⊢
  exact if_neg h.not_gt

/-- What a number is after it has been read: of 53 significant bits at most, and in range. -/
inductive Rounded : Binary64 → Prop
  | finite {negative : Bool} {units : Nat} : Representable units → units < overflow →
      Rounded (.finite negative units)
  | infinite {negative : Bool} : Rounded (.infinite negative)

theorem rounded_ofRatio (negative : Bool) (num : Nat) {den : Nat} (hd : 0 < den) :
    (ofRatio negative num den).Rounded := by
  rcases Nat.lt_or_ge (roundUnits (num * unitsPerOne) den) overflow with h | h
  · rw [ofRatio_eq_finite negative h]
    exact .finite (representable_roundUnits _ hd) h
  · rw [ofRatio_eq_infinite negative h]
    exact .infinite

end Binary64
end StackLang
