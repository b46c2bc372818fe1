/-
**Rounding: a fraction of a number's interval is rounded to that number.**

`MacroForest.Number.ofUnits` rounds a fraction of units to the nearest double, and
`MacroForest.Number.span` is the interval of a double: halfway to its neighbours, with the ends if
the significand is even.  The two are defined apart, one for reading and one for writing.  Here
they are shown to fit: whatever lies in the interval of a finite double other than zero is rounded
to this double, sign included.

The one place where the argument is not local is the lower end of a binade.  A fraction just below
`2 ^ 52` units of some size is measured in units of half that size, is rounded up to `2 ^ 53` of
them, and only the carry brings it back to the number whose interval it came from.

Main results:

* `MacroForest.Number.make_parts` — a double is made of its sign, significand and unit;
* `MacroForest.Number.roundQuotient_eq` — rounding of a quotient, by the distance;
* `MacroForest.Number.ofUnits_eq` — **the interval of a number is rounded to the number**.
-/

import MacroForest.Number.Text
import Mathlib.Tactic.Linarith
import Mathlib.Tactic.Ring
import Mathlib.Tactic.Positivity

set_option relaxedAutoImplicit false
set_option autoImplicit false

namespace MacroForest

theorem pow2_eq (n : Nat) : pow2 n = 2 ^ n := by
  unfold pow2
  exact Nat.pow_eq

theorem pow10_eq (n : Nat) : pow10 n = 10 ^ n := by
  unfold pow10
  exact Nat.pow_eq

namespace Number

variable {x : Number}

/-! ### The parts of a word -/

theorem word_lt (x : Number) : x.word < 2 ^ 64 := x.bits.toNat_lt

theorem fraction_lt (x : Number) : x.fraction < 2 ^ 52 := by
  rw [fraction, pow2_eq]
  exact Nat.mod_lt _ (by norm_num)

theorem significand_lt (x : Number) : x.significand < 2 ^ 53 := by
  have h := x.fraction_lt
  unfold significand
  rw [pow2_eq]
  split <;> omega

/-- A number whose unit is not the least one has its leading bit set. -/
theorem le_significand (h : 0 < x.unitExponent) : 2 ^ 52 ≤ x.significand := by
  unfold unitExponent at h
  unfold significand
  rw [if_neg (by omega), pow2_eq]
  omega

theorem unitExponent_le (h : x.isFinite = true) : x.unitExponent ≤ 2045 := by
  have hlt : x.exponentField < 2048 := Nat.mod_lt _ (by norm_num)
  have hne : x.exponentField ≠ 2047 := by simpa [isFinite] using h
  unfold unitExponent
  omega

theorem significand_pos (h : x.isZero = false) : 0 < x.significand := by
  have hne : x.word % 2 ^ 63 ≠ 0 := by simpa [isZero, pow2_eq] using h
  unfold significand
  split
  · rename_i he
    rw [exponentField, pow2_eq] at he
    rw [fraction, pow2_eq]
    omega
  · rw [pow2_eq]
    omega

theorem parts_of_isZero (h : x.isZero = true) : x.significand = 0 ∧ x.unitExponent = 0 := by
  have hw : x.word % 2 ^ 63 = 0 := by simpa [isZero, pow2_eq] using h
  unfold significand unitExponent exponentField fraction
  simp only [pow2_eq]
  split <;> omega

theorem isNaN_of_isFinite (h : x.isFinite = true) : x.isNaN = false := by
  have : x.exponentField ≠ 2047 := by simpa [isFinite] using h
  simp [isNaN, this]

theorem isNaN_of_isZero (h : x.isZero = true) : x.isNaN = false := by
  have hword : x.word % 2 ^ 63 = 0 := by simpa [isZero, pow2_eq] using h
  have hfraction : x.fraction = 0 := by
    rw [fraction, pow2_eq]
    omega
  simp [isNaN, hfraction]

/-- Numbers that are no NaNs are told apart by their words. -/
theorem eq_of_bits {x y : Number} (hx : x.isNaN = false) (h : x.bits = y.bits) : x = y := by
  obtain ⟨bits, cell, hcell⟩ := x
  obtain ⟨bits', cell', hcell'⟩ := y
  obtain rfl : bits = bits' := h
  obtain rfl := hcell hx
  obtain rfl := hcell' hx
  rfl

/-- A double is made of its sign, its significand and its unit. -/
theorem make_parts (hx : x.isNaN = false) :
    make x.negative x.significand x.unitExponent = x := by
  have hw := x.word_lt
  have hsum : (if x.negative then 2 ^ 63 else 0) +
      (if x.significand < 2 ^ 52 then x.significand
        else (x.unitExponent + 1) * 2 ^ 52 + (x.significand - 2 ^ 52)) = x.word := by
    unfold negative significand unitExponent exponentField fraction
    simp only [decide_eq_true_eq, pow2_eq]
    split <;> split <;> split <;> omega
  refine (eq_of_bits hx ?_).symm
  unfold make
  simp only [pow2_eq]
  rw [hsum]
  simp [word, ofBits]

/-! ### Rounding a quotient -/

/-- A quotient is rounded to an integer at most one half away, if this one is even or the distance
is less. -/
theorem roundQuotient_eq {a d m : Nat} (hd : 0 < d) (hlow : 2 * m * d ≤ 2 * a + d)
    (hhigh : 2 * a ≤ (2 * m + 1) * d)
    (hodd : m % 2 = 1 → 2 * m * d < 2 * a + d ∧ 2 * a < (2 * m + 1) * d) :
    roundQuotient a d = m := by
  have hdiv : d * (a / d) + a % d = a := Nat.div_add_mod a d
  have hmod : a % d < d := Nat.mod_lt a hd
  unfold roundQuotient
  generalize a / d = q at hdiv ⊢
  generalize a % d = r at hdiv hmod ⊢
  -- only the quotient and the integer above it are within one half
  have hq : q ≤ m := by
    by_contra hlt
    have : (m + 1) * d ≤ q * d := Nat.mul_le_mul_right d (by omega)
    nlinarith
  have hq' : m ≤ q + 1 := by
    by_contra hlt
    have : (q + 2) * d ≤ m * d := Nat.mul_le_mul_right d (by omega)
    nlinarith
  obtain rfl | rfl : m = q ∨ m = q + 1 := by omega
  · have hr : 2 * r ≤ d := by nlinarith
    rcases Nat.lt_or_eq_of_le hr with hr | hr
    · simp [hr]
    · have heven : m % 2 = 0 := by
        by_contra hne
        have := (hodd (by omega)).2
        nlinarith
      simp [hr, heven]
  · have hr : d ≤ 2 * r := by nlinarith
    rcases Nat.lt_or_eq_of_le hr with hr | hr
    · simp [hr, Nat.not_lt.2 hr.le]
    · have heven : q % 2 = 1 := by
        by_contra hne
        have := (hodd (by omega)).1
        nlinarith
      simp [hr, heven]

/-! ### Intervals -/

/-- Whether a fraction lies in an interval does not depend on how it is reduced. -/
theorem Span.holds_mul (i : Span) {k : Nat} (hk : 0 < k) (s a : Nat) :
    i.holds (s * k) (a * k) = i.holds s a := by
  unfold Span.holds
  simp only [← Nat.mul_assoc, Nat.mul_le_mul_right_iff hk, Nat.mul_lt_mul_right hk]

/-- What it means to lie in the interval of a number: the distance is at most half a unit, or a
quarter below the least significand of a binade, and less than that if the significand is odd. -/
theorem bounds_of_holds_span {s a : Nat} (h : x.span.holds s a = true) :
    (4 * x.significand - if x.significand = 2 ^ 52 ∧ 0 < x.unitExponent then 1 else 2) *
        2 ^ x.unitExponent * s ≤ a ∧
      a ≤ (4 * x.significand + 2) * 2 ^ x.unitExponent * s ∧
      (x.significand % 2 = 1 →
        (4 * x.significand - 2) * 2 ^ x.unitExponent * s < a ∧
          a < (4 * x.significand + 2) * 2 ^ x.unitExponent * s) := by
  unfold Span.holds span at h
  simp only [beq_iff_eq, pow2_eq] at h
  split at h
  · rename_i heven
    simp only [Bool.and_eq_true, decide_eq_true_eq] at h
    exact ⟨h.1, h.2, fun hodd => absurd heven (by omega)⟩
  · simp only [Bool.and_eq_true, decide_eq_true_eq] at h
    refine ⟨h.1.le, h.2.le, fun hodd => ⟨?_, h.2⟩⟩
    have hne : ¬(x.significand = 2 ^ 52 ∧ 0 < x.unitExponent) := by omega
    rw [if_neg hne] at h
    exact h.1

/-- The unit that rounding chooses, from the binade of the fraction. -/
theorem log2_sub_eq {n e : Nat} (hlow : 0 < e → 2 ^ (52 + e) ≤ n) (hhigh : n < 2 ^ (53 + e)) :
    n.log2 - 52 = e := by
  have hle : n.log2 ≤ 52 + e := by
    rcases Nat.eq_zero_or_pos n with rfl | hn
    · simp
    · have := (Nat.log2_lt (by omega : n ≠ 0)).2 hhigh
      omega
  rcases Nat.eq_zero_or_pos e with rfl | he
  · omega
  · have hn := hlow he
    have hpos : n ≠ 0 := by
      have : 0 < 2 ^ (52 + e) := by positivity
      omega
    have := (Nat.le_log2 hpos).2 hn
    omega

/-- A fraction at most half a unit away from `m` units is rounded to `m` of them, if `m` is even or
the distance is less. -/
theorem roundQuotient_unit {a d m e : Nat} (hd : 0 < d) (hpos : 0 < m)
    (hlow : (4 * m - 2) * 2 ^ e * d ≤ 4 * a) (hhigh : 4 * a ≤ (4 * m + 2) * 2 ^ e * d)
    (hodd : m % 2 = 1 →
      (4 * m - 2) * 2 ^ e * d < 4 * a ∧ 4 * a < (4 * m + 2) * 2 ^ e * d) :
    roundQuotient a (d * 2 ^ e) = m := by
  have hsub : (4 * m - 2) * 2 ^ e * d + 2 * (d * 2 ^ e) = 4 * m * (d * 2 ^ e) := by
    rw [Nat.mul_assoc, Nat.mul_comm (2 ^ e) d, ← Nat.add_mul]
    congr 1
    omega
  refine roundQuotient_eq (by positivity) (by linarith) (by linarith) fun ho => ?_
  obtain ⟨h₁, h₂⟩ := hodd ho
  exact ⟨by linarith, by linarith⟩

/-- **Whatever lies in the interval of a finite number other than zero is rounded to it.** -/
theorem ofUnits_eq {a d : Nat} (hfin : x.isFinite = true) (hzero : x.isZero = false) (hd : 0 < d)
    (h : x.span.holds d (4 * a) = true) : ofUnits x.negative a d = x := by
  obtain ⟨hlow, hhigh, hodd⟩ := bounds_of_holds_span h
  have hm := x.significand_lt
  have hpos := significand_pos hzero
  have he := unitExponent_le hfin
  have hbinade := @le_significand x
  have hparts := make_parts (isNaN_of_isFinite hfin)
  generalize x.significand = m at *
  generalize x.unitExponent = e at *
  have hU : 0 < 2 ^ e * d := by positivity
  have hlt : a / d < 2 ^ (53 + e) := by
    rw [Nat.div_lt_iff_lt_mul hd, Nat.pow_add]
    have : (4 * m + 2) * (2 ^ e * d) < 2 ^ 55 * (2 ^ e * d) :=
      Nat.mul_lt_mul_of_pos_right (by omega) hU
    nlinarith
  by_cases hcase : 0 < e → 2 ^ (52 + e) ≤ a / d
  · -- the fraction is measured in the unit of the number itself
    have hunit : (a / d).log2 - 52 = e := log2_sub_eq hcase hlt
    have hnear : (4 * m - 2) * 2 ^ e * d ≤ 4 * a := by
      refine le_trans (Nat.mul_le_mul_right d (Nat.mul_le_mul_right (2 ^ e) ?_)) hlow
      split <;> omega
    have hround : roundQuotient a (d * 2 ^ e) = m := roundQuotient_unit hd hpos hnear hhigh hodd
    simp only [ofUnits, pow2_eq, hunit, hround, if_neg hm.ne]
    rw [if_neg (by omega), hparts]
  · -- just below its binade: half the unit, and a carry
    push Not at hcase
    obtain ⟨hepos, hbelow⟩ := hcase
    obtain ⟨k, rfl⟩ : ∃ k, e = k + 1 := ⟨e - 1, by omega⟩
    have hV : 0 < 2 ^ k * d := by positivity
    have hpow : 2 ^ (k + 1) * d = 2 * (2 ^ k * d) := by ring
    have ha : a < 2 ^ 53 * (2 ^ k * d) := by
      rw [Nat.div_lt_iff_lt_mul hd] at hbelow
      calc a < 2 ^ (52 + (k + 1)) * d := hbelow
        _ = 2 ^ 53 * (2 ^ k * d) := by ring
    have hleast : m = 2 ^ 52 := by
      by_contra hne
      have hm' := hbinade hepos
      rw [if_neg (by tauto), Nat.mul_assoc, hpow] at hlow
      have : (2 ^ 54 + 2) * (2 * (2 ^ k * d)) ≤ (4 * m - 2) * (2 * (2 ^ k * d)) :=
        Nat.mul_le_mul_right _ (by omega)
      nlinarith
    subst hleast
    rw [if_pos ⟨rfl, hepos⟩, Nat.mul_assoc, hpow] at hlow
    norm_num at hlow
    -- in half the unit there are twice as many
    have hunit : (a / d).log2 - 52 = k := by
      refine log2_sub_eq (fun _ => ?_) (by rwa [show 53 + k = 52 + (k + 1) by omega])
      rw [Nat.le_div_iff_mul_le hd]
      calc 2 ^ (52 + k) * d = 2 ^ 52 * (2 ^ k * d) := by ring
        _ ≤ a := by nlinarith
    have hround : roundQuotient a (d * 2 ^ k) = 2 ^ 53 := by
      refine roundQuotient_unit hd (by norm_num) ?_ ?_ fun ho => absurd ho (by norm_num)
      · rw [Nat.mul_assoc]
        norm_num
        linarith
      · rw [Nat.mul_assoc]
        linarith
    simp only [ofUnits, pow2_eq, hunit, hround, if_true]
    rw [if_neg (by omega), hparts]

end Number

end MacroForest
