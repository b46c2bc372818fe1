/-
**The written form of a number denotes the number.**

The shortest decimal of a finite double is searched for among the decimals of one to seventeen
digits, and the search takes what lies in the interval of the number.  This module shows that the
search never comes back empty-handed, that moving trailing zeros into the exponent changes nothing,
and that writing a decimal positionally loses nothing either.  Together with the rounding of
`MacroForest.Proofs.Number.Rounding` this gives the law of written numbers: the digits before and
after the point denote the double that was written, and not only one near to it.

Seventeen digits suffice because the interval of a number is wider than the distance of two
decimals of seventeen digits: the former is at least a part in `2 ^ 53` of the number, the latter
at most a part in `10 ^ 16`.

Main results:

* `MacroForest.Number.shortest_lies` — the shortest decimal lies in the interval;
* `MacroForest.Number.ofDecimal_eq` — a decimal of the interval is read as the number;
* `MacroForest.Number.exists_parts` — **the written form of a finite number has a whole part and a
  fraction that denote it**.
-/

import MacroForest.Proofs.Number.Rounding

set_option relaxedAutoImplicit false
set_option autoImplicit false

namespace MacroForest

theorem pow2_pos (n : Nat) : 0 < pow2 n := by
  rw [pow2_eq]
  positivity

theorem pow2_le {m n : Nat} (h : m ≤ n) : pow2 m ≤ pow2 n := by
  simp only [pow2_eq]
  exact Nat.pow_le_pow_right (by norm_num) h

theorem pow10_pos (n : Nat) : 0 < pow10 n := by
  rw [pow10_eq]
  positivity

theorem pow10_add (m n : Nat) : pow10 (m + n) = pow10 m * pow10 n := by
  simp only [pow10_eq, Nat.pow_add]

theorem pow10_succ (n : Nat) : pow10 (n + 1) = 10 * pow10 n := by
  rw [pow10_eq, pow10_eq, Nat.pow_succ, Nat.mul_comm]

theorem pow10_le {m n : Nat} (h : m ≤ n) : pow10 m ≤ pow10 n := by
  simp only [pow10_eq]
  exact Nat.pow_le_pow_right (by norm_num) h

namespace Number

variable {x : Number} {d : Decimal}

theorem unitsPerOne_pos : 0 < unitsPerOne := pow2_pos 1074

theorem searchScale_pos : 0 < searchScale := pow10_pos 341

/-! ### Decimals of the interval -/

/-- The decimal lies in the interval of the number. -/
def Lies (x : Number) (d : Decimal) : Prop :=
  -341 ≤ d.exponent ∧
    x.span.holds searchScale
      (d.digits * (pow10 (d.exponent + 341).toNat * (4 * unitsPerOne))) = true

/-- The lower end of an interval is at least two units, so zero lies in none. -/
theorem two_mul_le_of_holds {s a : Nat} (hzero : x.isZero = false)
    (h : x.span.holds s a = true) : 2 * s ≤ a := by
  obtain ⟨hlow, -, -⟩ := bounds_of_holds_span h
  have hpos := significand_pos hzero
  refine le_trans (Nat.mul_le_mul_right s ?_) hlow
  have h₁ : 1 ≤ 2 ^ x.unitExponent := Nat.one_le_two_pow
  have h₂ : 2 ≤ 4 * x.significand -
      if x.significand = 2 ^ 52 ∧ 0 < x.unitExponent then 1 else 2 := by
    split <;> omega
  nlinarith

/-- The upper end of an interval is below `2 ^ 2100` units. -/
theorem lt_mul_of_holds {s a : Nat} (hfin : x.isFinite = true) (hs : 0 < s)
    (h : x.span.holds s a = true) : a < pow2 2100 * s := by
  obtain ⟨-, hhigh, -⟩ := bounds_of_holds_span h
  have hm := x.significand_lt
  have he : pow2 x.unitExponent ≤ pow2 2045 := pow2_le (unitExponent_le hfin)
  rw [← pow2_eq] at hhigh
  refine lt_of_le_of_lt hhigh (Nat.mul_lt_mul_of_pos_right ?_ hs)
  calc (4 * x.significand + 2) * pow2 x.unitExponent
      < 2 ^ 55 * pow2 x.unitExponent := Nat.mul_lt_mul_of_pos_right (by omega) (pow2_pos _)
    _ ≤ 2 ^ 55 * pow2 2045 := Nat.mul_le_mul_left _ he
    _ = pow2 2100 := by decide +kernel

theorem Lies.digits_pos (hzero : x.isZero = false) (h : x.Lies d) : 0 < d.digits := by
  have hle := two_mul_le_of_holds hzero h.2
  rcases Nat.eq_zero_or_pos d.digits with h₀ | h₀
  · rw [h₀, Nat.zero_mul] at hle
    have := searchScale_pos
    omega
  · exact h₀

/-- The number of digits bounds a natural number other than zero from both sides. -/
theorem pow10_length_toDigits {n : Nat} (hn : 0 < n) :
    pow10 ((Nat.toDigits 10 n).length - 1) ≤ n ∧ n < pow10 (Nat.toDigits 10 n).length := by
  have hlen : 0 < (Nat.toDigits 10 n).length := Nat.length_toDigits_pos
  simp only [pow10_eq]
  refine ⟨?_, (Nat.length_toDigits_le_iff (by norm_num) hlen).1 le_rfl⟩
  rcases Nat.lt_or_ge 1 (Nat.toDigits 10 n).length with h | h
  · by_contra hlt
    have hk : 0 < (Nat.toDigits 10 n).length - 1 := by omega
    have := (Nat.length_toDigits_le_iff (by norm_num : 1 < 10) hk).2 (Nat.not_le.1 hlt)
    omega
  · rw [show (Nat.toDigits 10 n).length - 1 = 0 by omega, Nat.pow_zero]
    exact hn

/-- A decimal of the interval is not so small that reading it gives zero. -/
theorem Lies.length_ge (hzero : x.isZero = false) (h : x.Lies d) :
    -323 ≤ d.exponent + (Nat.toDigits 10 d.digits).length := by
  by_contra hlt
  have hd := (pow10_length_toDigits (h.digits_pos hzero)).2
  have hle := two_mul_le_of_holds hzero h.2
  have hnum : pow10 17 * (4 * unitsPerOne) < 2 * searchScale := by decide +kernel
  have hexp : (Nat.toDigits 10 d.digits).length + (d.exponent + 341).toNat ≤ 17 := by
    have := h.1
    omega
  have hpow := pow10_le hexp
  rw [pow10_add] at hpow
  have : d.digits * (pow10 (d.exponent + 341).toNat * (4 * unitsPerOne)) ≤
      pow10 17 * (4 * unitsPerOne) := by
    rw [← Nat.mul_assoc]
    exact Nat.mul_le_mul_right _ (le_trans (Nat.mul_le_mul_right _ hd.le) hpow)
  omega

/-- A decimal of the interval is not so large that reading it gives an infinity. -/
theorem Lies.length_lt (hfin : x.isFinite = true) (hzero : x.isZero = false) (h : x.Lies d) :
    d.exponent + (Nat.toDigits 10 d.digits).length < 310 := by
  by_contra hge
  have hd := (pow10_length_toDigits (h.digits_pos hzero)).1
  have hlt := lt_mul_of_holds hfin searchScale_pos h.2
  have hnum : pow2 2100 * searchScale < pow10 650 * (4 * unitsPerOne) := by decide +kernel
  have hexp : 650 ≤ (Nat.toDigits 10 d.digits).length - 1 + (d.exponent + 341).toNat := by
    have := h.1
    have : 0 < (Nat.toDigits 10 d.digits).length := Nat.length_toDigits_pos
    omega
  have hpow := pow10_le hexp
  rw [pow10_add] at hpow
  have : pow10 650 * (4 * unitsPerOne) ≤
      d.digits * (pow10 (d.exponent + 341).toNat * (4 * unitsPerOne)) := by
    rw [← Nat.mul_assoc d.digits]
    exact Nat.mul_le_mul_right _ (le_trans hpow (Nat.mul_le_mul_right _ hd))
  omega

/-- **A decimal of the interval of a finite number other than zero is read as this number.** -/
theorem ofDecimal_eq (hfin : x.isFinite = true) (hzero : x.isZero = false) (h : x.Lies d) :
    ofDecimal x.negative d.digits d.exponent = x := by
  have hpos := h.digits_pos hzero
  have hge := h.length_ge hzero
  have hlt := h.length_lt hfin hzero
  obtain ⟨hexp, hholds⟩ := h
  unfold ofDecimal
  dsimp only
  rw [if_neg (by omega), if_neg (by omega)]
  split
  · -- an integer: the scale of the search is taken out
    rename_i hnonneg
    refine ofUnits_eq hfin hzero Nat.one_pos ?_
    rw [← x.span.holds_mul searchScale_pos, Nat.one_mul, ← hholds]
    congr 1
    rw [Int.toNat_add hnonneg (by norm_num), pow10_add, show (341 : Int).toNat = 341 from rfl,
      ← searchScale]
    ring
  · -- a fraction: its denominator divides the scale of the search
    rename_i hneg
    refine ofUnits_eq hfin hzero (pow10_pos _) ?_
    rw [← x.span.holds_mul (pow10_pos (d.exponent + 341).toNat), ← pow10_add, ← hholds,
      show (-d.exponent).toNat + (d.exponent + 341).toNat = 341 by omega, ← searchScale]
    congr 1
    ring

/-! ### The search -/

/-- What the search takes at one power of ten lies in the interval. -/
theorem Span.nearest?_holds {i : Span} {exponent : Int} (h : i.nearest? exponent = some d) :
    d.exponent = exponent ∧
      i.holds searchScale (d.digits * (pow10 (exponent + 341).toNat * (4 * unitsPerOne))) = true := by
  unfold Span.nearest? at h
  dsimp only at h
  split at h
  · rename_i hq hq'
    obtain rfl := Option.some.inj h
    refine ⟨rfl, ?_⟩
    dsimp only
    split
    · exact hq
    · exact hq'
  · rename_i hq _
    obtain rfl := Option.some.inj h
    exact ⟨rfl, hq⟩
  · rename_i _ hq'
    obtain rfl := Option.some.inj h
    exact ⟨rfl, hq'⟩
  · simp at h

/-- If nothing is taken, then the two multiples around the number lie outside the interval, one at
each side. -/
theorem Span.outside_of_nearest?_eq_none {i : Span} {exponent : Int}
    (hlow : i.low < i.value) (hhigh : i.value < i.high) (h : i.nearest? exponent = none) :
    ∃ q, q * (pow10 (exponent + 341).toNat * (4 * unitsPerOne)) ≤ i.low * searchScale ∧
      i.high * searchScale ≤ (q + 1) * (pow10 (exponent + 341).toNat * (4 * unitsPerOne)) := by
  have hunit : 0 < pow10 (exponent + 341).toNat * (4 * unitsPerOne) :=
    Nat.mul_pos (pow10_pos _) (Nat.mul_pos (by norm_num) unitsPerOne_pos)
  have hlow' := Nat.mul_lt_mul_of_pos_right hlow searchScale_pos
  have hhigh' := Nat.mul_lt_mul_of_pos_right hhigh searchScale_pos
  unfold Span.nearest? at h
  dsimp only at h
  split at h
  · simp at h
  · simp at h
  · simp at h
  rename_i hq hq'
  generalize pow10 (exponent + 341).toNat * (4 * unitsPerOne) = unit at *
  have hle : i.value * searchScale / unit * unit ≤ i.value * searchScale := Nat.div_mul_le_self _ _
  have hlt : i.value * searchScale < (i.value * searchScale / unit + 1) * unit :=
    Nat.lt_mul_of_div_lt (Nat.lt_succ_self _) hunit
  generalize i.value * searchScale / unit = q at *
  refine ⟨q, ?_, ?_⟩
  · by_contra hin
    unfold Span.holds at hq
    split at hq <;> simp at hq <;> omega
  · by_contra hin
    unfold Span.holds at hq'
    split at hq' <;> simp at hq' <;> omega

/-- The leading digit: scaled to be an integer, the number has `leadingExponent + 325` digits. -/
theorem leadingExponent_spec {value : Nat} (h : 4 ≤ value) :
    ∃ n : Nat, leadingExponent value = n - 324 ∧
      pow10 n * (4 * unitsPerOne) ≤ value * pow10 324 := by
  have hunit : 0 < 4 * unitsPerOne := Nat.mul_pos (by norm_num) unitsPerOne_pos
  have hnum : 4 * unitsPerOne ≤ 4 * pow10 324 := by decide +kernel
  have hpos : 0 < value * pow10 324 / (4 * unitsPerOne) := by
    refine Nat.div_pos (le_trans hnum (Nat.mul_le_mul_right _ h)) hunit
  have hlen : 0 < (Nat.toDigits 10 (value * pow10 324 / (4 * unitsPerOne))).length :=
    Nat.length_toDigits_pos
  refine ⟨(Nat.toDigits 10 (value * pow10 324 / (4 * unitsPerOne))).length - 1, ?_, ?_⟩
  · unfold leadingExponent
    omega
  · exact (Nat.le_div_iff_mul_le hunit).1 (pow10_length_toDigits hpos).1

/-- **Seventeen digits suffice**: at the last power of ten the search takes something. -/
theorem nearest?_ne_none (hzero : x.isZero = false) :
    x.span.nearest? (leadingExponent x.span.value - 16) ≠ none := by
  intro hnone
  have hm := x.significand_lt
  have hpos := significand_pos hzero
  have hunit : 0 < pow2 x.unitExponent := pow2_pos _
  have hvalue : 4 ≤ x.span.value := by
    simp only [span]
    nlinarith
  obtain ⟨n, hlead, hle⟩ := leadingExponent_spec hvalue
  have hbelow : x.span.low < x.span.value := by
    refine Nat.mul_lt_mul_of_pos_right ?_ hunit
    split <;> omega
  have habove : x.span.value < x.span.high := Nat.mul_lt_mul_of_pos_right (by omega) hunit
  obtain ⟨q, hq, hq'⟩ := Span.outside_of_nearest?_eq_none hbelow habove hnone
  rw [hlead, show ((n : Int) - 324 - 16 + 341).toNat = n + 1 by omega, pow10_succ] at hq hq'
  -- the step of the search is at most a part in `10 ^ 16` of the number
  have hstep : 10 * pow10 n * (4 * unitsPerOne) * 10 ^ 16 ≤ x.span.value * searchScale := by
    have hscale : searchScale = pow10 324 * 10 ^ 17 := by decide +kernel
    rw [hscale]
    nlinarith
  generalize 10 * pow10 n * (4 * unitsPerOne) = step at hq hq' hstep
  -- so it cannot reach across the interval
  simp only [span, pow2_eq 52, Nat.mul_assoc] at hq hq' hstep
  have hW : 0 < pow2 x.unitExponent * searchScale := Nat.mul_pos hunit searchScale_pos
  generalize pow2 x.unitExponent * searchScale = width at hq hq' hstep hW
  split at hq
  · rename_i hleast
    rw [hleast.1] at hq hq' hstep
    norm_num at hq hq' hstep
    nlinarith
  · have hsub : (4 * x.significand - 2) * width + 2 * width = 4 * x.significand * width := by
      rw [← Nat.add_mul]
      congr 1
      omega
    have hlt : x.significand * width < 2 ^ 53 * width := Nat.mul_lt_mul_of_pos_right hm hW
    norm_num at hlt
    nlinarith

/-- Trailing zeros can be moved into the exponent. -/
theorem Lies.trimZeros (h : x.Lies d) (fuel : Nat) : x.Lies (trimZeros fuel d) := by
  induction fuel generalizing d with
  | zero => exact h
  | succ fuel ih =>
      unfold Number.trimZeros
      split
      · rename_i hzeros
        refine ih ⟨by have := h.1; dsimp only; omega, ?_⟩
        have hexp : (d.exponent + 1 + 341).toNat = (d.exponent + 341).toNat + 1 := by
          have := h.1
          omega
        have hdigits : d.digits / 10 * 10 = d.digits := by omega
        rw [← h.2]
        dsimp only
        congr 1
        rw [hexp, pow10_succ]
        calc d.digits / 10 * (10 * pow10 (d.exponent + 341).toNat * (4 * unitsPerOne))
            = d.digits / 10 * 10 * (pow10 (d.exponent + 341).toNat * (4 * unitsPerOne)) := by ring
          _ = d.digits * (pow10 (d.exponent + 341).toNat * (4 * unitsPerOne)) := by rw [hdigits]
      · exact h

/-- **The shortest decimal of a finite number other than zero lies in its interval.** -/
theorem shortest_lies (hzero : x.isZero = false) : x.Lies x.shortest := by
  have hpos := significand_pos hzero
  have hvalue : 4 ≤ x.span.value := by
    have : 0 < pow2 x.unitExponent := pow2_pos _
    simp only [span]
    nlinarith
  obtain ⟨n, hlead, -⟩ := leadingExponent_spec hvalue
  unfold shortest
  rw [if_neg (by simp [hzero])]
  dsimp only
  refine Lies.trimZeros ?_ 18
  cases hhit : (List.range 17).findSome? fun (k : Nat) =>
      x.span.nearest? (leadingExponent x.span.value - k) with
  | none =>
      rw [List.findSome?_eq_none_iff] at hhit
      exact absurd (hhit 16 (by simp)) (nearest?_ne_none hzero)
  | some d =>
      obtain ⟨k, hk, hd⟩ := List.exists_of_findSome?_eq_some hhit
      obtain ⟨hexp, hholds⟩ := Span.nearest?_holds hd
      rw [List.mem_range] at hk
      rw [Option.getD_some]
      refine ⟨by omega, ?_⟩
      rw [hexp]
      exact hholds

/-! ### The written form -/

/-- A fraction behind its point.  There is no point without digits after it. -/
def pointed (fraction : List Char) : List Char :=
  if fraction.isEmpty then [] else '.' :: fraction

theorem digitsValue_eq (digits : List Char) : digitsValue digits = Nat.ofDigitChars 10 digits 0 :=
  Nat.ofDigitChars_eq_foldl.symm

theorem isDigit_of_mem_decimalDigits {n : Nat} {c : Char} (h : c ∈ decimalDigits n) :
    c.isDigit = true := Nat.isDigit_of_mem_toDigits (by norm_num) (by norm_num) h

/-- A positional decimal has digits before the point and, if its exponent is negative, as many
digits after it as the exponent says; together they have the value of its digits. -/
theorem positional_parts (d : Decimal) :
    ∃ whole fraction, d.positional = whole ++ pointed fraction ∧ whole ≠ [] ∧
      (∀ c ∈ whole ++ fraction, c.isDigit = true) ∧
      fraction.length = (-d.exponent).toNat ∧
      digitsValue (whole ++ fraction) = d.digits * pow10 d.exponent.toNat := by
  have hne : decimalDigits d.digits ≠ [] := Nat.toDigits_ne_nil
  unfold Decimal.positional
  dsimp only
  split
  · rename_i hnonneg
    refine ⟨decimalDigits d.digits ++ List.replicate d.exponent.toNat '0', [], ?_, ?_, ?_, ?_, ?_⟩
    · simp [pointed]
    · simp [hne]
    · intro c hc
      rw [List.append_nil, List.mem_append] at hc
      rcases hc with hc | hc
      · exact isDigit_of_mem_decimalDigits hc
      · rw [List.eq_of_mem_replicate hc]
        rfl
    · simp only [List.length_nil]
      omega
    · rw [List.append_nil, digitsValue_eq, Nat.ofDigitChars_append, Nat.ofDigitChars_replicate_zero,
        decimalDigits, Nat.ofDigitChars_ten_toDigits, Nat.mul_comm, pow10_eq]
  · rename_i hneg
    generalize hpadded : List.replicate ((-d.exponent).toNat + 1 - (decimalDigits d.digits).length)
      '0' ++ decimalDigits d.digits = padded
    have hlen : (-d.exponent).toNat + 1 ≤ padded.length := by
      rw [← hpadded, List.length_append, List.length_replicate]
      omega
    refine ⟨padded.take (padded.length - (-d.exponent).toNat),
      padded.drop (padded.length - (-d.exponent).toNat), ?_, ?_, ?_, ?_, ?_⟩
    · rw [pointed, if_neg]
      rw [List.isEmpty_iff, List.drop_eq_nil_iff]
      omega
    · intro hnil
      have := congrArg List.length hnil
      rw [List.length_take, List.length_nil] at this
      omega
    · intro c hc
      rw [List.take_append_drop, ← hpadded, List.mem_append] at hc
      rcases hc with hc | hc
      · rw [List.eq_of_mem_replicate hc]
        rfl
      · exact isDigit_of_mem_decimalDigits hc
    · rw [List.length_drop]
      omega
    · rw [List.take_append_drop, ← hpadded, digitsValue_eq, Nat.ofDigitChars_append,
        Nat.ofDigitChars_replicate_zero, Nat.mul_zero, decimalDigits,
        Nat.ofDigitChars_ten_toDigits, Int.toNat_of_nonpos (by omega), pow10_eq, Nat.pow_zero,
        Nat.mul_one]

/-- The zeros behind the digits of an integer can be written out. -/
theorem Lies.integer (h : x.Lies d) (hexp : 0 ≤ d.exponent) :
    x.Lies ⟨d.digits * pow10 d.exponent.toNat, 0⟩ := by
  refine ⟨by norm_num, ?_⟩
  rw [← h.2]
  dsimp only
  congr 1
  rw [Int.toNat_add hexp (by norm_num), pow10_add, Int.zero_add, Nat.mul_assoc, Nat.mul_assoc]

theorem eq_zero_of_isZero (h : x.isZero = true) : zero x.negative = x := by
  have hparts := make_parts (isNaN_of_isZero h)
  rwa [(parts_of_isZero h).1, (parts_of_isZero h).2] at hparts

/-- **The written form of a finite number has a whole part and a fraction that denote it.** -/
theorem exists_parts (hfin : x.isFinite = true) :
    ∃ whole fraction, x.shortest.positional = whole ++ pointed fraction ∧ whole ≠ [] ∧
      (∀ c ∈ whole ++ fraction, c.isDigit = true) ∧ ofParts x.negative whole fraction 0 = x := by
  obtain ⟨whole, fraction, htext, hne, hdigits, hlen, hvalue⟩ := positional_parts x.shortest
  refine ⟨whole, fraction, htext, hne, hdigits, ?_⟩
  unfold ofParts
  rw [hvalue, hlen]
  cases hzero : x.isZero with
  | true =>
      have hshort : x.shortest = ⟨0, 0⟩ := by rw [shortest, if_pos hzero]
      rw [hshort, Nat.zero_mul, ofDecimal, if_pos (Or.inl rfl)]
      exact eq_zero_of_isZero hzero
  | false =>
      have hlies := shortest_lies hzero
      rcases Int.le_total 0 x.shortest.exponent with hexp | hexp
      · rw [show (0 : Int) - (-x.shortest.exponent).toNat = 0 by omega]
        exact ofDecimal_eq hfin hzero (hlies.integer hexp)
      · have hread := ofDecimal_eq hfin hzero hlies
        rw [Int.toNat_of_nonpos hexp, pow10_eq, Nat.pow_zero, Nat.mul_one,
          show (0 : Int) - (-x.shortest.exponent).toNat = x.shortest.exponent by omega]
        exact hread

end Number

end MacroForest
