import LazyTensor.Proofs.Number.Rounding

/-!
# Exact results

Rounding changes nothing if the format has the number: `FloatFormat.Represents` says that it is a multiple of the least
number with few enough bits, and `FloatWord.exact_ofDatum` that the word nearest to it stands for it. So sums and
products of words are exact as long as the format has them, whole numbers of few bits are words, and a word becomes the
same number in every wider format.
-/

namespace LazyTensor

/-! ## Rounding -/

variable {e : Int} {q : ℚ}

namespace FloatFormat

variable (f : FloatFormat)

/-- The format has the number. -/
def Represents (q : ℚ) : Prop := ∃ magnitude < f.infinityBits, |q| = f.units magnitude * 2 ^ f.leastExponent

variable {f}

theorem exists_units_eq {m : Nat} (hm : m < 2 * f.exponentWeight) (k : Nat) :
    ∃ magnitude, f.units magnitude = m * 2 ^ k := by
  induction k generalizing m with
  | zero => exact ⟨_, units_place (Nat.le_of_lt hm) (.inl rfl)⟩
  | succ k ih =>
    by_cases hfull : m < f.exponentWeight
    · -- there is room for one more bit
      obtain ⟨magnitude, h⟩ := ih (m := 2 * m) (by omega)
      exact ⟨magnitude, by rw [h]; ring⟩
    · exact ⟨_, units_place (Nat.le_of_lt hm) (.inr (by omega))⟩

theorem represents_of_eq {m : Nat} (hq : |q| = m * 2 ^ e) (hm : m < 2 * f.exponentWeight) (he : f.leastExponent ≤ e)
    (hlt : |q| < f.units f.infinityBits * 2 ^ f.leastExponent) : f.Represents q := by
  obtain ⟨k, rfl⟩ := Int.le.dest he
  obtain ⟨magnitude, hunits⟩ := exists_units_eq hm k
  have habs : |q| = f.units magnitude * 2 ^ f.leastExponent := by
    rw [hq, hunits, zpow_add₀ (by decide), zpow_natCast]
    push_cast
    ring
  refine ⟨magnitude, ?_, habs⟩
  rw [habs, mul_lt_mul_iff_left₀ (zpow_pos (by decide) _)] at hlt
  exact f.units_strictMono.lt_iff_lt.mp (by exact_mod_cast hlt)

theorem roundRatio_eq {n : Nat} {magnitude : Nat} (hlt : magnitude < f.infinityBits)
    (h : (n * 2 ^ e : ℚ) = f.valueOf magnitude) : f.roundRatio n 1 e = magnitude := by
  obtain ⟨m, hbetween, -, hround⟩ := f.exists_nearest n e
  rw [h] at hbetween
  have hm : m = magnitude := Nat.le_antisymm (hbetween.le_of_le (le_refl _)) (hbetween.ge_of_ge (le_refl _))
  rw [hround, hm, Nat.min_eq_left (Nat.le_of_lt hlt)]

end FloatFormat

/-! ## Words -/

namespace FloatWord

variable {f : FloatFormat}

theorem infinityBits_lt : f.infinityBits < f.signWeight := by
  rw [signWeight_eq, FloatFormat.infinityBits, Nat.succ_mul]
  have := f.exponentWeight_pos
  omega

section

variable {m : Nat} (h : m < f.signWeight) (negative : Bool)

include h

theorem toNat_ofMagnitude :
    (ofMagnitude negative m : FloatWord f).bits.toNat = if negative then f.signWeight + m else m := by
  have hwidth : 2 ^ f.width = 2 * f.signWeight := by
    show 2 ^ (1 + f.exponentBits + f.fractionBits) = 2 * 2 ^ (f.exponentBits + f.fractionBits)
    rw [Nat.add_assoc, Nat.pow_add]
  apply Nat.mod_eq_of_lt
  split <;> omega

theorem magnitude_ofMagnitude : (ofMagnitude negative m : FloatWord f).magnitude = m := by
  rw [magnitude, toNat_ofMagnitude h]
  cases negative with
  | false => exact Nat.mod_eq_of_lt h
  | true => rw [if_pos rfl, Nat.add_mod_left, Nat.mod_eq_of_lt h]

theorem negative_ofMagnitude : (ofMagnitude negative m : FloatWord f).negative = negative := by
  rw [FloatWord.negative, toNat_ofMagnitude h]
  cases negative with
  | false => simpa using h
  | true => simp

end

theorem exact_ofDatum {d : Datum} (hd : d.exact = .number q) (hq : f.Represents q) :
    (ofDatum d : FloatWord f).datum.exact = .number q := by
  obtain ⟨magnitude, hlt, habs⟩ := hq
  cases d with
  | nan => cases hd
  | infinite negative => cases hd
  | finite negative m e =>
    obtain rfl : (if negative then -1 else 1) * (m * 2 ^ e : ℚ) = q := ExactValue.number.inj hd
    have hnonneg : (0 : ℚ) ≤ m * 2 ^ e := mul_nonneg (Nat.cast_nonneg m) (zpow_nonneg (by decide) e)
    have hvalue : (m * 2 ^ e : ℚ) = f.units magnitude * 2 ^ f.leastExponent := by
      rw [← habs]
      cases negative <;> simp [abs_of_nonneg hnonneg]
    have hbits := Nat.lt_trans hlt infinityBits_lt
    rw [ofDatum, ofRatio, FloatFormat.roundRatio_eq hlt hvalue,
      exact_of_lt _ (by rwa [magnitude_ofMagnitude hbits]), multiple, magnitude_ofMagnitude hbits,
      negative_ofMagnitude hbits, hvalue]
    cases negative <;> simp

theorem exact_infinity (negative : Bool) : (infinity negative : FloatWord f).datum.exact = .infinite negative := by
  have hinfinite : (infinity negative : FloatWord f).isInfinite = true := by
    rw [isInfinite, infinity, magnitude_ofMagnitude infinityBits_lt, beq_self_eq_true]
  rw [exact_of_isInfinite _ hinfinite, infinity, negative_ofMagnitude infinityBits_lt]

end FloatWord

/-! ## Sums and products -/

namespace Datum

theorem signed_natAbs (z : Int) (b : Bool) :
    ((if (if z = 0 then b else decide (z < 0)) = true then -1 else 1) * (z.natAbs : ℚ)) = z := by
  rcases lt_trichotomy z 0 with hz | rfl | hz
  · rw [if_neg (Int.ne_of_lt hz), if_pos (decide_eq_true hz), Nat.cast_natAbs, abs_of_neg hz]
    push_cast
    ring
  · simp
  · rw [if_neg (Int.ne_of_gt hz), decide_eq_false (Int.not_lt.mpr (Int.le_of_lt hz)), if_neg Bool.false_ne_true,
      Nat.cast_natAbs, abs_of_pos hz, one_mul]

theorem signedUnits_mul (s : Bool) (m : Nat) {low : Int} (h : low ≤ e) :
    (signedUnits s m (e - low).toNat : ℚ) * 2 ^ low = (if s then -1 else 1) * (m * 2 ^ e) := by
  obtain ⟨k, rfl⟩ := Int.le.dest h
  have hsub : (low + k - low).toNat = k := by omega
  rw [signedUnits, Nat.shiftLeft_eq, zpow_add₀ (by decide)]
  cases s <;> push_cast <;> simp <;> ring

variable {d d' : Datum} {q q' : ℚ}

theorem exact_add (h : d.exact = .number q) (h' : d'.exact = .number q') : (d.add d').exact = .number (q + q') := by
  cases d with
  | nan => cases h
  | infinite s => cases h
  | finite s m e =>
    cases d' with
    | nan => cases h'
    | infinite s => cases h'
    | finite t n e' =>
      obtain rfl := ExactValue.number.inj h
      obtain rfl := ExactValue.number.inj h'
      simp only [add, exact]
      rw [← mul_assoc, signed_natAbs]
      push_cast
      rw [add_mul, signedUnits_mul s m (Int.min_le_left e e'), signedUnits_mul t n (Int.min_le_right e e')]

theorem exact_mul (h : d.exact = .number q) (h' : d'.exact = .number q') : (d.mul d').exact = .number (q * q') := by
  cases d with
  | nan => cases h
  | infinite s => cases h
  | finite s m e =>
    cases d' with
    | nan => cases h'
    | infinite s => cases h'
    | finite t n e' =>
      obtain rfl := ExactValue.number.inj h
      obtain rfl := ExactValue.number.inj h'
      simp only [mul, exact]
      rw [zpow_add₀ (by decide)]
      cases s <;> cases t <;> push_cast <;> simp <;> ring

end Datum

namespace FloatWord

variable {f g : FloatFormat} {x y : FloatWord f} {q q' : ℚ}

theorem exact_add (hx : x.datum.exact = .number q) (hy : y.datum.exact = .number q') (h : f.Represents (q + q')) :
    (x.add y).datum.exact = .number (q + q') := exact_ofDatum (Datum.exact_add hx hy) h

theorem exact_mul (hx : x.datum.exact = .number q) (hy : y.datum.exact = .number q') (h : f.Represents (q * q')) :
    (x.mul y).datum.exact = .number (q * q') := exact_ofDatum (Datum.exact_mul hx hy) h

theorem exact_ofInt {n : Int} (h : f.Represents n) : (ofInt n : FloatWord f).datum.exact = .number n := by
  have hdatum : (Datum.finite (decide (n < 0)) n.natAbs 0).exact = .number n := by
    have hsign := Datum.signed_natAbs n false
    rw [Datum.exact, zpow_zero, mul_one]
    by_cases hn : n = 0
    · simp [hn]
    · rw [if_neg hn] at hsign
      rw [hsign]
  exact exact_ofDatum hdatum h

end FloatWord

/-! ## Whole numbers -/

variable {f : FloatFormat} {k : Nat}

namespace FloatFormat

variable {n : Int}

theorem represents_intCast (hexponent : f.leastExponent = -k) (h : n.natAbs < 2 * f.exponentWeight)
    (hinfinity : 2 * f.exponentWeight * 2 ^ k ≤ f.units f.infinityBits) : f.Represents n := by
  have habs : |(n : ℚ)| = (n.natAbs : ℚ) * 2 ^ (0 : Int) := by
    rw [zpow_zero, mul_one, Nat.cast_natAbs]
    push_cast
    rfl
  refine represents_of_eq habs h (by omega) ?_
  have hlt : (n.natAbs * 2 ^ k : ℚ) < f.units f.infinityBits := by
    exact_mod_cast Nat.lt_of_lt_of_le (Nat.mul_lt_mul_of_pos_right h (Nat.two_pow_pos k)) hinfinity
  rwa [habs, zpow_zero, mul_one, hexponent, zpow_neg, zpow_natCast, lt_mul_inv_iff₀ (by positivity)]

theorem double_represents (h : n.natAbs < 2 ^ 53) : double.Represents n :=
  represents_intCast (k := 1074) (by decide) h (by decide +kernel)

theorem single_represents (h : n.natAbs < 2 ^ 24) : single.Represents n :=
  represents_intCast (k := 149) (by decide) h (by decide +kernel)

theorem exists_intCast (hexponent : f.leastExponent = -k) (h : f.Represents q) (hq : 2 * f.exponentWeight ≤ |q|) :
    ∃ n : Int, q = n := by
  obtain ⟨magnitude, -, habs⟩ := h
  obtain ⟨place, m, hlt, hnormal, rfl⟩ := f.exists_place magnitude
  rw [units_place (Nat.le_of_lt hlt) hnormal, hexponent, zpow_neg, zpow_natCast] at habs
  have hle : k ≤ place := by
    by_contra hless
    have hpow' : 2 ^ (place) ≤ 2 ^ k := Nat.pow_le_pow_right (by decide) (by omega)
    have hbound : m * 2 ^ (place) < 2 * f.exponentWeight * 2 ^ k :=
      Nat.mul_lt_mul_of_lt_of_le hlt hpow' (Nat.two_pow_pos k)
    rw [habs, le_mul_inv_iff₀ (by positivity)] at hq
    exact absurd hbound (not_lt.mpr (by exact_mod_cast hq))
  have hwhole : |q| = ((m * 2 ^ (place - k) : Nat) : ℚ) := by
    rw [habs]
    obtain ⟨j, hj⟩ := Nat.le.dest hle
    rw [← hj, Nat.add_sub_cancel_left, Nat.pow_add]
    push_cast
    field_simp
  rcases abs_choice q with hsign | hsign
  · exact ⟨(m * 2 ^ (place - k) : Nat), by rw [← hsign, hwhole]; rfl⟩
  · refine ⟨-(m * 2 ^ (place - k) : Nat), ?_⟩
    rw [Int.cast_neg, eq_comm, neg_eq_iff_eq_neg, ← hsign, hwhole]
    rfl

theorem roundRatio_lt {n : Nat} (h : n < 2 ^ 63) : double.roundRatio n 1 0 < double.infinityBits := by
  obtain ⟨m, hbetween, -, hround⟩ := double.exists_nearest n 0
  have hvalue : double.valueOf (1086 * 2 ^ 52) = 2 ^ 63 := by
    have hunits : double.units (1086 * 2 ^ 52) = 2 ^ 63 * 2 ^ 1074 := by decide +kernel
    have hleast : double.leastExponent = -(1074 : Nat) := by decide
    rw [valueOf, hunits, hleast, Nat.cast_mul, Nat.cast_pow 2 1074, zpow_neg, zpow_natCast, Nat.cast_ofNat, mul_assoc,
      mul_inv_cancel₀ (pow_ne_zero _ two_ne_zero), mul_one, Nat.cast_pow, Nat.cast_ofNat]
  have hm : m ≤ 1086 * 2 ^ 52 := by
    apply hbetween.le_of_le
    rw [hvalue, zpow_zero, mul_one]
    exact_mod_cast Nat.le_of_lt h
  rw [hround]
  exact Nat.lt_of_le_of_lt (Nat.le_trans (Nat.min_le_left _ _) hm) (by decide)

end FloatFormat

namespace FloatWord

theorem exists_exact_ofInt {n : Int} (h : n.natAbs < 2 ^ 63) : ∃ q, (ofInt n : Double).datum.exact = .number q := by
  have hlt := FloatFormat.roundRatio_lt h
  refine ⟨_, exact_of_lt _ ?_⟩
  rwa [ofInt, ofRatio, magnitude_ofMagnitude (Nat.lt_trans hlt infinityBits_lt)]

end FloatWord

theorem Datum.isWhole_of_exact {d : Datum} {n : Int} (h : d.exact = .number n) : d.isWhole = true := by
  cases d with
  | nan => cases h
  | infinite negative => cases h
  | finite negative m e =>
    rw [isWhole, Bool.or_eq_true, decide_eq_true_eq, beq_iff_eq]
    refine or_iff_not_imp_left.mpr fun he => ?_
    obtain ⟨k, hk⟩ := Int.eq_ofNat_of_zero_le (show 0 ≤ -e by omega)
    have hvalue : ((if negative then -1 else 1) * (m * 2 ^ e) : ℚ) = n := ExactValue.number.inj h
    rw [show e = -(k : Int) by omega] at hvalue
    have hdvd : (2 ^ k : Int) ∣ m := by
      refine ⟨(if negative then -1 else 1) * n, ?_⟩
      have hcast : (m : ℚ) = 2 ^ k * ((if negative then -1 else 1) * n) := by
        rw [← hvalue]
        cases negative <;> field_simp <;> simp
      exact_mod_cast hcast
    rw [hk]
    exact Nat.mod_eq_zero_of_dvd (by exact_mod_cast hdvd)

/-! ## Wider formats -/

/-- A wider format has at least as many bits in the fraction, and at least the numbers on both ends. -/
structure FloatFormat.Widens (f g : FloatFormat) : Prop where
  fractionBits_pos : 0 < f.fractionBits
  fractionBits : f.fractionBits ≤ g.fractionBits
  leastExponent : g.leastExponent ≤ f.leastExponent
  infinity : f.units f.infinityBits * 2 ^ (f.leastExponent - g.leastExponent).toNat ≤ g.units g.infinityBits

namespace FloatWord

variable {f g : FloatFormat} {x : FloatWord f} {q : ℚ}

theorem abs_multiple (x : FloatWord f) : |(x.multiple : ℚ)| = f.units x.magnitude := by
  unfold multiple
  split <;> simp

theorem abs_exact (h : x.datum.exact = .number q) : x.magnitude < f.infinityBits ∧ |q| = f.valueOf x.magnitude := by
  rcases x.word_cases with hlt | hinfinite | hnan
  · rw [exact_of_lt x hlt] at h
    obtain rfl := ExactValue.number.inj h
    exact ⟨hlt, by rw [abs_mul, abs_multiple, abs_of_pos (zpow_pos (by decide) _)]; rfl⟩
  · rw [exact_of_isInfinite x hinfinite] at h
    cases h
  · rw [exact_of_isNaN x hnan] at h
    cases h

theorem represents_of_exact (h : x.datum.exact = .number q) : f.Represents q := ⟨x.magnitude, abs_exact h⟩

theorem represents_of_widens (h : f.Widens g) (hq : f.Represents q) : g.Represents q := by
  obtain ⟨magnitude, hlt, habs⟩ := hq
  have hbound : |q| < g.units g.infinityBits * 2 ^ g.leastExponent := by
    obtain ⟨k, hk⟩ := Int.le.dest h.leastExponent
    have hinfinity := h.infinity
    have hsub : (f.leastExponent - g.leastExponent).toNat = k := by omega
    have hunits : (f.units magnitude * 2 ^ k : ℚ) < g.units g.infinityBits := by
      rw [hsub] at hinfinity
      exact_mod_cast Nat.lt_of_lt_of_le
        (Nat.mul_lt_mul_of_pos_right (f.units_strictMono hlt) (Nat.two_pow_pos k)) hinfinity
    rw [habs, ← hk, add_comm, zpow_add₀ (by decide), ← mul_assoc]
    exact mul_lt_mul_of_pos_right hunits (zpow_pos (by decide) _)
  obtain ⟨place, significand, hless, hnormal, rfl⟩ := f.exists_place magnitude
  have hweight : f.exponentWeight ≤ g.exponentWeight := Nat.pow_le_pow_right (by decide) h.fractionBits
  have hexponent := h.leastExponent
  exact FloatFormat.represents_of_eq (habs.trans (FloatFormat.valueOf_place (Nat.le_of_lt hless) hnormal)) (by omega)
    (by omega) hbound

theorem isNaN_convert (hg : 0 < g.fractionBits) (h : x.isNaN = true) : (x.convert : FloatWord g).isNaN = true := by
  -- the bits of infinity, the quiet bit and the kept part of the fraction
  have hquiet : g.nanBits < g.signWeight := by
    have hhalf : pow2 (g.fractionBits - 1) < g.exponentWeight := Nat.pow_lt_pow_right (by decide) (by omega)
    rw [signWeight_eq, FloatFormat.nanBits, FloatFormat.infinityBits, Nat.succ_mul]
    omega
  have hpart : ((x.magnitude % f.exponentWeight) <<< g.fractionBits) >>> f.fractionBits < g.signWeight := by
    have hfraction : x.magnitude % f.exponentWeight < 2 ^ f.fractionBits := Nat.mod_lt _ f.exponentWeight_pos
    have hlt : ((x.magnitude % f.exponentWeight) <<< g.fractionBits) >>> f.fractionBits < 2 ^ g.fractionBits := by
      rw [Nat.shiftLeft_eq, Nat.shiftRight_eq_div_pow]
      exact Nat.div_lt_of_lt_mul (Nat.mul_lt_mul_of_pos_right hfraction (Nat.two_pow_pos _))
    exact Nat.lt_of_lt_of_le hlt (Nat.pow_le_pow_right (by decide) (by omega))
  have hbits := Nat.or_lt_two_pow hquiet hpart
  have hle : g.nanBits ≤ g.nanBits ||| ((x.magnitude % f.exponentWeight) <<< g.fractionBits) >>> f.fractionBits :=
    Nat.left_le_or
  have hpos : 0 < pow2 (g.fractionBits - 1) := Nat.two_pow_pos _
  rw [convert, if_pos h, isNaN, magnitude_ofMagnitude hbits, decide_eq_true_eq]
  rw [FloatFormat.nanBits] at hle ⊢
  omega

theorem exact_convert_of_represents (hx : x.datum.exact = .number q) (hq : g.Represents q) :
    (x.convert : FloatWord g).datum.exact = .number q := by
  have hnan : ¬ x.isNaN = true := by
    intro hnan
    rw [exact_of_isNaN x hnan] at hx
    cases hx
  rw [convert, if_neg hnan]
  exact exact_ofDatum hx hq

theorem exact_convert (h : f.Widens g) (x : FloatWord f) : (x.convert : FloatWord g).datum.exact = x.datum.exact := by
  rcases x.word_cases with hlt | hinfinite | hnan
  · have hexact := exact_of_lt x hlt
    rw [hexact]
    exact exact_convert_of_represents hexact (represents_of_widens h (represents_of_exact hexact))
  · have hdatum : x.datum = .infinite x.negative := by
      have hexact := exact_of_isInfinite x hinfinite
      cases hx : x.datum with
      | infinite negative =>
        rw [hx] at hexact
        rw [ExactValue.infinite.inj hexact]
      | nan | finite negative m e =>
        rw [hx] at hexact
        cases hexact
    rw [convert, if_neg (by rw [not_isNaN_of_isInfinite hinfinite]; exact Bool.false_ne_true), hdatum]
    exact exact_infinity x.negative
  · rw [exact_of_isNaN x hnan, exact_of_isNaN _ (isNaN_convert (Nat.lt_of_lt_of_le h.fractionBits_pos h.fractionBits) hnan)]

end FloatWord

theorem half_widens_single : FloatFormat.half.Widens .single := ⟨by decide, by decide, by decide, by decide +kernel⟩

theorem single_widens_double : FloatFormat.single.Widens .double := ⟨by decide, by decide, by decide, by decide +kernel⟩

/-! ## Longer fractions -/

theorem FloatFormat.units_mul {g : FloatFormat} (h : g.fractionBits = f.fractionBits + k) (magnitude : Nat) :
    g.units (magnitude * 2 ^ k) = f.units magnitude * 2 ^ k := by
  have hweight : g.exponentWeight = f.exponentWeight * 2 ^ k := by
    show 2 ^ g.fractionBits = 2 ^ f.fractionBits * 2 ^ k
    rw [h, Nat.pow_add]
  have hpos := Nat.two_pow_pos k
  unfold units
  rw [hweight, Nat.mul_div_mul_right _ _ hpos, Nat.mul_mod_mul_right]
  simp only
  split <;> ring

theorem BFloat.exact_toSingle (x : BFloat) : x.toSingle.datum.exact = x.datum.exact := by
  have hlt : x.bits.toNat < 2 ^ 16 := x.bits.isLt
  -- the word is the upper half of the wider one, so every weight grows by the same factor
  have hbits : x.toSingle.bits.toNat = x.bits.toNat * 2 ^ 16 := by
    rw [BFloat.toSingle, BitVec.toNat_ofNat]
    exact Nat.mod_eq_of_lt (Nat.mul_lt_mul_of_pos_right hlt (Nat.two_pow_pos 16))
  have hsign : FloatFormat.single.signWeight = FloatFormat.bfloat.signWeight * 2 ^ 16 := by decide
  have hmagnitude : x.toSingle.magnitude = x.magnitude * 2 ^ 16 := by
    rw [FloatWord.magnitude, hbits, hsign, Nat.mul_mod_mul_right, FloatWord.magnitude]
  have hnegative : x.toSingle.negative = x.negative := by
    rw [FloatWord.negative, FloatWord.negative, hbits, hsign, decide_eq_decide]
    exact Nat.mul_le_mul_right_iff (Nat.two_pow_pos 16)
  have hinfinity : FloatFormat.single.infinityBits = FloatFormat.bfloat.infinityBits * 2 ^ 16 := by decide
  rcases x.word_cases with hnumber | hinfinite | hnan
  · have hnumber' : x.toSingle.magnitude < FloatFormat.single.infinityBits := by
      rw [hmagnitude, hinfinity]
      exact Nat.mul_lt_mul_of_pos_right hnumber (Nat.two_pow_pos 16)
    have hexponent : FloatFormat.bfloat.leastExponent = (16 : Nat) + FloatFormat.single.leastExponent := by decide
    rw [x.exact_of_lt hnumber, FloatWord.exact_of_lt _ hnumber', FloatWord.multiple, FloatWord.multiple, hnegative, hmagnitude,
      FloatFormat.units_mul (f := .bfloat) rfl, hexponent, zpow_add₀ (by decide)]
    split <;> push_cast <;> ring_nf
  · have hinfinite' : x.toSingle.isInfinite = true := by
      rw [FloatWord.isInfinite, hmagnitude, hinfinity, beq_iff_eq.mp hinfinite, beq_self_eq_true]
    rw [x.exact_of_isInfinite hinfinite, FloatWord.exact_of_isInfinite _ hinfinite', hnegative]
  · have hnan' : x.toSingle.isNaN = true := by
      rw [FloatWord.isNaN, hmagnitude, hinfinity, decide_eq_true_eq]
      exact Nat.mul_lt_mul_of_pos_right (of_decide_eq_true hnan) (Nat.two_pow_pos 16)
    rw [x.exact_of_isNaN hnan, FloatWord.exact_of_isNaN _ hnan']

end LazyTensor
