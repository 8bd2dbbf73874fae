import LazyTensor.Proofs.Number.Order

/-!
# Nearest bits

Rounding takes a number to the nearest one of a format, and on a tie to the one whose last bit is zero.
`FloatFormat.Nearest` says so of the bits below the sign: the number lies between the points half way to the bits before
and after. These points are all that matters, so rounding does not pass a number of the format (`Between.le_of_le`).
-/

namespace LazyTensor

theorem ratioLog2_one {n : Nat} (hn : n ≠ 0) : ratioLog2 n 1 = n.log2 := by
  have hlog : Nat.log2 1 = 0 := by decide
  have hle : 1 <<< n.log2 ≤ n := by
    rw [Nat.one_shiftLeft]
    exact Nat.log2_self_le hn
  simp only [ratioLog2, hlog, Int.natCast_zero, Int.sub_zero, Int.toNat_neg_natCast]
  exact if_pos hle

theorem zpow_le_of_log2 {n : Nat} (hn : n ≠ 0) (e : Int) : (2 : ℚ) ^ (e + n.log2) ≤ n * 2 ^ e := by
  have hle : ((2 ^ n.log2 : Nat) : ℚ) ≤ n := by exact_mod_cast Nat.log2_self_le hn
  rw [zpow_add₀ (by decide), mul_comm]
  push_cast at hle
  exact mul_le_mul_of_nonneg_right hle (zpow_nonneg (by decide) e)

theorem lt_zpow_of_log2 (n : Nat) (e : Int) : (n * 2 ^ e : ℚ) < 2 ^ (e + n.log2 + 1) := by
  have hlt : (n : ℚ) < ((2 ^ (n.log2 + 1) : Nat) : ℚ) := by exact_mod_cast Nat.lt_log2_self
  have hexponent : e + n.log2 + 1 = ((n.log2 + 1 : Nat) : Int) + e := by omega
  rw [hexponent, zpow_add₀ (by decide)]
  push_cast at hlt
  exact mul_lt_mul_of_pos_right hlt (zpow_pos (by decide) e)

/-! ## Whole numbers -/

variable {d : Nat}

theorem nearestEven_spec (n : Nat) (hd : 0 < d) :
    2 * n ≤ 2 * (nearestEven n d * d) + d ∧ 2 * (nearestEven n d * d) ≤ 2 * n + d ∧
      (2 * n = 2 * (nearestEven n d * d) + d ∨ 2 * (nearestEven n d * d) = 2 * n + d → nearestEven n d % 2 = 0) := by
  have hparts : n / d * d + n % d = n := Nat.div_add_mod' n d
  have hless : n % d < d := Nat.mod_lt n hd
  have hsucc : (n / d + 1) * d = n / d * d + d := Nat.succ_mul _ _
  simp only [nearestEven]
  split
  · exact ⟨by omega, by omega, by omega⟩
  · split
    · rw [hsucc]
      exact ⟨by omega, by omega, by omega⟩
    · -- a tie: the quotient or its successor, whichever is even
      rcases Nat.mod_two_eq_zero_or_one (n / d) with heven | hodd
      · rw [heven, Nat.add_zero]
        exact ⟨by omega, by omega, fun _ => heven⟩
      · rw [hodd]
        exact ⟨by omega, by omega, by omega⟩

theorem nearestEven_div (n : Nat) (hd : 0 < d) :
    2 * (n / d : ℚ) ≤ 2 * nearestEven n d + 1 ∧ 2 * nearestEven n d ≤ 2 * (n / d : ℚ) + 1 ∧
      (2 * (n / d : ℚ) = 2 * nearestEven n d + 1 ∨ 2 * nearestEven n d = 2 * (n / d : ℚ) + 1 →
        nearestEven n d % 2 = 0) := by
  obtain ⟨hupper, hlower, heven⟩ := nearestEven_spec n hd
  have hdpos : (0 : ℚ) < d := by exact_mod_cast hd
  have hupper' : (2 * n : ℚ) ≤ 2 * (nearestEven n d * d) + d := by exact_mod_cast hupper
  have hlower' : (2 * (nearestEven n d * d) : ℚ) ≤ 2 * n + d := by exact_mod_cast hlower
  have hquotient : (n : ℚ) = n / d * d := (div_mul_cancel₀ _ (ne_of_gt hdpos)).symm
  refine ⟨?_, ?_, fun htie => heven ?_⟩
  · refine le_of_mul_le_mul_right ?_ hdpos
    linarith
  · refine le_of_mul_le_mul_right ?_ hdpos
    linarith
  · refine htie.imp (fun h => ?_) fun h => ?_
    · have hcast : (2 * n : ℚ) = 2 * (nearestEven n d * d) + d := by
        rw [hquotient, ← mul_assoc, h]
        ring
      exact_mod_cast hcast
    · have hcast : (2 * (nearestEven n d * d) : ℚ) = 2 * n + d := by
        rw [hquotient, ← mul_assoc, h]
        ring
      exact_mod_cast hcast

namespace FloatFormat

variable (f : FloatFormat) {k m : Nat}

/-! ## Consecutive numbers -/

/-- The number that the bits below the sign stand for, as if the exponent had no end. -/
def valueOf (magnitude : Nat) : ℚ := f.units magnitude * 2 ^ f.leastExponent

theorem valueOf_strictMono : StrictMono f.valueOf := by
  intro k m hlt
  apply mul_lt_mul_of_pos_right _ (zpow_pos (by decide) _)
  exact_mod_cast f.units_strictMono hlt

theorem valueOf_nonneg (magnitude : Nat) : 0 ≤ f.valueOf magnitude :=
  mul_nonneg (Nat.cast_nonneg _) (zpow_nonneg (by decide) _)

theorem valueOf_zero : f.valueOf 0 = 0 := by
  rw [valueOf, f.units_zero, Nat.cast_zero, zero_mul]

/-- The number half way to the next one. -/
def halfway (magnitude : Nat) : ℚ := (f.valueOf magnitude + f.valueOf (magnitude + 1)) / 2

theorem valueOf_lt_halfway (magnitude : Nat) : f.valueOf magnitude < f.halfway magnitude := by
  have hlt := f.valueOf_strictMono (Nat.lt_succ_self magnitude)
  rw [halfway]
  linarith

theorem halfway_lt_valueOf (h : k < m) : f.halfway k < f.valueOf m := by
  have hlt := f.valueOf_strictMono (Nat.lt_succ_self k)
  have hle := f.valueOf_strictMono.monotone h
  rw [halfway]
  linarith

theorem halfway_strictMono : StrictMono f.halfway := fun _ m h =>
  lt_trans (f.halfway_lt_valueOf h) (f.valueOf_lt_halfway m)

variable {f} {significand place : Nat}

/-- A significand and its place. It may be full, which is the first significand of the next place. -/
theorem units_place (hle : significand ≤ 2 * f.exponentWeight) (hnormal : place = 0 ∨ f.exponentWeight ≤ significand) :
    f.units (place * f.exponentWeight + significand) = significand * 2 ^ place := by
  have hpos := f.exponentWeight_pos
  rcases Nat.lt_or_ge significand f.exponentWeight with hless | hmore
  · obtain rfl : place = 0 := by omega
    rw [f.units_add hless]
    simp
  · rcases Nat.lt_or_eq_of_le hle with hlt | rfl
    · have hbits : place * f.exponentWeight + significand =
          (place + 1) * f.exponentWeight + (significand - f.exponentWeight) := by
        rw [Nat.succ_mul]
        omega
      rw [hbits, f.units_add (by omega), if_neg (Nat.succ_ne_zero place), Nat.add_sub_cancel, Nat.add_sub_cancel' hmore]
    · have hbits : place * f.exponentWeight + 2 * f.exponentWeight = (place + 2) * f.exponentWeight + 0 := by ring
      rw [hbits, f.units_add hpos, if_neg (by omega), show place + 2 - 1 = place + 1 from rfl]
      ring

theorem exists_place (magnitude : Nat) :
    ∃ place significand, significand < 2 * f.exponentWeight ∧ (place = 0 ∨ f.exponentWeight ≤ significand) ∧
      magnitude = place * f.exponentWeight + significand := by
  obtain ⟨field, fraction, hfraction, rfl⟩ := f.exists_fields magnitude
  cases field with
  | zero => exact ⟨0, fraction, by omega, .inl rfl, rfl⟩
  | succ place => exact ⟨place, f.exponentWeight + fraction, by omega, .inr (by omega), by rw [Nat.succ_mul]; omega⟩

/-! ## Nearest bits -/

/-- The bits of a number nearest to another one. -/
structure Between (f : FloatFormat) (q : ℚ) (magnitude : Nat) : Prop where
  le_halfway : q ≤ f.halfway magnitude
  halfway_le : ∀ k, magnitude = k + 1 → f.halfway k ≤ q

/-- The bits of the number nearest to another one, and even on a tie. -/
structure Nearest (f : FloatFormat) (q : ℚ) (magnitude : Nat) : Prop where
  le_halfway : q ≤ f.halfway magnitude
  halfway_le : ∀ k, magnitude = k + 1 → f.halfway k ≤ q
  even : q = f.halfway magnitude ∨ (∃ k, magnitude = k + 1 ∧ q = f.halfway k) → magnitude % 2 = 0

variable {q : ℚ} {magnitude : Nat}

theorem Nearest.between (h : f.Nearest q magnitude) : f.Between q magnitude := ⟨h.le_halfway, h.halfway_le⟩

namespace Between

theorem le_of_le (h : f.Between q magnitude) (hle : q ≤ f.valueOf m) : magnitude ≤ m := by
  by_contra hlt
  obtain ⟨k, rfl⟩ : ∃ k, magnitude = k + 1 := ⟨magnitude - 1, by omega⟩
  have hhalf := h.halfway_le k rfl
  have hmono := f.valueOf_strictMono.monotone (show m ≤ k by omega)
  linarith [f.valueOf_lt_halfway k]

theorem ge_of_ge (h : f.Between q magnitude) (hle : f.valueOf m ≤ q) : m ≤ magnitude := by
  by_contra hlt
  linarith [h.le_halfway, f.halfway_lt_valueOf (show magnitude < m by omega)]

end Between

theorem valueOf_place (hle : significand ≤ 2 * f.exponentWeight)
    (hnormal : place = 0 ∨ f.exponentWeight ≤ significand) :
    f.valueOf (place * f.exponentWeight + significand) = significand * 2 ^ (f.leastExponent + place) := by
  rw [valueOf, units_place hle hnormal, zpow_add₀ (by decide), zpow_natCast]
  push_cast
  ring

theorem halfway_place (hlt : significand < 2 * f.exponentWeight)
    (hnormal : place = 0 ∨ f.exponentWeight ≤ significand) :
    f.halfway (place * f.exponentWeight + significand) =
      (2 * significand + 1) / 2 * 2 ^ (f.leastExponent + place) := by
  rw [halfway, valueOf_place (Nat.le_of_lt hlt) hnormal, Nat.add_assoc,
    valueOf_place hlt (hnormal.imp_right Nat.le_succ_of_le)]
  push_cast
  ring

theorem mod_two_place (hfraction : 0 < f.fractionBits) (place significand : Nat) :
    (place * f.exponentWeight + significand) % 2 = significand % 2 := by
  obtain ⟨bits, hbits⟩ : ∃ bits, f.fractionBits = bits + 1 := ⟨f.fractionBits - 1, by omega⟩
  have hweight : f.exponentWeight = 2 * 2 ^ bits := by
    show 2 ^ f.fractionBits = _
    rw [hbits, Nat.pow_succ']
  rw [hweight, Nat.mul_left_comm, Nat.mul_add_mod]

section Significand

variable {x : ℚ}

/-- A full significand is the first of the next place, but then the number is below it. -/
theorem lt_halfway_or_eq (hless : x < 2 * f.exponentWeight) (hle : significand ≤ 2 * f.exponentWeight)
    (hnormal : place = 0 ∨ f.exponentWeight ≤ significand) :
    x * 2 ^ (f.leastExponent + place) < f.halfway (place * f.exponentWeight + significand) ∨
      f.halfway (place * f.exponentWeight + significand) =
        (2 * significand + 1) / 2 * 2 ^ (f.leastExponent + place) := by
  rcases Nat.lt_or_eq_of_le hle with hlt | heq
  · exact .inr (halfway_place hlt hnormal)
  · left
    apply lt_trans _ (f.valueOf_lt_halfway _)
    rw [valueOf_place hle hnormal, heq]
    exact mul_lt_mul_of_pos_right (by exact_mod_cast hless) (zpow_pos (by decide) _)

/-- The least significand of a place comes after a number that is nearer to it, but then the number is not below it. -/
theorem halfway_lt_or_eq (hx : place = 0 ∨ f.exponentWeight ≤ x) (hle : significand ≤ 2 * f.exponentWeight)
    (hnormal : place = 0 ∨ f.exponentWeight ≤ significand) (hk : place * f.exponentWeight + significand = k + 1) :
    f.halfway k < x * 2 ^ (f.leastExponent + place) ∨
      f.halfway k = (2 * significand - 1) / 2 * 2 ^ (f.leastExponent + place) := by
  have hpos := f.exponentWeight_pos
  by_cases hleast : place ≠ 0 ∧ significand = f.exponentWeight
  · left
    apply lt_of_lt_of_le (f.halfway_lt_valueOf (Nat.lt_succ_self k))
    rw [Nat.succ_eq_add_one, ← hk, valueOf_place hle hnormal, hleast.2]
    exact mul_le_mul_of_nonneg_right (hx.resolve_left hleast.1) (zpow_nonneg (by decide) _)
  · right
    obtain ⟨before, rfl⟩ : ∃ before, significand = before + 1 := by
      cases significand with
      | zero =>
        rcases hnormal with rfl | hweight
        · omega
        · omega
      | succ before => exact ⟨before, rfl⟩
    obtain rfl : k = place * f.exponentWeight + before := by omega
    rw [halfway_place (by omega) (by omega)]
    push_cast
    ring

/-- A whole significand nearest to `x` gives the nearest bits, for a number of that place. -/
theorem nearest_of_significand (hless : x < 2 * f.exponentWeight) (hnormal : place = 0 ∨ f.exponentWeight ≤ x)
    (hupper : 2 * x ≤ 2 * significand + 1) (hlower : 2 * significand ≤ 2 * x + 1)
    (heven : 2 * x = 2 * significand + 1 ∨ 2 * significand = 2 * x + 1 → significand % 2 = 0) :
    f.Between (x * 2 ^ (f.leastExponent + place)) (place * f.exponentWeight + significand) ∧
      (0 < f.fractionBits →
        f.Nearest (x * 2 ^ (f.leastExponent + place)) (place * f.exponentWeight + significand)) := by
  have hunit : (0 : ℚ) < 2 ^ (f.leastExponent + place) := zpow_pos (by decide) _
  have hfull : significand ≤ 2 * f.exponentWeight := by
    have hlt : (2 * significand : ℚ) < 4 * f.exponentWeight + 1 := by linarith
    have hlt' : 2 * significand < 4 * f.exponentWeight + 1 := by exact_mod_cast hlt
    omega
  have hnormal' : place = 0 ∨ f.exponentWeight ≤ significand := by
    refine hnormal.imp_right fun hx => ?_
    have hle : (2 * f.exponentWeight : ℚ) ≤ 2 * significand + 1 := by linarith
    have hle' : 2 * f.exponentWeight ≤ 2 * significand + 1 := by exact_mod_cast hle
    omega
  have habove := lt_halfway_or_eq hless hfull hnormal'
  have hbelow : ∀ k, place * f.exponentWeight + significand = k + 1 → _ := fun k hk =>
    halfway_lt_or_eq hnormal hfull hnormal' hk
  have hbetween : f.Between (x * 2 ^ (f.leastExponent + place)) (place * f.exponentWeight + significand) := by
    refine ⟨?_, fun k hk => ?_⟩
    · rcases habove with hlt | heq
      · exact le_of_lt hlt
      · rw [heq]
        exact mul_le_mul_of_nonneg_right (by linarith) (le_of_lt hunit)
    · rcases hbelow k hk with hlt | heq
      · exact le_of_lt hlt
      · rw [heq]
        exact mul_le_mul_of_nonneg_right (by linarith) (le_of_lt hunit)
  refine ⟨hbetween, fun hfraction => ⟨hbetween.le_halfway, hbetween.halfway_le, fun htie => ?_⟩⟩
  · -- a tie is one of the significands, as the unit of the place is not zero
    rw [mod_two_place hfraction]
    apply heven
    rcases htie with htie | ⟨k, hk, htie⟩
    · have heq := habove.resolve_left (by rw [htie]; exact lt_irrefl _)
      have hx := mul_right_cancel₀ (ne_of_gt hunit) (htie.trans heq)
      left
      linarith
    · have heq := (hbelow k hk).resolve_left (by rw [htie]; exact lt_irrefl _)
      have hx := mul_right_cancel₀ (ne_of_gt hunit) (htie.trans heq)
      right
      linarith

end Significand

theorem shiftLeft_div_shiftLeft (n : Nat) (e p : Int) :
    ((n <<< (e - p).toNat : Nat) / (1 <<< (p - e).toNat : Nat) : ℚ) * 2 ^ p = n * 2 ^ e := by
  rw [Nat.shiftLeft_eq, Nat.one_shiftLeft]
  rcases Int.le_total e p with hle | hle
  · obtain ⟨k, rfl⟩ := Int.le.dest hle
    have hzero : (e - (e + k)).toNat = 0 := by omega
    have hsub : (e + k - e).toNat = k := by omega
    rw [hzero, hsub, zpow_add₀ (by decide), zpow_natCast]
    push_cast
    field_simp
  · obtain ⟨k, rfl⟩ := Int.le.dest hle
    have hzero : (p - (p + k)).toNat = 0 := by omega
    have hsub : (p + k - p).toNat = k := by omega
    rw [hzero, hsub, zpow_add₀ (by decide), zpow_natCast]
    push_cast
    ring

/-- What `roundRatio` gives is nearest, unless it is infinite. It is even on a tie if there is a fraction. -/
theorem exists_nearest (f : FloatFormat) (n : Nat) (e : Int) :
    ∃ magnitude, f.Between (n * 2 ^ e) magnitude ∧ (0 < f.fractionBits → f.Nearest (n * 2 ^ e) magnitude) ∧
      f.roundRatio n 1 e = min magnitude f.infinityBits := by
  by_cases hn : n = 0
  · have hnearest : f.Nearest (n * 2 ^ e) 0 := by
      refine ⟨?_, fun k hk => by omega, fun _ => rfl⟩
      rw [hn, Nat.cast_zero, zero_mul]
      exact le_of_lt (lt_of_le_of_lt (f.valueOf_nonneg 0) (f.valueOf_lt_halfway 0))
    exact ⟨0, hnearest.between, fun _ => hnearest, by rw [roundRatio, if_pos hn, Nat.zero_min]⟩
  rw [roundRatio, if_neg hn, ratioLog2_one hn]
  obtain ⟨place, hplace⟩ := Int.le.dest (Int.le_max_right (e + n.log2 - f.fractionBits) f.leastExponent)
  simp only [← hplace]
  -- the number in units of its last place
  have hratio := shiftLeft_div_shiftLeft n e (f.leastExponent + place)
  have hdpos : 0 < 1 <<< (f.leastExponent + place - e).toNat := by
    rw [Nat.one_shiftLeft]
    exact Nat.two_pow_pos _
  generalize 1 <<< (f.leastExponent + place - e).toNat = d at hratio hdpos ⊢
  generalize n <<< (e - (f.leastExponent + place)).toNat = N at hratio ⊢
  have hunit : (0 : ℚ) < 2 ^ (f.leastExponent + place) := zpow_pos (by decide) _
  have hweight : ((f.exponentWeight : Nat) : ℚ) = 2 ^ (f.fractionBits : Int) := by
    exact_mod_cast rfl
  -- the place was chosen so that the significand has all bits of the format, unless it is the last place of all
  have hless : (N / d : ℚ) < 2 * f.exponentWeight := by
    have hlt := lt_of_lt_of_le (lt_zpow_of_log2 n e)
      (zpow_le_zpow_right₀ (by norm_num : (1 : ℚ) ≤ 2)
        (show e + n.log2 + 1 ≤ f.fractionBits + 1 + (f.leastExponent + place) by omega))
    rwa [← hratio, zpow_add₀ (by decide) (f.fractionBits + 1 : Int), mul_lt_mul_iff_left₀ hunit, zpow_add₀ (by decide),
      ← hweight, mul_comm] at hlt
  have hnormal : place = 0 ∨ f.exponentWeight ≤ (N / d : ℚ) := by
    refine or_iff_not_imp_left.mpr fun hpositive => ?_
    have hle := zpow_le_of_log2 hn e
    rwa [← hratio, show e + n.log2 = f.fractionBits + (f.leastExponent + place) by omega,
      zpow_add₀ (by decide) (_ : Int) (_ + _), ← hweight, mul_le_mul_iff_left₀ hunit] at hle
  obtain ⟨hupper, hlower, heven⟩ := nearestEven_div N hdpos
  have hplaces : (f.leastExponent + place - f.leastExponent).toNat = place := by omega
  rw [hplaces, ← hratio]
  obtain ⟨hbetween, hnearest⟩ := nearest_of_significand hless hnormal hupper hlower heven
  exact ⟨_, hbetween, hnearest, rfl⟩

end FloatFormat

end LazyTensor
