import LazyTensor.Proofs.Number.Exact

/-!
# Nearest words

`FloatFormat.Nearest` says of the bits below the sign that they are nearest to a number. `FloatWord.IsNearest` says the
same of words, by their distances from the number.

A number may be rounded twice, first to a wider format. If that format has all points half way between the words of the
other, the second rounding gives the nearest word, unless the first has ended on such a point and the even word is on
the wrong side of it (`Nearest.twice_iff`).
-/

namespace LazyTensor

variable {d m k : Nat} {f g : FloatFormat} {q : ℚ}

namespace FloatFormat

/-! ## Rounding twice -/

theorem exists_valueOf_eq_halfway (hfraction : f.fractionBits < g.fractionBits)
    (hexponent : g.leastExponent < f.leastExponent) (k : Nat) : ∃ m, g.valueOf m = f.halfway k := by
  obtain ⟨place, significand, hless, hnormal, rfl⟩ := f.exists_place k
  have hweight : 2 * f.exponentWeight ≤ g.exponentWeight := by
    show 2 * 2 ^ f.fractionBits ≤ 2 ^ g.fractionBits
    rw [← Nat.pow_succ']
    exact Nat.pow_le_pow_right (by decide) hfraction
  obtain ⟨shift, hshift⟩ := Int.le.dest (show g.leastExponent ≤ f.leastExponent + place - 1 by omega)
  obtain ⟨m, hm⟩ := exists_units_eq (f := g) (m := 2 * significand + 1) (by omega) shift
  refine ⟨m, ?_⟩
  have hplace : f.leastExponent + place = g.leastExponent + shift + 1 := by omega
  rw [valueOf, hm, halfway_place hless hnormal, hplace, zpow_add₀ (by decide), zpow_add₀ (by decide), zpow_natCast]
  push_cast
  ring

/-- A number of the format is not passed, so the rounding of a number below it is below it as well. -/
theorem Nearest.lt_of_valueOf_lt (h : f.Nearest q d) (hlt : f.valueOf d < f.valueOf m) : q < f.valueOf m := by
  by_contra hle
  exact absurd (f.valueOf_strictMono.monotone (h.between.ge_of_ge (not_lt.mp hle))) (not_le.mpr hlt)

theorem Nearest.lt_of_lt_valueOf (h : f.Nearest q d) (hlt : f.valueOf m < f.valueOf d) : f.valueOf m < q := by
  by_contra hle
  exact absurd (f.valueOf_strictMono.monotone (h.between.le_of_le (not_lt.mp hle))) (not_le.mpr hlt)

theorem Nearest.eq_or_eq_succ (h : f.Nearest (f.halfway k) m) : m = k ∨ m = k + 1 := by
  have hlower : k ≤ m := f.halfway_strictMono.le_iff_le.mp h.le_halfway
  cases m with
  | zero => omega
  | succ j =>
    have hupper : j ≤ k := f.halfway_strictMono.le_iff_le.mp (h.halfway_le j rfl)
    omega

/-- A number that was rounded to such a format before is rounded right, unless it came to lie half way between two
numbers and the even one is not on the side from which it came. -/
theorem Nearest.twice_iff (hhalfway : ∀ k, ∃ m, g.valueOf m = f.halfway k) (hd : g.Nearest q d)
    (hm : f.Nearest (g.valueOf d) m) :
    f.Nearest q m ↔ ∀ k, g.valueOf d = f.halfway k → if k % 2 = 0 then q ≤ g.valueOf d else g.valueOf d ≤ q := by
  -- the first rounding does not pass a point half way
  have hbelow : ∀ k, g.valueOf d < f.halfway k → q < f.halfway k := by
    intro k hlt
    obtain ⟨j, hj⟩ := hhalfway k
    rw [← hj] at hlt ⊢
    exact hd.lt_of_valueOf_lt hlt
  have habove : ∀ k, f.halfway k < g.valueOf d → f.halfway k < q := by
    intro k hlt
    obtain ⟨j, hj⟩ := hhalfway k
    rw [← hj] at hlt ⊢
    exact hd.lt_of_lt_valueOf hlt
  constructor
  · intro hq k hk
    -- a tie is broken by the even one of both neighbours, which is nearest to `q` only from its side
    rw [hk] at hm ⊢
    rcases hm.eq_or_eq_succ with rfl | rfl
    · rw [if_pos (hm.even (.inl rfl))]
      exact hq.le_halfway
    · have heven := hm.even (.inr ⟨k, rfl, rfl⟩)
      rw [if_neg (by omega)]
      exact hq.halfway_le k rfl
  · intro hties
    -- `q` is on the same side of the points around `m` as its rounding; if that is on one of them, `m` is even
    have hupper : q < f.halfway m ∨ (m % 2 = 0 ∧ q ≤ f.halfway m) := by
      rcases lt_or_eq_of_le hm.le_halfway with hlt | heq
      · exact .inl (hbelow m hlt)
      · have heven := hm.even (.inl heq)
        have hle := hties m heq
        rw [if_pos heven, heq] at hle
        exact .inr ⟨heven, hle⟩
    have hlower : ∀ k, m = k + 1 → f.halfway k < q ∨ (m % 2 = 0 ∧ f.halfway k ≤ q) := by
      intro k hk
      rcases lt_or_eq_of_le (hm.halfway_le k hk) with hlt | heq
      · exact .inl (habove k hlt)
      · have heven := hm.even (.inr ⟨k, hk, heq.symm⟩)
        have hle := hties k heq.symm
        rw [if_neg (by omega), ← heq] at hle
        exact .inr ⟨heven, hle⟩
    refine ⟨?_, fun k hk => ?_, ?_⟩
    · exact hupper.elim le_of_lt And.right
    · exact (hlower k hk).elim le_of_lt And.right
    · rintro (heq | ⟨k, hk, heq⟩)
      · exact (hupper.resolve_left (not_lt.mpr (le_of_eq heq.symm))).1
      · exact ((hlower k hk).resolve_left (not_lt.mpr (le_of_eq heq))).1

end FloatFormat

/-! ## Distances -/

theorem abs_sub_lt_abs_sub_iff {p r : ℚ} (h : p < r) (a : ℚ) : |p - a| < |r - a| ↔ 2 * a < p + r := by
  rw [← sq_lt_sq]
  constructor
  · intro hlt
    nlinarith
  · intro hlt
    nlinarith

theorem abs_sub_gt_abs_sub_iff {p r : ℚ} (h : p < r) (a : ℚ) : |r - a| < |p - a| ↔ p + r < 2 * a := by
  rw [← sq_lt_sq]
  constructor
  · intro hlt
    nlinarith
  · intro hlt
    nlinarith

theorem abs_sub_eq_abs_sub_iff {p r : ℚ} (h : p < r) (a : ℚ) : |p - a| = |r - a| ↔ 2 * a = p + r := by
  rw [abs_eq_abs]
  constructor
  · rintro (heq | heq) <;> linarith
  · intro heq
    right
    linarith

theorem abs_sub_of_mul_nonneg {v : ℚ} (h : 0 ≤ v * q) : |v - q| = |(|v| - |q|)| := by
  rcases mul_nonneg_iff.mp h with ⟨hv, hq⟩ | ⟨hv, hq⟩
  · rw [abs_of_nonneg hv, abs_of_nonneg hq]
  · rw [abs_of_nonpos hv, abs_of_nonpos hq, ← abs_neg]
    ring_nf

namespace FloatFormat

theorem Nearest.abs_sub (h : f.Nearest q m) (hne : k ≠ m) :
    |f.valueOf m - q| < |f.valueOf k - q| ∨ |f.valueOf m - q| = |f.valueOf k - q| ∧ m % 2 = 0 := by
  rcases Nat.lt_or_gt_of_ne hne with hlt | hgt
  · have hvalue := f.valueOf_strictMono hlt
    obtain ⟨j, rfl⟩ : ∃ j, m = j + 1 := ⟨m - 1, by omega⟩
    have hhalf := h.halfway_le j rfl
    have hmono := f.valueOf_strictMono.monotone (show k ≤ j by omega)
    have heven := fun heq => h.even (.inr ⟨j, rfl, heq⟩)
    rw [halfway] at hhalf heven
    rw [abs_sub_gt_abs_sub_iff hvalue, eq_comm, abs_sub_eq_abs_sub_iff hvalue]
    rcases lt_or_eq_of_le (show f.valueOf k + f.valueOf (j + 1) ≤ 2 * q by linarith) with hless | heq
    · exact .inl hless
    · exact .inr ⟨heq.symm, heven (by linarith)⟩
  · have hvalue := f.valueOf_strictMono hgt
    have hhalf := h.le_halfway
    have hmono := f.valueOf_strictMono.monotone (show m + 1 ≤ k by omega)
    have heven := fun heq => h.even (.inl heq)
    rw [halfway] at hhalf heven
    rw [abs_sub_lt_abs_sub_iff hvalue, abs_sub_eq_abs_sub_iff hvalue]
    rcases lt_or_eq_of_le (show 2 * q ≤ f.valueOf m + f.valueOf k by linarith) with hless | heq
    · exact .inl hless
    · exact .inr ⟨heq, heven (by linarith)⟩

theorem nearest_of_abs_sub {bound : Nat} (hbound : q ≤ f.valueOf bound) (h : ∀ k ≤ bound, k ≠ m →
      |f.valueOf m - q| < |f.valueOf k - q| ∨ |f.valueOf m - q| = |f.valueOf k - q| ∧ m % 2 = 0)
    (hm : m ≤ bound) : f.Nearest q m := by
  -- to be nearer than a neighbour is to be on the own side of the point halfway to it
  have hlower : ∀ {k}, k + 1 = m → f.halfway k ≤ q ∧ (q = f.halfway k → m % 2 = 0) := by
    rintro k rfl
    have hvalue := f.valueOf_strictMono (Nat.lt_succ_self k)
    have hbefore := h k (by omega) (by omega)
    rw [abs_sub_gt_abs_sub_iff hvalue, eq_comm, abs_sub_eq_abs_sub_iff hvalue] at hbefore
    rw [halfway]
    rcases hbefore with hless | ⟨heq, heven⟩
    · exact ⟨by linarith, fun heq => by linarith⟩
    · exact ⟨by linarith, fun _ => heven⟩
  have hupper : q ≤ f.halfway m ∧ (q = f.halfway m → m % 2 = 0) := by
    rcases Nat.lt_or_eq_of_le hm with hlt | rfl
    · have hvalue := f.valueOf_strictMono (Nat.lt_succ_self m)
      have hafter := h (m + 1) hlt (by omega)
      rw [abs_sub_lt_abs_sub_iff hvalue, abs_sub_eq_abs_sub_iff hvalue] at hafter
      rw [halfway]
      rcases hafter with hless | ⟨heq, heven⟩
      · exact ⟨by linarith, fun heq => by linarith⟩
      · exact ⟨by linarith, fun _ => heven⟩
    · have hlt := lt_of_le_of_lt hbound (f.valueOf_lt_halfway m)
      exact ⟨le_of_lt hlt, fun heq => absurd heq (ne_of_lt hlt)⟩
  refine ⟨hupper.1, fun k hk => (hlower hk.symm).1, ?_⟩
  rintro (heq | ⟨k, hk, heq⟩)
  · exact hupper.2 heq
  · exact (hlower hk.symm).2 heq

end FloatFormat

/-! ## Nearest words -/

namespace FloatWord

variable {x y : FloatWord f} {v : ℚ}

/-- The word is a number, and no other number of the format is nearer; if one is as near, the last bit of the word is
zero. -/
def IsNearest (x : FloatWord f) (q : ℚ) : Prop :=
  ∃ v, x.datum.exact = .number v ∧ ∀ (y : FloatWord f) (u : ℚ), y.datum.exact = .number u → u ≠ v →
    |v - q| < |u - q| ∨ |v - q| = |u - q| ∧ x.bits.toNat % 2 = 0

theorem exists_exact_of_lt (hm : m < f.infinityBits) (q : ℚ) :
    ∃ (y : FloatWord f) (u : ℚ), y.datum.exact = .number u ∧ |u| = f.valueOf m ∧ 0 ≤ u * q := by
  let y : FloatWord f := ofMagnitude (decide (q < 0)) m
  have hbits := Nat.lt_trans hm infinityBits_lt
  have hmagnitude : y.magnitude = m := magnitude_ofMagnitude hbits _
  have hexact := exact_of_lt y (by rwa [hmagnitude])
  refine ⟨y, _, hexact, ?_, ?_⟩
  · rw [(abs_exact hexact).2, hmagnitude]
  · have hvalue : (0 : ℚ) ≤ f.units m * 2 ^ f.leastExponent := f.valueOf_nonneg m
    rw [multiple, hmagnitude, show y.negative = _ from negative_ofMagnitude hbits _]
    rcases lt_or_ge q 0 with hq | hq
    · rw [decide_eq_true hq, if_pos rfl]
      push_cast
      nlinarith
    · rw [decide_eq_false (not_lt.mpr hq)]
      exact mul_nonneg (by exact_mod_cast hvalue) hq

theorem bits_mod_two (hfraction : 0 < f.fractionBits) : x.bits.toNat % 2 = x.magnitude % 2 := by
  have hdvd : 2 ∣ f.signWeight := Nat.pow_dvd_pow 2 (show 1 ≤ f.exponentBits + f.fractionBits by omega)
  rw [magnitude, Nat.mod_mod_of_dvd _ hdvd]

theorem abs_sub_exact (hx : x.datum.exact = .number v) (hsign : 0 ≤ v * q) :
    |v - q| = |(f.valueOf x.magnitude - |q|)| := by
  rw [abs_sub_of_mul_nonneg hsign, (abs_exact hx).2]

theorem IsNearest.nearest (h : x.IsNearest q) (hfraction : 0 < f.fractionBits) (hx : x.datum.exact = .number v)
    (hsign : 0 ≤ v * q) (hm : m < f.infinityBits) (hq : |q| ≤ f.valueOf m) : f.Nearest |q| x.magnitude := by
  obtain ⟨hlt, habs⟩ := abs_exact hx
  obtain ⟨v', hv', hnearest⟩ := h
  obtain rfl : v = v' := ExactValue.number.inj (hx.symm.trans hv')
  have hother : ∀ k < f.infinityBits, k ≠ x.magnitude →
      |(f.valueOf x.magnitude - |q|)| < |(f.valueOf k - |q|)| ∨
        |(f.valueOf x.magnitude - |q|)| = |(f.valueOf k - |q|)| ∧ x.magnitude % 2 = 0 := by
    intro k hk hne
    obtain ⟨y, u, hy, hu, hside⟩ := exists_exact_of_lt hk q
    have huv : u ≠ v := by
      rintro rfl
      exact hne (f.valueOf_strictMono.injective (hu.symm.trans habs))
    have h := hnearest y u hy huv
    rwa [abs_sub_exact hx hsign, abs_sub_of_mul_nonneg hside, hu, bits_mod_two hfraction] at h
  have hlast : |q| ≤ f.valueOf (f.infinityBits - 1) := le_trans hq (f.valueOf_strictMono.monotone (by omega))
  exact FloatFormat.nearest_of_abs_sub hlast (fun k hk => hother k (by omega)) (by omega)

theorem eq_zero_of_nearest_zero (hx : x.datum.exact = .number v) (h : f.Nearest 0 x.magnitude) : v = 0 := by
  have hle := h.between.le_of_le (m := 0) (by rw [f.valueOf_zero])
  have habs := (abs_exact hx).2
  rwa [Nat.le_zero.mp hle, f.valueOf_zero, abs_eq_zero] at habs

theorem abs_sub_lt_abs_neg_sub (hx : x.datum.exact = .number v) (hsign : 0 ≤ v * q) (hv : v ≠ 0)
    (hnearest : f.Nearest |q| x.magnitude) : |v - q| < |-v - q| := by
  have hq : q ≠ 0 := by
    rintro rfl
    exact hv (eq_zero_of_nearest_zero hx hnearest)
  have hpos : 0 < v * q := lt_of_le_of_ne hsign (Ne.symm (mul_ne_zero hv hq))
  rw [← sq_lt_sq]
  nlinarith

theorem isNearest_of_nearest (hfraction : 0 < f.fractionBits) (hx : x.datum.exact = .number v) (hsign : 0 ≤ v * q)
    (hnearest : f.Nearest |q| x.magnitude) : x.IsNearest q := by
  refine ⟨v, hx, fun y u hy huv => ?_⟩
  obtain ⟨-, hu⟩ := abs_exact hy
  by_cases hsame : y.magnitude = x.magnitude
  · left
    obtain rfl : u = -v := (abs_eq_abs.mp (by rw [hu, (abs_exact hx).2, hsame])).resolve_left huv
    exact abs_sub_lt_abs_neg_sub hx hsign (fun hzero => huv (by rw [hzero, neg_zero])) hnearest
  · -- on the other side of zero a word is further away than its bits are
    have hle : |(f.valueOf y.magnitude - |q|)| ≤ |u - q| := by
      rw [← hu]
      exact abs_abs_sub_abs_le u q
    rw [bits_mod_two hfraction, abs_sub_exact hx hsign]
    rcases hnearest.abs_sub hsame with hless | ⟨heq, heven⟩
    · exact .inl (lt_of_lt_of_le hless hle)
    · rw [heq]
      exact (lt_or_eq_of_le hle).imp_right fun h => ⟨h, heven⟩

/-- A word on the side of a number, which is within the range of the format, is nearest by its distance if its bits
are. -/
theorem isNearest_iff (hfraction : 0 < f.fractionBits) (hx : x.datum.exact = .number v) (hsign : 0 ≤ v * q)
    (hm : m < f.infinityBits) (hq : |q| ≤ f.valueOf m) : x.IsNearest q ↔ f.Nearest |q| x.magnitude :=
  ⟨fun h => h.nearest hfraction hx hsign hm hq, isNearest_of_nearest hfraction hx hsign⟩

/-- A value within the range is rounded to the nearest word, and keeps its sign. -/
theorem nearest_ofDatum (hfraction : 0 < f.fractionBits) {d : Datum} (hd : d.exact = .number q)
    (hm : m < f.infinityBits) (hq : |q| ≤ f.valueOf m) :
    ∃ v, (ofDatum d : FloatWord f).datum.exact = .number v ∧ 0 ≤ v * q ∧
      f.Nearest |q| (ofDatum d : FloatWord f).magnitude := by
  cases d with
  | nan => cases hd
  | infinite negative => cases hd
  | finite negative n e =>
    obtain rfl : (if negative then -1 else 1) * (n * 2 ^ e : ℚ) = q := ExactValue.number.inj hd
    have hnonneg : (0 : ℚ) ≤ n * 2 ^ e := mul_nonneg (Nat.cast_nonneg n) (zpow_nonneg (by decide) e)
    have habs : |(if negative then -1 else 1) * (n * 2 ^ e : ℚ)| = n * 2 ^ e := by
      cases negative <;> simp [abs_of_nonneg hnonneg]
    rw [habs] at hq ⊢
    obtain ⟨magnitude, -, hnearest, hround⟩ := f.exists_nearest n e
    have hnearest := hnearest hfraction
    -- the value is within the range, so the magnitude is not cut off at infinity
    have hlt : magnitude < f.infinityBits := Nat.lt_of_le_of_lt (hnearest.between.le_of_le hq) hm
    rw [Nat.min_eq_left (Nat.le_of_lt hlt)] at hround
    have hbits := Nat.lt_trans hlt infinityBits_lt
    have hword : (ofDatum (.finite negative n e) : FloatWord f) = ofMagnitude negative magnitude := by
      rw [ofDatum, ofRatio, hround]
    have hmagnitude := magnitude_ofMagnitude hbits negative
    rw [hword, hmagnitude]
    refine ⟨_, exact_of_lt _ (by rwa [hmagnitude]), ?_, hnearest⟩
    have hvalue : (0 : ℚ) ≤ f.units magnitude * 2 ^ f.leastExponent := f.valueOf_nonneg magnitude
    rw [multiple, hmagnitude, negative_ofMagnitude hbits]
    cases negative with
    | false | true =>
      simpa using mul_nonneg hvalue hnonneg

/-- A datum that is rounded to a wider format and then to a narrower one, in whose range it is. Both words are nearest
to what they were made from. The second is also nearest to the datum, unless the first came to lie half way between two
numbers and the even one is not on the side of the datum. -/
theorem isNearest_convert_iff (hwidens : f.Widens g) (hfraction : f.fractionBits < g.fractionBits)
    (hexponent : g.leastExponent < f.leastExponent) (hinfinity : 0 < f.infinityBits) {d : Datum}
    (hd : d.exact = .number q) (hq : |q| ≤ f.valueOf (f.infinityBits - 1)) :
    let x : FloatWord g := ofDatum d
    let w : FloatWord f := x.convert
    ∃ r, x.datum.exact = .number r ∧ x.IsNearest q ∧ w.IsNearest r ∧
      (w.IsNearest q ↔ ∀ k, |r| = f.halfway k → if k % 2 = 0 then |q| ≤ |r| else |r| ≤ |q|) := by
  intro x w
  have hlast : f.infinityBits - 1 < f.infinityBits := by omega
  -- the wider format has the greatest number of the other
  obtain ⟨m, hm, habs⟩ : g.Represents (f.valueOf (f.infinityBits - 1)) :=
    represents_of_widens hwidens ⟨f.infinityBits - 1, hlast, abs_of_nonneg (f.valueOf_nonneg _)⟩
  have hgreatest : f.valueOf (f.infinityBits - 1) = g.valueOf m := (abs_of_nonneg (f.valueOf_nonneg _)).symm.trans habs
  have hqm : |q| ≤ g.valueOf m := by
    rwa [← hgreatest]
  obtain ⟨r, hr, hside, hnearest⟩ := nearest_ofDatum (Nat.zero_lt_of_lt hfraction) hd hm hqm
  obtain ⟨hnumber, hrabs⟩ := abs_exact hr
  have hrq : |r| ≤ f.valueOf (f.infinityBits - 1) := by
    rw [hrabs, hgreatest]
    exact g.valueOf_strictMono.monotone (hnearest.between.le_of_le hqm)
  have hw : w = ofDatum x.datum := if_neg (by rw [not_isNaN_of_lt hnumber]; exact Bool.false_ne_true)
  obtain ⟨v, hv, hside', hnearest'⟩ := nearest_ofDatum hwidens.fractionBits_pos hr hlast hrq
  rw [← hw] at hv hnearest'
  -- all three numbers are on one side
  have hsides : 0 ≤ v * q := by
    by_cases hzero : r = 0
    · rw [hzero] at hnearest'
      rw [eq_zero_of_nearest_zero hv hnearest', zero_mul]
    · have hproduct : 0 ≤ v * q * (r * r) := by
        calc (0 : ℚ) ≤ v * r * (r * q) := mul_nonneg hside' hside
          _ = v * q * (r * r) := by ring
      exact nonneg_of_mul_nonneg_left hproduct (mul_self_pos.mpr hzero)
  refine ⟨r, hr, ?_, ?_, ?_⟩
  · exact isNearest_of_nearest (Nat.zero_lt_of_lt hfraction) hr hside hnearest
  · exact isNearest_of_nearest hwidens.fractionBits_pos hv hside' hnearest'
  · rw [isNearest_iff hwidens.fractionBits_pos hv hsides hlast hq, hrabs]
    rw [hrabs] at hnearest'
    exact hnearest.twice_iff (FloatFormat.exists_valueOf_eq_halfway hfraction hexponent) hnearest'

end FloatWord

end LazyTensor
