import LazyTensor.Proofs.Kernel.Steps
import LazyTensor.Proofs.Number.Nearest

/-!
# Fused products and sums

The kernel of `x * y + z` in single precision computes in double precision, where the exact number is rounded once, and
rounds the result to single precision. So a number is rounded twice. `fusedMulAdd_isNearest_iff` says for which operands
the element is the one nearest to the exact number.
-/

namespace LazyTensor.Kernel

open FloatWord

theorem applyStep_fusedMulAdd {α : Type} [Arithmetic α] {xs ys zs : Source α} {out : Array α}
    (hxs : (xs.data out).size = out.size) (hys : (ys.data out).size = out.size)
    (hzs : (zs.data out).size = out.size) :
    let step := applyStep (.elementwise .fusedMulAdd) [xs, ys, zs] out
    step.2 = none ∧ ∀ (i : Nat) (x y z : α), (xs.data out)[i]? = some x → (ys.data out)[i]? = some y →
      (zs.data out)[i]? = some z → step.1[i]? = some (Arithmetic.mulAdd x y z) := by
  intro step
  have hresult : ∀ (i : Nat) (x y z : α), (xs.data out)[i]? = some x → (ys.data out)[i]? = some y →
      (zs.data out)[i]? = some z →
      resultAt (.elementwise .fusedMulAdd) [xs, ys, zs] out i = some (Arithmetic.mulAdd x y z) := by
    intro i x y z hx hy hz
    simp [resultAt, hx, hy, hz, applyAt]
  obtain ⟨hsize, hok, hfail⟩ := applyStep_spec (.elementwise .fusedMulAdd) [xs, ys, zs] out
  have hnone : step.2 = none := by
    by_contra hfault
    obtain ⟨i, hi, hmissing⟩ := hfail hfault
    rw [hresult i _ _ _ (Array.getElem?_eq_getElem (by omega)) (Array.getElem?_eq_getElem (by omega))
      (Array.getElem?_eq_getElem (by omega))] at hmissing
    exact absurd hmissing (Option.some_ne_none _)
  refine ⟨hnone, fun i x y z hx hy hz => ?_⟩
  obtain ⟨hi, -⟩ := Array.getElem?_eq_some_iff.mp hx
  rw [hok hnone i (by omega), hresult i x y z hx hy hz]

theorem single_valueOf_last :
    FloatFormat.single.valueOf (FloatFormat.single.infinityBits - 1) = (2 ^ 24 - 1) * 2 ^ 104 := by
  have hunits : FloatFormat.single.units (FloatFormat.single.infinityBits - 1) = (2 ^ 24 - 1) * 2 ^ 253 := by
    decide +kernel
  have hexponent : FloatFormat.single.leastExponent = -149 := by decide
  rw [FloatFormat.valueOf, hunits, hexponent]
  norm_num

/-- Words of single precision whose product and sum `q` is not beyond the greatest number, whether the output is one of
the operands or not. The kernel does not fail. In double precision the word nearest to `q` stands for a number `r`, and
the element is the one nearest to `r`. It is the one nearest to `q` if and only if, where `r` is half way between two
consecutive numbers, `q` is not beyond `r` seen from the even one. -/
theorem fusedMulAdd_isNearest_iff (xs ys zs : Source Single) (out : Array Single) (hxs : (xs.data out).size = out.size)
    (hys : (ys.data out).size = out.size) (hzs : (zs.data out).size = out.size) (i : Nat) (x y z : Single)
    (hx : (xs.data out)[i]? = some x) (hy : (ys.data out)[i]? = some y) (hz : (zs.data out)[i]? = some z) (a b c : ℚ)
    (ha : x.datum.exact = .number a) (hb : y.datum.exact = .number b) (hc : z.datum.exact = .number c)
    (hrange : |a * b + c| ≤ (2 ^ 24 - 1) * 2 ^ 104) :
    let q := a * b + c
    let double : Double := (x.convert : Double).mulAdd y.convert z.convert
    let step := applyStep (.elementwise .fusedMulAdd) [xs, ys, zs] out
    step.2 = none ∧ ∃ (w : Single) (r : ℚ), step.1[i]? = some w ∧ double.datum.exact = .number r ∧ double.IsNearest q ∧
      w.IsNearest r ∧ (w.IsNearest q ↔ ∀ k, |r| = FloatFormat.single.halfway k →
        if k % 2 = 0 then |q| ≤ |r| else |r| ≤ |q|) := by
  intro q double step
  obtain ⟨hnone, hstep⟩ := applyStep_fusedMulAdd hxs hys hzs
  -- the words are the same numbers in double precision, and their product and sum is exact before it is rounded
  have hproduct := Datum.exact_mul ((exact_convert single_widens_double x).trans ha)
    ((exact_convert single_widens_double y).trans hb)
  have hsum := Datum.exact_add hproduct ((exact_convert single_widens_double z).trans hc)
  obtain ⟨r, hr, hdouble, hsingle, hiff⟩ := isNearest_convert_iff single_widens_double (by decide) (by decide)
    (by decide) hsum (by rw [single_valueOf_last]; exact hrange)
  exact ⟨hnone, mulAddViaDouble x y z, r, hstep i x y z hx hy hz, hr, hdouble, hsingle, hiff⟩

theorem single_halfway_even : FloatFormat.single.halfway 0x4b800000 = 2 ^ 24 + 1 := by
  have hunits : FloatFormat.single.units 0x4b800000 = 2 ^ 173 := by decide +kernel
  have hnext : FloatFormat.single.units (0x4b800000 + 1) = 2 ^ 173 + 2 ^ 150 := by decide +kernel
  have hexponent : FloatFormat.single.leastExponent = -149 := by decide
  rw [FloatFormat.halfway, FloatFormat.valueOf, FloatFormat.valueOf, hunits, hnext, hexponent]
  norm_num

/-- The product is half way between two numbers and the sum is a little less, and so nearer to the even one. -/
theorem fusedMulAdd_below_tie :
    let x : Single := .ofInt 24929
    let y : Single := .ofInt 673
    let z : Single := ⟨0x8d800000⟩
    x.datum.exact = .number 24929 ∧ y.datum.exact = .number 673 ∧ z.datum.exact = .number (-2 ^ (-100 : Int)) ∧
    ∃ w : Single, (applyStep (.elementwise .fusedMulAdd) [.apart #[x], .apart #[y], .output] #[z]).1[0]? = some w ∧
      w.IsNearest (24929 * 673 + -2 ^ (-100 : Int)) := by
  intro x y z
  have hz : z.datum = .finite true 8388608 (-123) := by decide +kernel
  have ha : x.datum.exact = .number 24929 := by
    simpa using exact_ofInt (FloatFormat.single_represents (n := 24929) (by decide))
  have hb : y.datum.exact = .number 673 := by
    simpa using exact_ofInt (FloatFormat.single_represents (n := 673) (by decide))
  have hc : z.datum.exact = .number (-2 ^ (-100 : Int)) := by
    rw [hz, Datum.exact]
    norm_num
  have hr' : ((x.convert : Double).mulAdd y.convert z.convert).datum = .finite false 4503599895805952 (-28) := by
    decide +kernel
  obtain ⟨-, w, r, hw, hr, -, -, hiff⟩ := fusedMulAdd_isNearest_iff (.apart #[x]) (.apart #[y]) .output #[z] rfl rfl
    rfl 0 x y z rfl rfl rfl _ _ _ ha hb hc (by norm_num [abs_le])
  obtain rfl : r = 24929 * 673 := by
    rw [hr', Datum.exact] at hr
    rw [← ExactValue.number.inj hr]
    norm_num
  refine ⟨ha, hb, hc, w, hw, hiff.mpr fun k hk => ?_⟩
  obtain rfl : k = 0x4b800000 := by
    apply FloatFormat.single.halfway_strictMono.injective
    rw [← hk, single_halfway_even]
    norm_num
  rw [if_pos (by decide)]
  norm_num [abs_le]

/-- If the sum is a little more than the product, it is nearer to the odd one of both numbers. But it is rounded to the
product first, and then to the even one. -/
theorem fusedMulAdd_above_tie :
    let x : Single := .ofInt 24929
    let y : Single := .ofInt 673
    let z : Single := ⟨0x0d800000⟩
    let q : ℚ := 24929 * 673 + 2 ^ (-100 : Int)
    x.datum.exact = .number 24929 ∧ y.datum.exact = .number 673 ∧ z.datum.exact = .number (2 ^ (-100 : Int)) ∧
    2 ^ (-126 : Int) ≤ q ∧ q ≤ (2 ^ 24 - 1) * 2 ^ 104 ∧
    applyStep (.elementwise .fusedMulAdd) [.apart #[x], .apart #[y], .output] #[z] = (#[⟨0x4b800000⟩], none) ∧
    ¬ FloatWord.IsNearest (⟨0x4b800000⟩ : Single) q := by
  intro x y z q
  have hz : z.datum = .finite false 8388608 (-123) := by decide +kernel
  refine ⟨?_, ?_, ?_, ?_, ?_, by decide +kernel, ?_⟩
  · simpa using exact_ofInt (FloatFormat.single_represents (n := 24929) (by decide))
  · simpa using exact_ofInt (FloatFormat.single_represents (n := 673) (by decide))
  · rw [hz, Datum.exact]
    norm_num
  · norm_num [q]
  · norm_num [q]
  · -- the next word is nearer
    rintro ⟨v, hv, hnearest⟩
    have heven : (⟨0x4b800000⟩ : Single).datum = .finite false 8388608 1 := by decide +kernel
    have hodd : (⟨0x4b800001⟩ : Single).datum = .finite false 8388609 1 := by decide +kernel
    rw [heven, Datum.exact] at hv
    obtain rfl := ExactValue.number.inj hv
    rcases hnearest ⟨0x4b800001⟩ _ (by rw [hodd, Datum.exact]) (by norm_num) with hlt | ⟨heq, -⟩
    · norm_num [q, abs_lt] at hlt
    · norm_num [q] at heq

end LazyTensor.Kernel
