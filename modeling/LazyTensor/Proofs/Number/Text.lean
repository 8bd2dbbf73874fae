import LazyTensor.Element.Flat
import LazyTensor.Proofs.Signature

/-!
# Numbers as text

Whatever number is written, and with whatever number of digits: its text has letters, digits and signs, and a point
at most once.
-/

namespace LazyTensor

open List

/-- A character of a number, other than the point. -/
def isNumeralChar (c : Char) : Bool := c.isAlphanum || c == '+' || c == '-'

/-- Letters, digits and signs, with at most one point. -/
structure IsNumeral (cs : List Char) : Prop where
  ne_nil : cs ≠ []
  chars : ∀ c ∈ cs, isNumeralChar c = true ∨ c = '.'
  points : cs.count '.' ≤ 1

variable {a b : List Char} {c : Char}

theorem isNumeralChar_of_isDigit (h : c.isDigit = true) : isNumeralChar c = true := by
  simp [isNumeralChar, Char.isAlphanum, h]

theorem count_point (h : ∀ c ∈ a, isNumeralChar c = true) : a.count '.' = 0 :=
  count_eq_zero_of_not_mem fun hmem => absurd (h '.' hmem) (by decide)

theorem isNumeral_of_chars (hne : a ≠ []) (ha : ∀ c ∈ a, isNumeralChar c = true) : IsNumeral a :=
  ⟨hne, fun c hc => .inl (ha c hc), by simp [count_point ha]⟩

theorem isNumeral_point (ha : ∀ c ∈ a, isNumeralChar c = true) (hb : ∀ c ∈ b, isNumeralChar c = true) :
    IsNumeral (a ++ '.' :: b) := by
  refine ⟨by simp, fun c hc => ?_, ?_⟩
  · rcases mem_append.mp hc with hc | hc
    · exact .inl (ha c hc)
    · rcases mem_cons.mp hc with rfl | hc
      · exact .inr rfl
      · exact .inl (hb c hc)
  · simp [count_point ha, count_point hb]

theorem IsNumeral.sign (h : IsNumeral b) (ha : ∀ c ∈ a, isNumeralChar c = true) : IsNumeral (a ++ b) := by
  refine ⟨by simp [h.ne_nil], fun c hc => ?_, ?_⟩
  · rcases mem_append.mp hc with hc | hc
    · exact .inl (ha c hc)
    · exact h.chars c hc
  · rw [List.count_append, count_point ha, Nat.zero_add]
    exact h.points

theorem isNumeral_toString (n : Int) : IsNumeral (toString n).toList := by
  refine isNumeral_of_chars (Text.toList_toString_ne_nil n) fun c hc => ?_
  rcases Text.mem_toString hc with hdigit | rfl
  · exact isNumeralChar_of_isDigit hdigit
  · decide

namespace Decimal

theorem chars_toDigits {n : Nat} (hc : c ∈ Nat.toDigits 10 n) : isNumeralChar c = true :=
  isNumeralChar_of_isDigit (Nat.isDigit_of_mem_toDigits (by decide) (by decide) hc)

theorem chars_digitChars {x : Decimal} (hc : c ∈ x.digitChars) : isNumeralChar c = true := by
  refine chars_toDigits (n := x.digits) ?_
  have hmem := (dropWhile_suffix (· == '0')).subset (mem_reverse.mp hc)
  exact mem_reverse.mp hmem

theorem chars_replicate {n : Nat} (hc : c ∈ replicate n '0') : isNumeralChar c = true := by
  rw [(mem_replicate.mp hc).2]
  decide

variable {digits : List Char}

theorem isNumeral_positional (h : ∀ c ∈ digits, isNumeralChar c = true) (n : Int) :
    IsNumeral (positional digits n) := by
  rw [positional]
  split
  · refine isNumeral_point (a := ['0']) (by simp [isNumeralChar]) fun c hc => ?_
    exact (mem_append.mp hc).elim chars_replicate (h c)
  · split
    · refine isNumeral_of_chars ?_ fun c hc => (mem_append.mp hc).elim (h c) chars_replicate
      -- there are digits, or there is room for a zero
      intro hnil
      have hlength := congrArg length hnil
      rw [length_append, length_replicate, length_nil] at hlength
      omega
    · exact isNumeral_point (fun c hc => h c (mem_of_mem_take hc)) fun c hc => h c (mem_of_mem_drop hc)

theorem isNumeral_scientific (h : ∀ c ∈ digits, isNumeralChar c = true) (e : Int) :
    IsNumeral (scientific digits e) := by
  -- what follows the digits
  have hmark : ∀ c ∈ (if e < 0 then ['e', '-'] else ['e', '+']), isNumeralChar c = true := by
    split <;> exact List.all_eq_true.mp (by decide)
  have hpower : ∀ c ∈ (if (Nat.toDigits 10 e.natAbs).length < 2 then '0' :: Nat.toDigits 10 e.natAbs
      else Nat.toDigits 10 e.natAbs), isNumeralChar c = true := by
    split
    · intro c hc
      rcases mem_cons.mp hc with rfl | hc
      · decide
      · exact chars_toDigits hc
    · exact fun c hc => chars_toDigits hc
  simp only [scientific, append_assoc]
  by_cases hlength : digits.length ≤ 1
  · rw [if_pos hlength, nil_append]
    refine isNumeral_of_chars (by split <;> simp) fun c hc => ?_
    simp only [mem_append] at hc
    rcases hc with hc | hc | hc
    · exact h c (mem_of_mem_take hc)
    · exact hmark c hc
    · exact hpower c hc
  · rw [if_neg hlength, cons_append]
    refine isNumeral_point (fun c hc => h c (mem_of_mem_take hc)) fun c hc => ?_
    simp only [mem_append] at hc
    rcases hc with hc | hc | hc
    · exact h c (mem_of_mem_drop hc)
    · exact hmark c hc
    · exact hpower c hc

theorem isNumeral_general (limit : Int) (x : Decimal) : IsNumeral (x.general limit) := by
  rw [general]
  split
  · exact isNumeral_scientific (fun c hc => chars_digitChars hc) _
  · exact isNumeral_positional (fun c hc => chars_digitChars hc) _

end Decimal

theorem FloatWord.isNumeral_textWith {f : FloatFormat} {number : Nat → Int → List Char}
    (h : ∀ m e, IsNumeral (number m e)) (x : FloatWord f) : IsNumeral (x.textWith number).toList := by
  rw [textWith]
  split
  · exact isNumeral_of_chars (by decide) (List.all_eq_true.mp (by decide))
  · split
    · exact isNumeral_of_chars (by decide) (List.all_eq_true.mp (by decide))
    · exact isNumeral_of_chars (by decide) (List.all_eq_true.mp (by decide))
  · rename_i s m e _
    rw [String.toList_ofList]
    refine IsNumeral.sign ?_ (List.all_eq_true.mp (by split <;> decide))
    split
    · exact isNumeral_of_chars (by decide) (List.all_eq_true.mp (by decide))
    · exact h m e

theorem ElementType.isNumeral_elementText (digits : Option Nat) (t : ElementType) (x : t.Elem) :
    IsNumeral (t.elementText digits x).toList := by
  simp only [elementText]
  cases t.toScalar x with
  | integer n => exact isNumeral_toString n
  | single y | double y =>
    cases digits with
    | none | some n => exact FloatWord.isNumeral_textWith (fun _ _ => Decimal.isNumeral_general _ _) y

end LazyTensor
