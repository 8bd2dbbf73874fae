import LazyTensor.Operation.Program

/-!
# Signatures determine programs

The text of a program is divided by marks that do not occur in its parts, so each part can be read back:
`Program.signature_injective`. A cache that finds kernels by signature can hence not mistake one program
for another.
-/

namespace LazyTensor

open List

/-! ## Divided texts -/

variable {mark : Char}

namespace Text

theorem eq_of_append_cons {a a' b b' : List Char} (ha : mark ∉ a) (ha' : mark ∉ a')
    (h : a ++ mark :: b = a' ++ mark :: b') : a = a' ∧ b = b' := by
  induction a generalizing a' with
  | nil =>
    cases a' with
    | nil => exact ⟨rfl, (List.cons.inj h).2⟩
    | cons c a' =>
      obtain ⟨rfl, -⟩ := List.cons.inj h
      exact absurd (.head _) ha'
  | cons c a ih =>
    cases a' with
    | nil =>
      obtain ⟨rfl, -⟩ := List.cons.inj h
      exact absurd (.head _) ha
    | cons c' a' =>
      obtain ⟨rfl, htail⟩ := List.cons.inj h
      obtain ⟨rfl, rfl⟩ := ih (fun hm => ha (.tail _ hm))
        (fun hm => ha' (.tail _ hm)) htail
      exact ⟨rfl, rfl⟩

theorem eq_of_append_cons_last {a a' b b' : List Char} (hb : mark ∉ b) (hb' : mark ∉ b')
    (h : a ++ mark :: b = a' ++ mark :: b') : a = a' ∧ b = b' := by
  have hrev : b.reverse ++ mark :: a.reverse = b'.reverse ++ mark :: a'.reverse := by
    simpa using congrArg reverse h
  obtain ⟨hb, ha⟩ := eq_of_append_cons (by simpa using hb) (by simpa using hb') hrev
  exact ⟨reverse_inj.mp ha, reverse_inj.mp hb⟩

/-- Texts without the separator can be told apart after they are joined. -/
theorem intercalate_injective {sep : String} (hsep : sep.toList = [mark]) {l l' : List String}
    (hl : ∀ s ∈ l, s.toList ≠ [] ∧ mark ∉ s.toList) (hl' : ∀ s ∈ l', s.toList ≠ [] ∧ mark ∉ s.toList)
    (h : sep.intercalate l = sep.intercalate l') : l = l' := by
  have hcons : ∀ (s t : String) (l : List String), (sep.intercalate (s :: t :: l)).toList =
      s.toList ++ mark :: (sep.intercalate (t :: l)).toList := by
    intro s t l
    rw [String.intercalate_cons_cons, String.toList_append, String.toList_append, hsep]
    simp
  replace h := congrArg String.toList h
  -- a list of several texts has a mark between them, and no text has one itself
  induction l generalizing l' with
  | nil =>
    cases l' with
    | nil => rfl
    | cons s' l' =>
      have hs' := (hl' s' (by simp)).1
      cases l' with
      | nil =>
        exact absurd h.symm hs'
      | cons t' l' =>
        rw [hcons] at h
        simp at h
  | cons s l ih =>
    have hs := hl s (by simp)
    cases l' with
    | nil =>
      cases l with
      | nil =>
        exact absurd h hs.1
      | cons t l =>
        rw [hcons] at h
        simp at h
    | cons s' l' =>
      have hs' := hl' s' (by simp)
      cases l with
      | nil =>
        cases l' with
        | nil =>
          rw [String.intercalate_singleton, String.intercalate_singleton] at h
          rw [String.toList_inj.mp h]
        | cons t' l' =>
          rw [hcons] at h
          exact absurd (h ▸ by simp) hs.2
      | cons t l =>
        cases l' with
        | nil =>
          rw [hcons] at h
          exact absurd (h ▸ by simp) hs'.2
        | cons t' l' =>
          rw [hcons, hcons] at h
          obtain ⟨hst, hrest⟩ := eq_of_append_cons hs.2 hs'.2 h
          rw [String.toList_inj.mp hst,
            ih (fun u hu => hl u (.tail _ hu))
              (fun u hu => hl' u (.tail _ hu)) hrest]

theorem mem_intercalate {sep : String} {c : Char} {l : List String}
    (h : c ∈ (sep.intercalate l).toList) : c ∈ sep.toList ∨ ∃ s ∈ l, c ∈ s.toList := by
  induction l with
  | nil => simp at h
  | cons s l ih =>
    cases l with
    | nil =>
      exact .inr ⟨s, by simp, h⟩
    | cons t l =>
      rw [String.intercalate_cons_cons, String.toList_append, String.toList_append, mem_append,
        mem_append] at h
      rcases h with (h | h) | h
      · exact .inr ⟨s, by simp, h⟩
      · exact .inl h
      · rcases ih h with h | ⟨u, hu, h⟩
        · exact .inl h
        · exact .inr ⟨u, mem_cons_of_mem _ hu, h⟩

/-! ## Numbers -/

theorem repr_injective {m n : Nat} (h : m.repr = n.repr) : m = n := by
  have hdigits : Nat.toDigits 10 m = Nat.toDigits 10 n := String.ofList_inj.mp h
  rw [← Nat.ofDigitChars_ten_toDigits (n := m), hdigits, Nat.ofDigitChars_ten_toDigits]

theorem mem_toString {n : Int} {c : Char} (hc : c ∈ (toString n).toList) : c.isDigit = true ∨ c = '-' := by
  have hnat : ∀ m : Nat, c ∈ m.repr.toList → c.isDigit = true := by
    intro m hm
    rw [Nat.toList_repr] at hm
    exact Nat.isDigit_of_mem_toDigits (by omega) (by omega) hm
  cases n with
  | ofNat m => exact .inl (hnat m hc)
  | negSucc m =>
    rw [show toString (Int.negSucc m) = "-" ++ m.succ.repr from rfl, String.toList_append,
      mem_append] at hc
    rcases hc with hc | hc
    · exact .inr (by simpa using hc)
    · exact .inl (hnat m.succ hc)

theorem toList_toString_ne_nil (n : Int) : (toString n).toList ≠ [] := by
  cases n with
  | ofNat m =>
    rw [show toString (Int.ofNat m) = m.repr from rfl, Nat.toList_repr]
    exact Nat.toDigits_ne_nil
  | negSucc m =>
    rw [show toString (Int.negSucc m) = "-" ++ m.succ.repr from rfl]
    simp

theorem toString_injective {m n : Int} (h : toString m = toString n) : m = n := by
  have hsign : ∀ k l : Nat, k.repr ≠ "-" ++ l.succ.repr := by
    intro k l hkl
    have hmem : '-' ∈ k.repr.toList := by
      rw [hkl]
      simp
    rw [Nat.toList_repr] at hmem
    exact absurd (Nat.isDigit_of_mem_toDigits (by omega) (by omega) hmem) (by decide)
  cases m with
  | ofNat m =>
    cases n with
    | ofNat n => rw [repr_injective (m := m) (n := n) h]
    | negSucc n => exact absurd h (hsign m n)
  | negSucc m =>
    cases n with
    | ofNat n => exact absurd h.symm (hsign n m)
    | negSucc n =>
      have hrepr : m.succ.repr = n.succ.repr := (String.append_right_inj "-").mp h
      have := repr_injective hrepr
      rw [Nat.succ.inj this]

theorem notMem_toString (hmark : mark.isDigit = false ∧ mark ≠ '-') (n : Int) : mark ∉ (toString n).toList := by
  intro hmem
  rcases mem_toString hmem with hdigit | hminus
  · rw [hmark.1] at hdigit
    cases hdigit
  · exact hmark.2 hminus

end Text

/-! ## Operands and steps -/

namespace Operand

private def letter : Operand → Char
  | .input _ => 'i'
  | .step _ => 's'

private def index : Operand → Int
  | .input i => i
  | .step i => i

private theorem toList_text (o : Operand) : o.text.toList = o.letter :: (toString o.index).toList := by
  cases o <;> simp [text, letter, index, toString]

theorem text_injective {o o' : Operand} (h : o.text = o'.text) : o = o' := by
  have hlist := congrArg String.toList h
  rw [toList_text, toList_text] at hlist
  obtain ⟨hletter, hindex⟩ := List.cons.inj hlist
  have hindex := Text.toString_injective (String.toList_inj.mp hindex)
  cases o <;> cases o' <;> simp_all [letter, index]

theorem toList_text_ne_nil (o : Operand) : o.text.toList ≠ [] := by
  rw [toList_text]
  exact cons_ne_nil _ _

theorem notMem_text (hmark : mark.isDigit = false ∧ mark ≠ '-') (hi : mark ≠ 'i') (hs : mark ≠ 's') (o : Operand) :
    mark ∉ o.text.toList := by
  rw [toList_text, mem_cons, not_or]
  refine ⟨?_, Text.notMem_toString hmark _⟩
  cases o
  · exact hi
  · exact hs

end Operand

namespace OpKind

theorem mem_all_or_unknown (k : OpKind) : k ∈ all ∨ ∃ code, k = .unknown code := by
  cases k with
  | unknown code => exact .inr ⟨code, rfl⟩
  | elementwise e =>
    refine .inl ?_
    cases e with
    | unary op | binary op => cases op <;> decide
    | fusedMulAdd => decide
  | _ => exact .inl (by decide)

private theorem toList_name_unknown (code : Int) :
    (name (.unknown code)).toList = "OpType".toList ++ '(' :: ((toString code).toList ++ [')']) := by
  simp [name, toString]

private theorem plain_names : ∀ k ∈ all, ofName? k.name = some k ∧ '(' ∉ k.name.toList ∧ ';' ∉ k.name.toList := by
  decide +kernel

theorem name_injective {k k' : OpKind} (h : k.name = k'.name) : k = k' := by
  rcases mem_all_or_unknown k with hk | ⟨code, rfl⟩
  · rcases mem_all_or_unknown k' with hk' | ⟨code', rfl⟩
    · have heq := (plain_names k hk).1
      rw [h, (plain_names k' hk').1] at heq
      exact (Option.some.inj heq).symm
    · refine absurd ?_ (plain_names k hk).2.1
      rw [h, toList_name_unknown]
      simp
  · rcases mem_all_or_unknown k' with hk' | ⟨code', rfl⟩
    · refine absurd ?_ (plain_names k' hk').2.1
      rw [← h, toList_name_unknown]
      simp
    · have hlist := congrArg String.toList h
      rw [toList_name_unknown, toList_name_unknown] at hlist
      obtain ⟨-, hcode⟩ := Text.eq_of_append_cons (by decide) (by decide) hlist
      rw [Text.toString_injective (String.toList_inj.mp (append_cancel_right hcode))]

theorem semicolon_notMem_name (k : OpKind) : ';' ∉ k.name.toList := by
  rcases mem_all_or_unknown k with hk | ⟨code, rfl⟩
  · exact (plain_names k hk).2.2
  · rw [toList_name_unknown]
    have : ';' ∉ (toString code).toList := Text.notMem_toString (by decide) code
    simp only [mem_append, mem_cons, not_or]
    exact ⟨by decide, by decide, this, by decide⟩

end OpKind

namespace Step

private theorem toList_text (s : Step) :
    s.text.toList = s.kind.name.toList ++ '(' :: ((",".intercalate (s.operands.map Operand.text)).toList ++ [')']) := by
  simp [text]

private theorem notMem_operands (hmark : mark.isDigit = false ∧ mark ≠ '-') (hi : mark ≠ 'i') (hs : mark ≠ 's')
    (hc : mark ≠ ',') (s : Step) : mark ∉ (",".intercalate (s.operands.map Operand.text)).toList := by
  intro hmem
  rcases Text.mem_intercalate hmem with hmem | ⟨t, ht, hmem⟩
  · exact hc (by simpa using hmem)
  · obtain ⟨o, -, rfl⟩ := List.mem_map.mp ht
    exact Operand.notMem_text hmark hi hs o hmem

theorem text_injective {s s' : Step} (h : s.text = s'.text) : s = s' := by
  have hlist := congrArg String.toList h
  rw [toList_text, toList_text] at hlist
  -- the operands come after the last bracket: a kind may have one in its name
  have hnone : ∀ t : Step, '(' ∉ (",".intercalate (t.operands.map Operand.text)).toList ++ [')'] := by
    intro t
    rw [mem_append, not_or]
    exact ⟨notMem_operands (by decide) (by decide) (by decide) (by decide) t, by decide⟩
  obtain ⟨hkind, hoperands⟩ := Text.eq_of_append_cons_last (hnone s) (hnone s') hlist
  have hkind := OpKind.name_injective (String.toList_inj.mp hkind)
  have hitems : ∀ t : Step, ∀ u ∈ t.operands.map Operand.text, u.toList ≠ [] ∧ ',' ∉ u.toList := by
    intro t u hu
    obtain ⟨o, -, rfl⟩ := List.mem_map.mp hu
    exact ⟨o.toList_text_ne_nil, Operand.notMem_text (by decide) (by decide) (by decide) o⟩
  have htexts := Text.intercalate_injective (by decide) (hitems s) (hitems s')
    (String.toList_inj.mp (append_cancel_right hoperands))
  have hoperands := (List.map_inj_right fun o o' => Operand.text_injective).mp htexts
  cases s
  simp_all

theorem semicolon_notMem_text (s : Step) : ';' ∉ s.text.toList := by
  rw [toList_text]
  simp only [mem_append, mem_cons, not_or]
  exact ⟨OpKind.semicolon_notMem_name _, by decide,
    notMem_operands (by decide) (by decide) (by decide) (by decide) s, by decide⟩

theorem toList_text_ne_nil (s : Step) : s.text.toList ≠ [] := by
  rw [toList_text]
  simp

end Step

/-! ## Programs -/

namespace DType

private theorem names_nodup : names.Nodup ∧ ∀ s ∈ names, '|' ∉ s.toList ∧ '(' ∉ s.toList := by
  decide +kernel

private theorem name_cases (t : DType) :
    (∃ i : Nat, t = ⟨i⟩ ∧ names[i]? = some t.name) ∨
      t.name.toList = "DType".toList ++ '(' :: ((toString t.code).toList ++ [')']) := by
  have hwritten : (s!"DType({t.code})").toList = "DType".toList ++ '(' :: ((toString t.code).toList ++ [')']) := by
    simp [toString]
  by_cases hneg : t.code < 0
  · right
    rwa [name, if_pos hneg]
  · rw [name, if_neg hneg, getD_eq_getElem?_getD]
    cases hi : names[t.code.toNat]? with
    | none => exact .inr hwritten
    | some s =>
      refine .inl ⟨t.code.toNat, ?_, hi⟩
      have hcode : (t.code.toNat : Int) = t.code := Int.toNat_of_nonneg (by omega)
      rw [hcode]

theorem name_injective {t t' : DType} (h : t.name = t'.name) : t = t' := by
  rcases name_cases t with ⟨i, hi, hname⟩ | hname
  · rcases name_cases t' with ⟨i', hi', hname'⟩ | hname'
    · rw [h, ← hname'] at hname
      have hlt := (List.getElem?_eq_some_iff.mp hname').1
      rw [hi, hi', (getElem?_inj hlt names_nodup.1).mp hname.symm]
    · refine absurd ?_ (names_nodup.2 t.name (mem_of_getElem? hname)).2
      rw [h, hname']
      simp
  · rcases name_cases t' with ⟨i', hi', hname'⟩ | hname'
    · refine absurd ?_ (names_nodup.2 t'.name (mem_of_getElem? hname')).2
      rw [← h, hname]
      simp
    · rw [h, hname'] at hname
      obtain ⟨-, hcode⟩ := Text.eq_of_append_cons (by decide) (by decide) hname
      have := Text.toString_injective (String.toList_inj.mp (append_cancel_right hcode))
      cases t'
      simp_all

theorem bar_notMem_name (t : DType) : '|' ∉ t.name.toList := by
  rcases name_cases t with ⟨i, -, hname⟩ | hname
  · exact (names_nodup.2 t.name (mem_of_getElem? hname)).1
  · rw [hname]
    simp only [mem_append, mem_cons, not_or]
    exact ⟨by decide, by decide, Text.notMem_toString (by decide) _, by decide⟩

end DType

theorem Program.signature_injective {p q : Program} (h : p.signature = q.signature) : p = q := by
  have htext : ∀ p : Program, p.signature.toList = p.dtype.name.toList ++
      '|' :: ((toString p.numInputs).toList ++ '|' :: (";".intercalate (p.steps.map Step.text)).toList) := by
    simp [signature, toString]
  have hlist := congrArg String.toList h
  rw [htext, htext] at hlist
  obtain ⟨hdtype, hlist⟩ := Text.eq_of_append_cons (DType.bar_notMem_name _) (DType.bar_notMem_name _) hlist
  obtain ⟨hinputs, hsteps⟩ := Text.eq_of_append_cons (Text.notMem_toString (by decide) _)
    (Text.notMem_toString (by decide) _) hlist
  have hitems : ∀ p : Program, ∀ u ∈ p.steps.map Step.text, u.toList ≠ [] ∧ ';' ∉ u.toList := by
    intro p u hu
    obtain ⟨s, -, rfl⟩ := List.mem_map.mp hu
    exact ⟨s.toList_text_ne_nil, s.semicolon_notMem_text⟩
  have htexts := Text.intercalate_injective (by decide) (hitems p) (hitems q) (String.toList_inj.mp hsteps)
  have hsteps := (List.map_inj_right fun s s' => Step.text_injective).mp htexts
  have hdtype := DType.name_injective (String.toList_inj.mp hdtype)
  have hinputs := Text.toString_injective (String.toList_inj.mp hinputs)
  cases p
  simp_all

end LazyTensor
