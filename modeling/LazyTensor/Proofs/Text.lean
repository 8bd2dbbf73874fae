import LazyTensor.Proofs.Signature
import LazyTensor.Text.Split
import Mathlib.Data.List.DropRight
import Mathlib.Data.List.Forall2

/-!
# Texts that are split and trimmed

A text is put together from parts with a separator between them, with white space around the parts and with parts of
white space only. Splitting and trimming gives back the parts.
-/

namespace LazyTensor.Text

open List

variable {sep c : Char} {cs k v : List Char} {s t : String}

/-! ## Splitting -/

theorem splitChars_of_notMem (h : sep ∉ cs) : splitChars sep cs = [cs] := by
  induction cs with
  | nil => rfl
  | cons c cs ih =>
    rw [mem_cons, not_or] at h
    rw [splitChars, if_neg (Ne.symm h.1), ih h.2]

theorem splitChars_append_cons (h : sep ∉ k) (v : List Char) :
    splitChars sep (k ++ sep :: v) = k :: splitChars sep v := by
  induction k with
  | nil => rw [nil_append, splitChars, if_pos rfl]
  | cons c k ih =>
    rw [mem_cons, not_or] at h
    rw [cons_append, splitChars, if_neg (Ne.symm h.1), ih h.2]

theorem splitChars_intercalate {parts : List (List Char)} (hne : parts ≠ []) (h : ∀ part ∈ parts, sep ∉ part) :
    splitChars sep ([sep].intercalate parts) = parts := by
  induction parts with
  | nil => exact absurd rfl hne
  | cons part parts ih =>
    have hpart := h part (.head _)
    cases parts with
    | nil =>
      rw [intercalate_singleton]
      exact splitChars_of_notMem hpart
    | cons next parts =>
      rw [intercalate_cons_cons, append_assoc, singleton_append, splitChars_append_cons hpart,
        ih (by simp) fun p hp => h p (.tail _ hp)]

theorem split_intercalate {parts : List String} (hne : parts ≠ []) (h : ∀ part ∈ parts, sep ∉ part.toList) :
    split sep ((String.singleton sep).intercalate parts) = parts := by
  rw [split, String.toList_intercalate, String.toList_singleton, splitChars_intercalate (by simpa using hne)]
  · simp
  · intro part hpart
    obtain ⟨p, hp, rfl⟩ := List.mem_map.mp hpart
    exact h p hp

theorem cutChars_append_cons (h : sep ∉ k) (v : List Char) : cutChars sep (k ++ sep :: v) = (k, some v) := by
  induction k with
  | nil => rw [nil_append, cutChars, if_pos rfl]
  | cons c k ih =>
    rw [mem_cons, not_or] at h
    rw [cons_append, cutChars, if_neg (Ne.symm h.1), ih h.2]

/-! ## Trimming -/

theorem trimChars_eq (cs : List Char) : trimChars cs = (cs.dropWhile isBlank).rdropWhile isBlank := rfl

theorem trimChars_cons_blank (h : isBlank c = true) (cs : List Char) : trimChars (c :: cs) = trimChars cs := by
  rw [trimChars_eq, dropWhile_cons_of_pos h, ← trimChars_eq]

theorem trimChars_concat_blank (h : isBlank c = true) (cs : List Char) : trimChars (cs ++ [c]) = trimChars cs := by
  rw [trimChars_eq, dropWhile_append]
  split
  · rename_i hempty
    rw [List.isEmpty_iff] at hempty
    rw [trimChars_eq, hempty, dropWhile_cons_of_pos h]
    rfl
  · rw [rdropWhile_concat_pos _ _ _ h, ← trimChars_eq]

theorem trimChars_dropWhile (cs : List Char) : trimChars (cs.dropWhile isBlank) = trimChars cs := by
  rw [trimChars_eq, dropWhile_idempotent, ← trimChars_eq]

theorem trimChars_rdropWhile (cs : List Char) : trimChars (cs.rdropWhile isBlank) = trimChars cs := by
  induction cs using reverseRecOn with
  | nil => rfl
  | append_singleton cs c ih =>
    by_cases hc : isBlank c = true
    · rw [rdropWhile_concat_pos _ _ _ hc, ih, trimChars_concat_blank hc]
    · rw [rdropWhile_concat_neg _ _ _ hc]

theorem dropWhile_append_cons (hsep : isBlank sep = false) (k v : List Char) :
    (k ++ sep :: v).dropWhile isBlank = k.dropWhile isBlank ++ sep :: v := by
  rw [dropWhile_append]
  split
  · rename_i hempty
    rw [List.isEmpty_iff] at hempty
    rw [hempty, dropWhile_cons_of_neg (by simp [hsep]), nil_append]
  · rfl

theorem rdropWhile_append_cons (hsep : isBlank sep = false) (k v : List Char) :
    (k ++ sep :: v).rdropWhile isBlank = k ++ sep :: v.rdropWhile isBlank := by
  induction v using reverseRecOn with
  | nil => rw [rdropWhile_concat_neg _ _ _ (by simp [hsep]), rdropWhile_nil]
  | append_singleton v c ih =>
    rw [← cons_append, ← append_assoc]
    by_cases hc : isBlank c = true
    · rw [rdropWhile_concat_pos _ _ _ hc, rdropWhile_concat_pos _ _ _ hc, ih]
    · rw [rdropWhile_concat_neg _ _ _ hc, rdropWhile_concat_neg _ _ _ hc]
      simp

theorem toList_trim_append (hsep : isBlank sep = false) (s t : String) :
    (trim (s ++ String.singleton sep ++ t)).toList =
      s.toList.dropWhile isBlank ++ sep :: t.toList.rdropWhile isBlank := by
  rw [trim, String.toList_ofList, String.toList_append, String.toList_append, String.toList_singleton,
    append_assoc, singleton_append, trimChars_eq, dropWhile_append_cons hsep, rdropWhile_append_cons hsep]

theorem trim_append_ne_empty (sep : Char) (hsep : isBlank sep = false) (s t : String) :
    trim (s ++ String.singleton sep ++ t) ≠ "" := by
  intro h
  have hchars := toList_trim_append hsep s t
  rw [h] at hchars
  simp at hchars

/-- A text that is trimmed can still be cut, and the two sides are the same once they are trimmed. -/
theorem cut_trim (sep : Char) (hsep : isBlank sep = false) (h : sep ∉ s.toList) (t : String) :
    ∃ s' t', cut sep (trim (s ++ String.singleton sep ++ t)) = (s', some t') ∧ trim s' = trim s ∧ trim t' = trim t := by
  have hnotMem : sep ∉ s.toList.dropWhile isBlank := fun hmem => h ((dropWhile_sublist _).mem hmem)
  refine ⟨String.ofList (s.toList.dropWhile isBlank), String.ofList (t.toList.rdropWhile isBlank), ?_, ?_, ?_⟩
  · rw [cut, toList_trim_append hsep, cutChars_append_cons hnotMem]
    rfl
  · rw [trim, String.toList_ofList, trimChars_dropWhile, ← trim]
  · rw [trim, String.toList_ofList, trimChars_rdropWhile, ← trim]

/-! ## White space around texts -/

/-- A text of white space only. -/
def IsBlankText (s : String) : Prop := ∀ c ∈ s.toList, isBlank c = true

/-- A text without white space at its ends. -/
structure Trimmed (s : String) : Prop where
  first : ∀ c ∈ s.toList.head?, isBlank c = false
  last : ∀ c ∈ s.toList.getLast?, isBlank c = false

instance (s : String) : Decidable (IsBlankText s) := decidable_of_iff (s.toList.all isBlank = true) List.all_eq_true

instance (s : String) : Decidable (Trimmed s) :=
  decidable_of_iff (s.toList.head?.all (!isBlank ·) = true ∧ s.toList.getLast?.all (!isBlank ·) = true) <| by
    simp only [Option.all_eq_true, Bool.not_eq_true']
    exact ⟨fun h => ⟨h.1, h.2⟩, fun h => ⟨h.first, h.last⟩⟩

/-- A text with any white space around it. -/
def Padded (s t : String) : Prop := ∃ before after, IsBlankText before ∧ IsBlankText after ∧ t = before ++ s ++ after

theorem trimChars_blank_append (hk : ∀ c ∈ k, isBlank c = true) (v : List Char) : trimChars (k ++ v) = trimChars v := by
  induction k with
  | nil => rfl
  | cons c k ih =>
    rw [cons_append, trimChars_cons_blank (hk c (.head _)),
      ih fun x hx => hk x (.tail _ hx)]

theorem trimChars_append_blank (hv : ∀ c ∈ v, isBlank c = true) (k : List Char) : trimChars (k ++ v) = trimChars k := by
  induction v using reverseRecOn with
  | nil => rw [append_nil]
  | append_singleton v c ih =>
    rw [← append_assoc, trimChars_concat_blank (hv c (by simp)), ih fun x hx => hv x (by simp [hx])]

theorem Trimmed.trim_eq (h : Trimmed s) : trim s = s := by
  have hleft : s.toList.dropWhile isBlank = s.toList := by
    cases hs : s.toList with
    | nil => rfl
    | cons c cs =>
      have hc := h.first c (by rw [hs]; rfl)
      rw [dropWhile_cons_of_neg (by simp [hc])]
  have hright : s.toList.rdropWhile isBlank = s.toList := by
    rw [rdropWhile_eq_self_iff]
    intro hne
    have hc := h.last _ (getLast?_eq_getLast_of_ne_nil hne)
    simp [hc]
  rw [trim, trimChars_eq, hleft, hright, String.ofList_toList]

theorem Padded.trim_eq (h : Padded s t) (hs : Trimmed s) : trim t = s := by
  obtain ⟨before, after, hbefore, hafter, rfl⟩ := h
  rw [trim, String.toList_append, String.toList_append, trimChars_append_blank hafter, trimChars_blank_append hbefore,
    ← trim, hs.trim_eq]

theorem IsBlankText.trim_eq (h : IsBlankText s) : trim s = "" := by
  rw [trim, ← append_nil s.toList, trimChars_blank_append h]
  rfl

theorem IsBlankText.notMem (h : IsBlankText s) (hsep : isBlank sep = false) : sep ∉ s.toList := by
  intro hmem
  rw [h sep hmem] at hsep
  exact Bool.noConfusion hsep

theorem Padded.notMem (h : Padded s t) (hsep : isBlank sep = false) (hs : sep ∉ s.toList) : sep ∉ t.toList := by
  obtain ⟨before, after, hbefore, hafter, rfl⟩ := h
  simp [hbefore.notMem hsep, hs, hafter.notMem hsep]

/-! ## Trimmed parts -/

theorem splitChars_ne_nil (sep : Char) (cs : List Char) : splitChars sep cs ≠ [] := by
  cases cs with
  | nil => exact cons_ne_nil _ _
  | cons c cs =>
    rw [splitChars]
    split
    · exact cons_ne_nil _ _
    · split <;> exact cons_ne_nil _ _

theorem splitChars_cons (hc : c ≠ sep) (cs : List Char) :
    ∃ part parts, splitChars sep cs = part :: parts ∧ splitChars sep (c :: cs) = (c :: part) :: parts := by
  obtain ⟨part, parts, hparts⟩ := exists_cons_of_ne_nil (splitChars_ne_nil sep cs)
  refine ⟨part, parts, hparts, ?_⟩
  rw [splitChars, if_neg hc, hparts]

theorem splitChars_concat (hc : c ≠ sep) (cs : List Char) :
    ∃ parts part, splitChars sep cs = parts ++ [part] ∧ splitChars sep (cs ++ [c]) = parts ++ [part ++ [c]] := by
  induction cs with
  | nil => exact ⟨[], [], rfl, splitChars_of_notMem (by simpa using Ne.symm hc)⟩
  | cons x cs ih =>
    obtain ⟨parts, part, hparts, hconcat⟩ := ih
    by_cases hx : x = sep
    · refine ⟨[] :: parts, part, ?_, ?_⟩
      · rw [splitChars, if_pos hx, hparts, cons_append]
      · rw [cons_append, splitChars, if_pos hx, hconcat, cons_append]
    · rw [cons_append, splitChars, if_neg hx, hparts, splitChars, if_neg hx, hconcat]
      cases parts with
      | nil => exact ⟨[], x :: part, rfl, rfl⟩
      | cons first parts => exact ⟨(x :: first) :: parts, part, rfl, rfl⟩

theorem map_trimChars_splitChars_dropWhile (hsep : isBlank sep = false) (cs : List Char) :
    (splitChars sep (cs.dropWhile isBlank)).map trimChars = (splitChars sep cs).map trimChars := by
  induction cs with
  | nil => rfl
  | cons c cs ih =>
    by_cases hc : isBlank c = true
    · have hne : c ≠ sep := by
        rintro rfl
        rw [hc] at hsep
        cases hsep
      obtain ⟨part, parts, hparts, hcons⟩ := splitChars_cons hne cs
      rw [dropWhile_cons_of_pos hc, ih, hparts, hcons, map_cons, map_cons, trimChars_cons_blank hc]
    · rw [dropWhile_cons_of_neg hc]

theorem map_trimChars_splitChars_rdropWhile (hsep : isBlank sep = false) (cs : List Char) :
    (splitChars sep (cs.rdropWhile isBlank)).map trimChars = (splitChars sep cs).map trimChars := by
  induction cs using reverseRecOn with
  | nil => rfl
  | append_singleton cs c ih =>
    by_cases hc : isBlank c = true
    · have hne : c ≠ sep := by
        rintro rfl
        rw [hc] at hsep
        cases hsep
      obtain ⟨parts, part, hparts, hconcat⟩ := splitChars_concat hne cs
      rw [rdropWhile_concat_pos _ _ _ hc, ih, hparts, hconcat, map_append, map_append,
        map_singleton, map_singleton, trimChars_concat_blank hc]
    · rw [rdropWhile_concat_neg _ _ _ hc]

theorem trimmedParts_trim (hsep : isBlank sep = false) (s : String) :
    trimmedParts sep (trim s) = trimmedParts sep s := by
  have hmap : ∀ s : String, (split sep s).map trim = ((splitChars sep s.toList).map trimChars).map String.ofList := by
    simp [split, trim]
  rw [trimmedParts, trimmedParts, hmap, hmap, trim, String.toList_ofList, trimChars_eq,
    map_trimChars_splitChars_rdropWhile hsep, map_trimChars_splitChars_dropWhile hsep]

/-! ## Items as parts of a text -/

variable {α : Type} {writes : α → String → Prop} {items : List α} {parts : List String}

/-- Each item is written as a part, and there are any parts of white space between them. -/
inductive Parts (writes : α → String → Prop) : List α → List String → Prop where
  | nil : Parts writes [] []
  | blank {items : List α} {parts : List String} (part : String) :
    IsBlankText part → Parts writes items parts → Parts writes items (part :: parts)
  | item {items : List α} {parts : List String} (a : α) (part : String) :
    writes a part → Parts writes items parts → Parts writes (a :: items) (part :: parts)

/-- A text that has the items in any order, with separators between them and any empty parts. -/
def Lists (writes : α → String → Prop) (sep : Char) (items : List α) (text : String) : Prop :=
  ∃ order parts, order.Perm items ∧ Parts writes order parts ∧ text = (String.singleton sep).intercalate parts

theorem Parts.notMem (h : Parts writes items parts) (hsep : isBlank sep = false)
    (hwrites : ∀ a ∈ items, ∀ part, writes a part → sep ∉ part.toList) : ∀ part ∈ parts, sep ∉ part.toList := by
  induction h with
  | nil => exact fun part hpart => absurd hpart not_mem_nil
  | blank part hblank _ ih =>
    intro p hp
    rcases mem_cons.mp hp with rfl | hp
    · exact hblank.notMem hsep
    · exact ih hwrites p hp
  | item a part hpart _ ih =>
    intro p hp
    rcases mem_cons.mp hp with rfl | hp
    · exact hwrites a (.head _) p hpart
    · exact ih (fun b hb => hwrites b (.tail _ hb)) p hp

theorem Lists.notMem {text : String} (h : Lists writes sep items text) (hsep : c ≠ sep) (hc : isBlank c = false)
    (hwrites : ∀ a ∈ items, ∀ part, writes a part → c ∉ part.toList) : c ∉ text.toList := by
  obtain ⟨order, parts, hperm, hparts, rfl⟩ := h
  intro hmem
  rcases mem_intercalate hmem with hmem | ⟨part, hpart, hmem⟩
  · exact hsep (by simpa using hmem)
  · exact hparts.notMem hc (fun a ha => hwrites a (hperm.mem_iff.mp ha)) part hpart hmem

theorem Parts.forall₂_trimmed (h : Parts writes items parts)
    (hwrites : ∀ a ∈ items, ∀ part, writes a part → trim part ≠ "") :
    List.Forall₂ (fun a text => ∃ part, writes a part ∧ text = trim part) items ((parts.map trim).filter (· ≠ "")) := by
  induction h with
  | nil => exact .nil
  | blank part hblank _ ih =>
    rw [map_cons, hblank.trim_eq]
    exact ih hwrites
  | item a part hpart _ ih =>
    have hne := hwrites a (.head _) part hpart
    rw [map_cons, filter_cons_of_pos (by simpa using hne)]
    exact .cons ⟨part, hpart, rfl⟩ (ih fun b hb => hwrites b (.tail _ hb))

theorem Lists.forall₂_trimmedParts {text : String} (h : Lists writes sep items text) (hsep : isBlank sep = false)
    (hwrites : ∀ a ∈ items, ∀ part, writes a part → sep ∉ part.toList ∧ trim part ≠ "") :
    ∃ order, order.Perm items ∧
      List.Forall₂ (fun a text => ∃ part, writes a part ∧ text = trim part) order (trimmedParts sep text) := by
  obtain ⟨order, parts, hperm, hparts, rfl⟩ := h
  have hwrites' : ∀ a ∈ order, ∀ part, writes a part → sep ∉ part.toList ∧ trim part ≠ "" :=
    fun a ha => hwrites a (hperm.mem_iff.mp ha)
  refine ⟨order, hperm, ?_⟩
  cases parts with
  | nil =>
    -- the empty text has one part, which is empty
    cases hparts
    exact .nil
  | cons part parts =>
    have hnotMem := hparts.notMem hsep fun a ha part hpart => (hwrites' a ha part hpart).1
    rw [trimmedParts, split_intercalate (by simp) hnotMem]
    exact hparts.forall₂_trimmed fun a ha part hpart => (hwrites' a ha part hpart).2

end LazyTensor.Text
