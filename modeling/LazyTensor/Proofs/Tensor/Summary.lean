import LazyTensor.Proofs.Exec
import LazyTensor.Proofs.Number.Text
import LazyTensor.Proofs.RowMajor
import LazyTensor.Session
import Mathlib.Data.List.MinMax
import Mathlib.Order.Nat

/-!
# What a summary shows

The text of a summary is read back into groups of words, one group for each pair of braces. The words are compared
with the elements at the indices that are among the first or the last three on each long axis, and the groups with
the axes.
-/

namespace LazyTensor.Summary

/-! ## Reading a text with braces -/

/-- What is read of a text. -/
inductive Tree where
  | word (chars : List Char)
  | group (items : List Tree)

inductive Token where
  | opening
  | closing
  | word (chars : List Char)

/-- The characters of words. Braces, commas and white space are between words. -/
def isPlain (c : Char) : Bool := c != '\x7b' && c != '\x7d' && c != ',' && c != ' ' && c != '\n'

/-- The word that ends here, if there is one. -/
def endWord (word : List Char) : List Token := if word = [] then [] else [.word word]

/-- The words and braces of a text, after the start of a word. -/
def scan (word : List Char) : List Char → List Token
  | [] => endWord word
  | c :: cs =>
    if isPlain c then scan (word ++ [c]) cs
    else if c = '\x7b' then endWord word ++ .opening :: scan [] cs
    else if c = '\x7d' then endWord word ++ .closing :: scan [] cs
    else endWord word ++ scan [] cs

/-- The groups that are open, the innermost one first, and each with its items from the last one on. -/
abbrev Groups := List (List Tree)

/-- A closing brace needs a group to close. -/
def step : Groups → Token → Option Groups
  | groups, .opening => some ([] :: groups)
  | items :: outer :: groups, .closing => some ((.group items.reverse :: outer) :: groups)
  | items :: groups, .word w => some ((.word w :: items) :: groups)
  | _, _ => none

/-- The words and groups of a text in which the braces are balanced. -/
def read (text : String) : Option (List Tree) :=
  match (scan [] text.toList).foldlM step [[]] with
  | some [items] => some items.reverse
  | _ => none

/-! ## Words -/

/-- The mark of an elision. -/
def mark : List Char := ['.', '.', '.']

/-- A word in which there is no mark. -/
structure IsWord (cs : List Char) : Prop where
  ne_nil : cs ≠ []
  plain : ∀ c ∈ cs, isPlain c = true
  points : cs.count '.' ≤ 1

variable {cs rest : List Char}

theorem IsWord.not_mark (h : IsWord cs) : ¬ mark <:+: cs := by
  intro hinfix
  have hle := hinfix.sublist.count_le '.'
  have hpoints : mark.count '.' = 3 := by decide
  have := h.points
  omega

theorem IsWord.ne_mark (h : IsWord cs) : cs ≠ mark := by
  rintro rfl
  exact h.not_mark (List.infix_refl mark)

theorem IsWord.append {a : List Char} (h : IsWord cs) (ha : ∀ c ∈ a, isPlain c = true ∧ c ≠ '.') :
    IsWord (a ++ cs) := by
  have hpoints : a.count '.' = 0 := List.count_eq_zero_of_not_mem fun hmem => (ha '.' hmem).2 rfl
  refine ⟨by simp [h.ne_nil], fun c hc => ?_, ?_⟩
  · exact (List.mem_append.mp hc).elim (fun hc => (ha c hc).1) (h.plain c)
  · rw [List.count_append, hpoints, Nat.zero_add]
    exact h.points

theorem isPlain_of_isNumeralChar {c : Char} (h : isNumeralChar c = true) : isPlain c = true := by
  simp only [isPlain, Bool.and_eq_true, bne_iff_ne]
  refine ⟨⟨⟨⟨?_, ?_⟩, ?_⟩, ?_⟩, ?_⟩ <;> rintro rfl <;> exact absurd h (by decide)

theorem isWord_of_isNumeral (h : IsNumeral cs) : IsWord cs := by
  refine ⟨h.ne_nil, fun c hc => ?_, h.points⟩
  rcases h.chars c hc with hchar | rfl
  · exact isPlain_of_isNumeralChar hchar
  · decide

theorem isWord_elementText (t : ElementType) (data : Array t.Elem) (precision : Int) (index : Nat) :
    IsWord (elementText ⟨.element t, data⟩ precision index).toList := by
  simp only [elementText]
  split
  · exact isWord_of_isNumeral (t.isNumeral_elementText _ _)
  · rw [String.toList_append]
    refine (isWord_of_isNumeral (t.isNumeral_elementText _ _)).append ?_
    split <;> simp [isPlain]

theorem isWord_type (dims : List Int) (t : ElementType) :
    IsWord (String.join (dims.map fun d => s!"[{d}]") ++ t.scalarName).toList := by
  have hname : IsWord t.scalarName.toList := by
    refine ⟨?_, List.all_eq_true.mp ?_, ?_⟩ <;> cases t <;> decide
  rw [String.toList_append, String.toList_join]
  refine hname.append fun c hc => ?_
  obtain ⟨s, hs, hc⟩ := List.mem_flatMap.mp hc
  obtain ⟨d, -, rfl⟩ := List.mem_map.mp hs
  have hmem : c ∈ ("[" ++ toString d ++ "]").toList := hc
  rw [String.toList_append, String.toList_append, List.mem_append, List.mem_append] at hmem
  rcases hmem with (hmem | hmem) | hmem
  · rw [List.mem_singleton.mp hmem]
    decide
  · rcases Text.mem_toString hmem with hdigit | rfl
    · refine ⟨isPlain_of_isNumeralChar (isNumeralChar_of_isDigit hdigit), ?_⟩
      rintro rfl
      exact absurd hdigit (by decide)
    · decide
  · rw [List.mem_singleton.mp hmem]
    decide

/-! ## Texts that are read -/

/-- A word ends before the text, or at its end. -/
def Ends (rest : List Char) : Prop := ∀ c ∈ rest.head?, isPlain c = false

/-- The text is read as one item, whatever stands around it. -/
def Reads (cs : List Char) (tree : Tree) : Prop := ∀ rest items groups, Ends rest →
  (scan [] (cs ++ rest)).foldlM step (items :: groups) = (scan [] rest).foldlM step ((tree :: items) :: groups)

theorem scan_plain (h : ∀ c ∈ cs, isPlain c = true) (word : List Char) :
    scan word (cs ++ rest) = scan (word ++ cs) rest := by
  induction cs generalizing word with
  | nil => simp
  | cons c cs ih =>
    rw [List.cons_append, scan, if_pos (h c (.head _)), ih fun c' hc' => h c' (.tail _ hc'),
      List.append_assoc, List.singleton_append]

theorem scan_ends (h : Ends rest) (word : List Char) : scan word rest = endWord word ++ scan [] rest := by
  cases rest with
  | nil => simp [scan, endWord]
  | cons c rest =>
    have hc : ¬ isPlain c = true := by simp [h c rfl]
    have hnil : endWord [] = [] := rfl
    rw [scan, scan, if_neg hc, if_neg hc, hnil]
    by_cases hopen : c = '\x7b'
    · simp [hopen]
    · by_cases hclose : c = '\x7d'
      · simp [hclose]
      · simp [hopen, hclose]

theorem reads_word (h : ∀ c ∈ cs, isPlain c = true) (hne : cs ≠ []) : Reads cs (.word cs) := by
  intro rest items groups hrest
  rw [scan_plain h, List.nil_append, scan_ends hrest, endWord, if_neg hne]
  rfl

/-- A character between items. -/
def IsSeparator (c : Char) : Prop := c = ',' ∨ c = ' ' ∨ c = '\n'

theorem scan_separators (h : ∀ c ∈ cs, IsSeparator c) : scan [] (cs ++ rest) = scan [] rest := by
  induction cs with
  | nil => rfl
  | cons c cs ih =>
    rw [← ih fun c' hc' => h c' (.tail _ hc')]
    rcases h c (.head _) with rfl | rfl | rfl <;> rfl

theorem ends_separators (h : ∀ c ∈ cs, IsSeparator c) (hne : cs ≠ []) : Ends (cs ++ rest) := by
  obtain ⟨c, cs, rfl⟩ := List.exists_cons_of_ne_nil hne
  intro c' hc'
  obtain rfl : c = c' := Option.some.inj hc'
  rcases h c (.head _) with rfl | rfl | rfl <;> rfl

theorem reads_intercalate {α : Type} {items : List α} {text : α → List Char} {tree : α → Tree} {sep : List Char}
    (h : ∀ item ∈ items, Reads (text item) (tree item)) (hsep : ∀ c ∈ sep, IsSeparator c) (hne : sep ≠ [])
    (hrest : Ends rest) (before : List Tree) (groups : Groups) :
    (scan [] (sep.intercalate (items.map text) ++ rest)).foldlM step (before :: groups) =
      (scan [] rest).foldlM step (((items.map tree).reverse ++ before) :: groups) := by
  induction items generalizing before with
  | nil => rfl
  | cons item items ih =>
    have hitem := h item (.head _)
    cases items with
    | nil =>
      rw [List.map_singleton, List.intercalate_singleton]
      exact hitem rest before groups hrest
    | cons next items =>
      have hnext := ih (fun i hi => h i (.tail _ hi)) (tree item :: before)
      rw [List.map_cons] at hnext ⊢
      rw [List.map_cons, List.intercalate_cons_cons, List.append_assoc, List.append_assoc,
        hitem _ before groups (ends_separators hsep hne), scan_separators hsep, hnext]
      simp

theorem reads_group {α : Type} {items : List α} {text : α → List Char} {tree : α → Tree} {sep space : List Char}
    (h : ∀ item ∈ items, Reads (text item) (tree item)) (hsep : ∀ c ∈ sep, IsSeparator c) (hne : sep ≠ [])
    (hspace : ∀ c ∈ space, IsSeparator c) :
    Reads ('\x7b' :: space ++ sep.intercalate (items.map text) ++ ['\x7d']) (.group (items.map tree)) := by
  intro rest before groups hrest
  have hopen : ∀ cs, scan [] ('\x7b' :: cs) = .opening :: scan [] cs := fun _ => rfl
  have hends : Ends ('\x7d' :: rest) := by
    rintro c hc
    obtain rfl := Option.some.inj hc
    rfl
  rw [List.append_assoc, List.append_assoc, List.singleton_append, List.cons_append, hopen, scan_separators hspace]
  show (scan [] _).foldlM step ([] :: before :: groups) = _
  rw [reads_intercalate h hsep hne hends, List.append_nil]
  show (scan [] rest).foldlM step ((.group (items.map tree).reverse.reverse :: before) :: groups) = _
  rw [List.reverse_reverse]

theorem read_eq {w : List Char} {tree : Tree} {text : String} (hplain : ∀ c ∈ w, isPlain c = true) (hne : w ≠ [])
    (h : Reads cs tree) (hcs : Ends cs) (htext : text.toList = w ++ cs) : read text = some [.word w, tree] := by
  have hword := reads_word hplain hne cs [] [] hcs
  have htree := h [] [.word w] [] nofun
  rw [List.append_nil] at htree
  rw [read, htext, hword, htree]
  rfl

/-! ## Groups, elements and marks -/

namespace Tree

/-- How deep the groups are nested. -/
def depth : Tree → Nat
  | .word _ => 0
  | .group items => (items.attach.map fun ⟨item, _⟩ => item.depth).foldr max 0 + 1

def isMark : Tree → Bool
  | .word w => w == mark
  | .group _ => false

/-- The words other than the mark, in order. -/
def elements : Tree → List (List Char)
  | .word w => if w = mark then [] else [w]
  | .group items => items.attach.flatMap fun ⟨item, _⟩ => item.elements

/-- There is a group for each part of an axis, with one mark in it if the axis has more than six entries. No word below
the last axis has a mark in it. -/
def Elides : List Int → Tree → Prop
  | [], .word w => ¬ mark <:+: w
  | d :: dims, .group items =>
    items.countP isMark = (if 6 < d then 1 else 0) ∧ ∀ item ∈ items, item.isMark = false → item.Elides dims
  | _, _ => False

@[simp] theorem depth_group (items : List Tree) : (group items).depth = (items.map depth).foldr max 0 + 1 := by
  simp [depth]

@[simp] theorem elements_group (items : List Tree) : (group items).elements = items.flatMap elements := by
  simp [elements]

theorem elements_mark : (word mark).elements = [] := by
  rw [elements, if_pos rfl]

end Tree

/-! ## Positions on an axis -/

/-- A position is shown if it is one of the first or the last three on a long axis. -/
def Shown (d x : Int) : Prop := d ≤ 6 ∨ x < 3 ∨ d - 3 ≤ x

theorem some_mem_visible {d : Int} (hd : 0 < d) {i : Nat} : some i ∈ visible d.toNat ↔ (i : Int) < d ∧ Shown d i := by
  have hedge : edge = 3 := rfl
  rw [visible, Shown]
  by_cases hshort : d.toNat ≤ 2 * edge
  · rw [if_pos hshort]
    simp only [List.mem_map, List.mem_range, Option.some.injEq, exists_eq_right]
    omega
  · rw [if_neg hshort]
    simp only [List.mem_append, List.mem_map, List.mem_range, List.mem_singleton, reduceCtorEq, Option.some.injEq]
    constructor
    · rintro ((⟨j, hj, rfl⟩ | hnone) | ⟨j, hj, rfl⟩)
      · omega
      · exact hnone.elim
      · omega
    · rintro ⟨hlt, hle | hfirst | hlast⟩
      · omega
      · exact .inl (.inl ⟨i, by omega, rfl⟩)
      · exact .inr ⟨i - (d.toNat - edge), by omega, by omega⟩

theorem countP_visible {d : Int} (hd : 0 < d) :
    (visible d.toNat).countP Option.isNone = if 6 < d then 1 else 0 := by
  have hedge : edge = 3 := rfl
  rw [visible]
  by_cases hshort : d.toNat ≤ 2 * edge
  · rw [if_pos hshort, if_neg (by omega)]
    simp
  · rw [if_neg hshort, if_pos (by omega)]
    simp [Function.comp_def]

theorem pairwise_visible (n : Nat) : (visible n).Pairwise fun a b => ∀ i ∈ a, ∀ j ∈ b, i < j := by
  have hmap : ∀ (m : Nat) (f : Nat → Nat), (∀ i j, i < j → f i < f j) →
      ((List.range m).map fun i => some (f i)).Pairwise fun a b => ∀ i ∈ a, ∀ j ∈ b, i < j := by
    intro m f hf
    refine List.pairwise_map.mpr (List.pairwise_lt_range.imp fun {i j} hlt => ?_)
    simpa using hf i j hlt
  rw [visible]
  split
  · exact hmap n id fun _ _ h => h
  · refine List.pairwise_append.mpr ⟨List.pairwise_append.mpr ⟨hmap edge id fun _ _ h => h, by simp, by simp⟩,
      hmap edge (n - edge + ·) fun i j h => Nat.add_lt_add_left h _, ?_⟩
    intro a ha b hb i hi j hj
    obtain ⟨k, hk, rfl⟩ := List.mem_map.mp hb
    obtain rfl : n - edge + k = j := by simpa using hj
    simp only [List.mem_append, List.mem_map, List.mem_range, List.mem_singleton] at ha
    rcases ha with ⟨l, hl, rfl⟩ | rfl
    · obtain rfl : l = i := by simpa using hi
      omega
    · cases hi

/-! ## Flat indices -/

/-- The flat indices that are shown of a part of the data, from the first one on. -/
def places : List Int → Nat → List Nat
  | [], offset => [offset]
  | d :: dims, offset => (visible d.toNat).flatMap fun
    | none => []
    | some i => places dims (offset + i * dims.prod.toNat)

variable {dims : List Int} {offset : Nat}

/-- The places are those of the indices that are shown. -/
theorem mem_places (hpos : ∀ d ∈ dims, 0 < d) {n : Nat} : n ∈ places dims offset ↔
    ∃ index, IsIndex dims index ∧ List.Forall₂ Shown dims index ∧ (n : Int) = offset + rowMajor dims index := by
  induction dims generalizing offset with
  | nil =>
    rw [places, List.mem_singleton]
    constructor
    · rintro rfl
      exact ⟨[], .nil, .nil, by simp [rowMajor]⟩
    · rintro ⟨index, hindex, -, hn⟩
      simp only [rowMajor] at hn
      omega
  | cons d dims ih =>
    have hd : 0 < d := hpos d (.head _)
    have hpos' : ∀ d' ∈ dims, 0 < d' := fun d' hd' => hpos d' (.tail _ hd')
    have hprod : (dims.prod.toNat : Int) = dims.prod := Int.toNat_of_nonneg (Int.le_of_lt (prod_pos hpos'))
    rw [places, List.mem_flatMap]
    constructor
    · rintro ⟨entry, hentry, hn⟩
      -- an elision stands for no place
      cases entry with
      | none => cases hn
      | some i =>
        obtain ⟨hlt, hshown⟩ := (some_mem_visible hd).mp hentry
        obtain ⟨index, hindex, hall, hn⟩ := (ih hpos').mp hn
        refine ⟨i :: index, .cons ⟨Int.natCast_nonneg i, hlt⟩ hindex, .cons hshown hall, ?_⟩
        rw [hn, rowMajor]
        push_cast
        rw [hprod, Int.add_assoc]
    · rintro ⟨index, hindex, hall, hn⟩
      cases hindex with
      | @cons _ x _ index hx hindex =>
        obtain ⟨i, rfl⟩ := Int.eq_ofNat_of_zero_le hx.1
        cases hall with
        | cons hshown hall =>
          refine ⟨some i, (some_mem_visible hd).mpr ⟨hx.2, hshown⟩, (ih hpos').mpr ⟨index, hindex, hall, ?_⟩⟩
          rw [hn, rowMajor]
          push_cast
          rw [hprod, Int.add_assoc]

theorem places_bounds (hpos : ∀ d ∈ dims, 0 < d) {n : Nat} (hn : n ∈ places dims offset) :
    offset ≤ n ∧ n < offset + dims.prod.toNat := by
  obtain ⟨index, hindex, -, hn⟩ := (mem_places hpos).mp hn
  have hbounds := rowMajor_bounds hindex
  omega

theorem pairwise_places (hpos : ∀ d ∈ dims, 0 < d) : (places dims offset).Pairwise (· < ·) := by
  induction dims generalizing offset with
  | nil => exact List.pairwise_singleton ..
  | cons d dims ih =>
    have hpos' : ∀ d' ∈ dims, 0 < d' := fun d' hd' => hpos d' (.tail _ hd')
    refine List.pairwise_flatMap.mpr ⟨fun entry _ => ?_, (pairwise_visible d.toNat).imp fun {a b} hlt => ?_⟩
    · cases entry with
      | none => exact .nil
      | some i => exact ih hpos'
    · intro m hm n hn
      cases a with
      | none => cases hm
      | some i =>
        cases b with
        | none => cases hn
        | some j =>
          have hi := places_bounds hpos' hm
          have hj := places_bounds hpos' hn
          -- the part at a position ends where the next one starts
          have hle : (i + 1) * dims.prod.toNat ≤ j * dims.prod.toNat := Nat.mul_le_mul_right _ (hlt i rfl j rfl)
          rw [Nat.add_one_mul] at hle
          omega

/-! ## Parts of the data -/

/-- What is read of the text of an item. -/
def Item.tree (value : Nat → String) : Item → Tree
  | .value index => .word (value index).toList
  | .elided => .word mark
  | .group items => .group (items.attach.map fun ⟨item, _⟩ => item.tree value)

theorem Item.tree_group (value : Nat → String) (items : List Item) :
    (group items).tree value = .group (items.map (tree value)) := by
  simp [tree]

theorem Item.text_group (value : Nat → String) (rank axis : Nat) (items : List Item) :
    (group items).text value rank axis =
      opening axis rank ++ (separator axis rank).intercalate (items.map (text value rank (axis + 1))) ++ "\x7d" := by
  simp [text]

/-- The item shows the part of the data that starts at an offset. -/
structure Shows (value : Nat → String) (dims : List Int) (offset : Nat) (item : Item) : Prop where
  reads : ∀ rank axis, Reads (item.text value rank axis).toList (item.tree value)
  depth_eq : (item.tree value).depth = dims.length
  elides : (item.tree value).Elides dims
  elements_eq : (item.tree value).elements = (places dims offset).map fun index => (value index).toList

/-- The item shows an entry of an axis. -/
def ShowsEntry (value : Nat → String) (dims : List Int) (offset : Nat) : Option Nat → Item → Prop
  | none, item => item = .elided
  | some i, item => Shows value dims (offset + i * dims.prod.toNat) item

variable {value : Nat → String} {items : List Item} {item : Item} {d : Int} {entry : Option Nat}

theorem Tree.Elides.isMark_eq {tree : Tree} (h : tree.Elides dims) : tree.isMark = false := by
  cases tree with
  | group items => rfl
  | word w =>
    cases dims with
    | cons d dims => exact h.elim
    | nil =>
      refine beq_false_of_ne fun heq => h ?_
      exact heq ▸ List.infix_refl mark

theorem shows_value (h : IsWord (value offset).toList) : Shows value [] offset (.value offset) := by
  refine ⟨fun rank axis => ?_, ?_, ?_, ?_⟩
  · rw [Item.text, Item.tree]
    exact reads_word h.plain h.ne_nil
  · rw [Item.tree, Tree.depth, List.length_nil]
  · rw [Item.tree]
    exact h.not_mark
  · rw [Item.tree, Tree.elements, if_neg h.ne_mark]
    rfl

namespace ShowsEntry

section

variable (h : ShowsEntry value dims offset entry item)

include h

theorem reads (rank axis : Nat) : Reads (item.text value rank axis).toList (item.tree value) := by
  cases entry with
  | some i => exact Shows.reads h rank axis
  | none =>
    obtain rfl : item = .elided := h
    rw [Item.text, Item.tree]
    exact reads_word (List.all_eq_true.mp (by decide)) (by decide)

theorem isMark_eq : (item.tree value).isMark = entry.isNone := by
  cases entry with
  | some i => exact (Shows.elides h).isMark_eq
  | none =>
    obtain rfl : item = .elided := h
    rw [Item.tree]
    rfl

theorem depth_le : (item.tree value).depth ≤ dims.length := by
  cases entry with
  | some i => exact Nat.le_of_eq (Shows.depth_eq h)
  | none =>
    obtain rfl : item = .elided := h
    rw [Item.tree, Tree.depth]
    exact Nat.zero_le _

theorem elides (hmark : (item.tree value).isMark = false) : (item.tree value).Elides dims := by
  rw [h.isMark_eq] at hmark
  cases entry with
  | some i => exact Shows.elides h
  | none => cases hmark

end

theorem flatMap_elements {entries : List (Option Nat)}
    (h : List.Forall₂ (ShowsEntry value dims offset) entries items) :
    (items.map (Item.tree value)).flatMap Tree.elements = (entries.flatMap fun
      | none => []
      | some i => places dims (offset + i * dims.prod.toNat)).map fun index => (value index).toList := by
  induction h with
  | nil => rfl
  | @cons entry item entries items hentry _ ih =>
    rw [List.map_cons, List.flatMap_cons, List.flatMap_cons, List.map_append]
    congr 1
    cases entry with
    | some i => exact Shows.elements_eq hentry
    | none =>
      obtain rfl : item = .elided := hentry
      rw [Item.tree, Tree.elements_mark]
      rfl

theorem countP_isMark {entries : List (Option Nat)}
    (h : List.Forall₂ (ShowsEntry value dims offset) entries items) :
    (items.map (Item.tree value)).countP Tree.isMark = entries.countP Option.isNone := by
  induction h with
  | nil => rfl
  | cons hentry _ ih => rw [List.map_cons, List.countP_cons, List.countP_cons, ih, hentry.isMark_eq]

end ShowsEntry

theorem toList_opening (axis rank : Nat) :
    ∃ space, (opening axis rank).toList = '\x7b' :: space ∧ ∀ c ∈ space, IsSeparator c := by
  rw [opening]
  split
  · exact ⟨['\n', ' '], by decide, by simp [IsSeparator]⟩
  · exact ⟨[], by decide, nofun⟩

theorem toList_separator (axis rank : Nat) :
    (separator axis rank).toList ≠ [] ∧ ∀ c ∈ (separator axis rank).toList, IsSeparator c := by
  have hblanks : ∀ n, ("".pushn ' ' n).toList = List.replicate n ' ' := by
    intro n
    induction n with
    | zero => rfl
    | succ n ih =>
      rw [List.replicate_succ', ← ih]
      exact String.toList_push ' '
  rw [separator]
  split
  · exact ⟨by decide, by simp [IsSeparator]⟩
  · rw [String.toList_append, hblanks]
    refine ⟨by simp, fun c hc => ?_⟩
    rcases List.mem_append.mp hc with hc | hc
    · have hc : c = ',' ∨ c = '\n' := by simpa using hc
      exact hc.elim .inl fun h => .inr (.inr h)
    · exact .inr (.inl (List.mem_replicate.mp hc).2)

theorem shows_group (hd : 0 < d) (h : List.Forall₂ (ShowsEntry value dims offset) (visible d.toNat) items) :
    Shows value (d :: dims) offset (.group items) := by
  have hentry : ∀ item ∈ items, ∃ entry, ShowsEntry value dims offset entry item := by
    intro item hitem
    obtain ⟨i, hi, rfl⟩ := List.mem_iff_getElem.mp hitem
    exact ⟨_, (List.forall₂_iff_get.mp h).2 i (h.length_eq ▸ hi) hi⟩
  refine ⟨fun rank axis => ?_, ?_, ?_, ?_⟩
  · obtain ⟨space, hopening, hspace⟩ := toList_opening axis rank
    obtain ⟨hne, hsep⟩ := toList_separator axis rank
    rw [Item.text_group, Item.tree_group, String.toList_append, String.toList_append, String.toList_intercalate,
      List.map_map, hopening]
    refine reads_group (fun item hitem => ?_) hsep hne hspace
    obtain ⟨entry, hentry⟩ := hentry item hitem
    exact hentry.reads rank (axis + 1)
  · rw [Item.tree_group, Tree.depth_group, List.map_map]
    congr 1
    apply Nat.le_antisymm
    · refine List.max_le_of_forall_le _ _ fun n hn => ?_
      obtain ⟨item, hitem, rfl⟩ := List.mem_map.mp hn
      obtain ⟨entry, hentry⟩ := hentry item hitem
      exact hentry.depth_le
    · -- the first position is always shown
      have hfirst : some 0 ∈ visible d.toNat := (some_mem_visible hd).mpr ⟨hd, .inr (.inl (by decide))⟩
      obtain ⟨i, hi, hget⟩ := List.mem_iff_getElem.mp hfirst
      have hi' : i < items.length := h.length_eq ▸ hi
      have hshows := (List.forall₂_iff_get.mp h).2 i hi hi'
      rw [List.get_eq_getElem, hget] at hshows
      exact List.le_max_of_le (List.mem_map_of_mem (List.getElem_mem hi')) (Nat.le_of_eq (Shows.depth_eq hshows).symm)
  · rw [Item.tree_group]
    refine ⟨(ShowsEntry.countP_isMark h).trans (countP_visible hd), fun tree htree hmark => ?_⟩
    obtain ⟨item, hitem, rfl⟩ := List.mem_map.mp htree
    obtain ⟨entry, hentry⟩ := hentry item hitem
    exact hentry.elides hmark
  · rw [Item.tree_group, Tree.elements_group, ShowsEntry.flatMap_elements h, places]

theorem exists_mapM {α β ε : Type} {f : α → Except ε β} {P : α → β → Prop} {l : List α}
    (h : ∀ x ∈ l, ∃ y, f x = .ok y ∧ P x y) : ∃ ys, l.mapM f = .ok ys ∧ List.Forall₂ P l ys := by
  induction l with
  | nil => exact ⟨[], rfl, .nil⟩
  | cons x l ih =>
    obtain ⟨y, hy, hP⟩ := h x (.head _)
    obtain ⟨ys, hys, hall⟩ := ih fun x' hx' => h x' (.tail _ hx')
    refine ⟨y :: ys, ?_, .cons hP hall⟩
    rw [List.mapM_cons, hy, hys]
    rfl

theorem wrap64_start {size n i : Nat} (hend : offset + i * n + n ≤ size) (hword : (size : Int) < wordLimit) :
    wrap64 ((offset : Int) + i * n) = (offset + i * n : Nat) := by
  refine wrap64_eq_self (Int.le_trans (by decide) (Int.natCast_nonneg (offset + i * n))) ?_
  exact Int.lt_of_le_of_lt (Int.ofNat_le.mpr (Nat.le_trans (Nat.le_add_right _ n) hend)) hword

/-- An outline shows the elements at the ends of each axis. -/
theorem shows_outline {size : Nat} (hpos : ∀ d ∈ dims, 0 < d) (hstop : offset + dims.prod.toNat ≤ size)
    (hword : (size : Int) < wordLimit) (hvalue : ∀ index, IsWord (value index).toList) :
    ∃ item, outline size dims offset = .ok item ∧ Shows value dims offset item := by
  induction dims generalizing offset with
  | nil =>
    have hlt : offset < size := hstop
    exact ⟨.value offset, if_pos ⟨Int.natCast_nonneg offset, Int.ofNat_lt.mpr hlt⟩, shows_value (hvalue offset)⟩
  | cons d dims ih =>
    have hd : 0 < d := hpos d (.head _)
    have hpos' : ∀ d' ∈ dims, 0 < d' := fun d' hd' => hpos d' (.tail _ hd')
    obtain ⟨n, hn⟩ := Int.eq_ofNat_of_zero_le (Int.le_of_lt (prod_pos hpos'))
    rw [List.prod_cons, Int.toNat_mul (Int.le_of_lt hd) (Int.le_of_lt (prod_pos hpos')), hn, Int.toNat_natCast] at hstop
    have hentry : ∀ entry ∈ visible d.toNat, ∃ item, (match entry with
        | none => Except.ok Item.elided
        | some i => outline size dims (wrap64 (offset + i * dims.foldl (· * ·) 1))) = .ok item ∧
          ShowsEntry value dims offset entry item := by
      intro entry hentry
      cases entry with
      | none => exact ⟨.elided, rfl, rfl⟩
      | some i =>
        have hi : i < d.toNat := by
          have := ((some_mem_visible hd).mp hentry).1
          omega
        -- the part at the position ends within the data
        have hmul : (i + 1) * n ≤ d.toNat * n := Nat.mul_le_mul_right n hi
        rw [Nat.add_one_mul] at hmul
        have hend : offset + i * n + n ≤ size := by omega
        have hstart : wrap64 (offset + i * dims.foldl (· * ·) 1) = (offset + i * n : Nat) := by
          rw [← List.prod_eq_foldl, hn]
          exact wrap64_start hend hword
        rw [hn] at ih
        obtain ⟨item, hitem, hshows⟩ := ih hpos' hend
        refine ⟨item, ?_, ?_⟩
        · simp only [hstart]
          exact hitem
        · show Shows value dims (offset + i * dims.prod.toNat) item
          rwa [hn]
    obtain ⟨items, hitems, hall⟩ := exists_mapM hentry
    refine ⟨.group items, ?_, shows_group hd hall⟩
    rw [outline, if_neg (by omega)]
    exact congrArg (Except.map Item.group) hitems

/-! ## The text of a summary -/

theorem ends_text_of_elides (h : (item.tree value).Elides (d :: dims)) (rank axis : Nat) :
    Ends (item.text value rank axis).toList := by
  cases item with
  | value index | elided =>
    rw [Item.tree] at h
    exact h.elim
  | group items =>
    obtain ⟨space, hopening, -⟩ := toList_opening axis rank
    rw [Item.text_group, String.toList_append, String.toList_append, hopening]
    intro c hc
    obtain rfl := Option.some.inj hc
    rfl

theorem exists_text {shape : Shape} {flat : Flat} (hsize : (flat.size : Int) = shape.dims.prod)
    (hrank : shape.dims ≠ []) (hpos : ∀ d ∈ shape.dims, 0 < d) (hsmall : shape.dims.prod < wordLimit) (precision : Int) :
    ∃ (summary : String) (header : List Char) (item : Item), text shape flat precision = .ok summary ∧ IsWord header ∧
      read summary = some [.word header, item.tree (elementText flat precision)] ∧
      Shows (elementText flat precision) shape.dims 0 item := by
  obtain ⟨dtype, dims⟩ := shape
  obtain ⟨d, dims, rfl⟩ := List.exists_cons_of_ne_nil hrank
  have hprod := prod_pos hpos
  obtain ⟨type, data⟩ := flat
  cases type with
  | inert type =>
    rw [Flat.size_inert] at hsize
    omega
  | element type =>
    have hstop : 0 + (d :: dims).prod.toNat ≤ data.size := by
      have hsize : (data.size : Int) = (d :: dims).prod := hsize
      omega
    have hvalue := isWord_elementText type data precision
    obtain ⟨item, hitem, hshows⟩ := shows_outline hpos hstop (hsize ▸ hsmall) hvalue
    have hheader := isWord_type (d :: dims) type
    refine ⟨_, _, item, congrArg (Except.map _) hitem, hheader, ?_, hshows⟩
    exact read_eq hheader.plain hheader.ne_nil (hshows.reads _ 0) (ends_text_of_elides hshows.elides _ 0)
      String.toList_append

end LazyTensor.Summary

namespace LazyTensor.Tensor

theorem shape_of_read {t t' : Tensor} {p p' : Platform} {flat : Flat} (h : exec t.read p = (.ok (flat, t'), p')) :
    t'.shape = t.shape := by
  rw [read] at h
  split at h
  · obtain ⟨rfl, rfl⟩ := Prod.mk.inj (Except.ok.inj (congrArg Prod.fst h))
    rfl
  · by_cases hok : (!t.ok) = true
    · rw [if_pos hok] at h
      cases h
    · rw [if_neg hok] at h
      cases hdata : t.data with
      | none =>
        simp only [hdata] at h
        cases h
      | some held =>
        cases hstorage : t.shape.dtype.storage? with
        | none =>
          simp only [hdata, hstorage] at h
          cases h
        | some type =>
          simp only [hdata, hstorage] at h
          obtain ⟨payload, q, -, hlast⟩ := exec_bind_eq_ok h
          obtain ⟨rfl, rfl⟩ := Prod.mk.inj (Except.ok.inj (congrArg Prod.fst hlast))
          rfl

end LazyTensor.Tensor
