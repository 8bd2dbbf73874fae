import LazyTensor.Proofs.Graph.Rules
import LazyTensor.Proofs.Shader.Launch
import LazyTensor.Proofs.Shader.Parameters
import LazyTensor.Proofs.Size

/-!
# Launch grids

A kernel is launched with a grid of workgroups. An invocation has a place in the grid, and from it and the parameters it
finds its number, modulo `2 ^ 32`. It ends there unless its number is below the number of elements. The rows of a grid
are as long as its stride, and all rows together are at least as long as the output: so every element has an invocation,
and exactly one if the whole grid has no more invocations than there are words.
-/

namespace LazyTensor.Shader

/-! ## Ceilings -/

section

variable {n w k : Int}

/-- The least number of blocks of some length that hold all. -/
def blocks (n w : Int) : Int := (n + w - 1) / w

theorem le_blocks_mul (hw : 0 < w) : n ≤ blocks n w * w := by
  have hlt := Int.lt_ediv_add_one_mul_self (n + w - 1) hw
  rw [blocks]
  rw [Int.add_mul] at hlt
  omega

theorem blocks_le (hw : 0 < w) (h : n ≤ k * w) : blocks n w ≤ k := by
  have hlt : blocks n w < k + 1 := by
    apply Int.ediv_lt_of_lt_mul hw
    rw [Int.add_mul]
    omega
  omega

theorem one_le_blocks (hw : 0 < w) (hn : 1 ≤ n) : 1 ≤ blocks n w := by
  exact Int.le_ediv_of_mul_le hw (by omega)

end

/-! ## The grid -/

theorem exists_grid (n : Int) {w : Int} (hw : w ≠ 0) : ∃ g, grid? n w = some g := by
  simp only [grid?, hw, if_false]
  split <;> exact ⟨_, rfl⟩

theorem tdiv_eq_blocks {n w : Int} (hn : 1 ≤ n) (hlt : n < 2 ^ 32) (hw : 1 ≤ w) (hle : w ≤ 65535) :
    (wrap64 (n + w - 1)).tdiv w = blocks n w := by
  have hself : wrap64 (n + w - 1) = n + w - 1 := wrap64_eq_self (by rw [wordLimit]; omega) (by rw [wordLimit]; omega)
  rw [hself, Int.tdiv_eq_ediv_of_nonneg (by omega), blocks]

/-- The rows have the length of the stride, and all rows together hold all invocations. -/
structure Grid.Covers (g : Grid) (n w : Int) : Prop where
  x_pos : 1 ≤ g.x.toNat
  x_le : g.x.toNat ≤ 65535
  y_pos : 1 ≤ g.y.toNat
  y_le : n ≤ 65535 * 65535 * w → g.y.toNat ≤ 65535
  stride : (g.stride.toNat : Int) = g.x.toNat * w
  le : n ≤ g.y.toNat * g.stride.toNat

theorem word_natCast {n : Int} (hn : 0 ≤ n) (hlt : n < 4294967296) : ((word n).toNat : Int) = n := by
  rw [word_toNat hn hlt, Int.toNat_of_nonneg hn]

section

variable {n w : Int}

theorem covers_row (hn : n ≤ blocks n w * w) (hone : 1 ≤ blocks n w) (hrow : blocks n w ≤ 65535) (hw : 1 ≤ w)
    (hle : w ≤ 256) : Grid.Covers ⟨word (blocks n w), 1, word (blocks n w * w)⟩ n w := by
  -- a row has fewer than `2 ^ 24` invocations, so both words are the numbers themselves
  have hlength : blocks n w * w ≤ 65535 * 256 := Int.mul_le_mul hrow hle (by omega) (by decide)
  have hlength' : 0 ≤ blocks n w * w := Int.mul_nonneg (by omega) (by omega)
  have hx := word_natCast (n := blocks n w) (by omega) (by omega)
  have hstride := word_natCast hlength' (by omega)
  have hy : (1 : UInt32).toNat = 1 := rfl
  constructor <;> simp only [hx, hy] <;> omega

theorem covers_rows (hn : n ≤ blocks n w * w) (hlt : blocks n w < 2 ^ 32) (hrows : 65535 < blocks n w) (hw : 1 ≤ w)
    (hle : w ≤ 256) :
    Grid.Covers ⟨word maxWorkgroups, word (blocks (blocks n w) 65535), word maxWorkgroups * word w⟩ n w := by
  have hself : blocks (blocks n w) 65535 ≤ blocks n w := blocks_le (by decide) (by omega)
  have hmul := le_blocks_mul (n := blocks n w) (by decide : (0 : Int) < 65535)
  have hx : ((word maxWorkgroups).toNat : Int) = 65535 := by decide
  have hy := word_natCast (n := blocks (blocks n w) 65535) (by omega) (by omega)
  have hw' := word_natCast (n := w) (by omega) (by omega)
  -- the stride is a product of words, which does not wrap around for workgroups of this size
  have hstride : ((word maxWorkgroups * word w).toNat : Int) = 65535 * w := by
    rw [UInt32.toNat_mul]
    push_cast
    rw [hx]
    omega
  constructor
  · show 1 ≤ (word maxWorkgroups).toNat
    omega
  · show (word maxWorkgroups).toNat ≤ 65535
    omega
  · show 1 ≤ (word (blocks (blocks n w) 65535)).toNat
    omega
  · intro hsmall
    have hworkgroups : blocks n w ≤ 65535 * 65535 := blocks_le (by omega) hsmall
    have hrows := blocks_le (by decide) hworkgroups
    show (word (blocks (blocks n w) 65535)).toNat ≤ 65535
    omega
  · rw [hstride, hx]
  · rw [hstride, hy]
    calc n ≤ blocks n w * w := hn
      _ ≤ blocks (blocks n w) 65535 * 65535 * w := Int.mul_le_mul_of_nonneg_right hmul (by omega)
      _ = blocks (blocks n w) 65535 * (65535 * w) := Int.mul_assoc ..

theorem grid?_spec (hn : 1 ≤ n) (hlt : n < 2 ^ 32) (hw : 1 ≤ w) (hle : w ≤ 256) :
    ∃ g, grid? n w = some g ∧ g.Covers n w := by
  have hone := one_le_blocks (by omega : 0 < w) hn
  have hself : blocks n w ≤ n := blocks_le (by omega) (by nlinarith)
  have hmul : n ≤ blocks n w * w := le_blocks_mul (by omega)
  have hworkgroups : max (wrap64 ((wrap64 (n + w - 1)).tdiv w)) 1 = blocks n w := by
    rw [tdiv_eq_blocks hn hlt hw (by omega), wrap64_eq_self (by rw [wordLimit]; omega) (by rw [wordLimit]; omega)]
    exact max_eq_left hone
  rw [grid?, if_neg (by omega : ¬ w = 0), hworkgroups]
  by_cases hrow : blocks n w ≤ maxWorkgroups
  · exact ⟨_, if_pos hrow, covers_row hmul hone hrow hw hle⟩
  · refine ⟨_, if_neg hrow, ?_⟩
    rw [maxWorkgroups] at hrow
    have hrows : (wrap64 (blocks n w + maxWorkgroups - 1)).tdiv maxWorkgroups = blocks (blocks n w) 65535 :=
      tdiv_eq_blocks hone (by omega) (by decide) (by decide)
    rw [hrows]
    exact covers_rows hmul (by omega) (by omega) hw hle

end

/-! ## Places -/

/-- The places of the invocations of a grid. -/
def Grid.Runs (g : Grid) (w : Int) (gx gy : UInt32) : Prop := (gx.toNat : Int) < g.x.toNat * w ∧ gy.toNat < g.y.toNat

section

variable {g : Grid} {n w : Int} {idx : UInt32}

theorem exists_place (h : g.Covers n w) (hidx : idx.toNat < n) :
    ∃ gx gy, g.Runs w gx gy ∧ gx + gy * g.stride = idx := by
  have hle := h.le
  have hlt : idx.toNat < g.y.toNat * g.stride.toNat := by omega
  have hpos : 0 < g.stride.toNat := Nat.pos_of_lt_mul_left hlt
  have hrow : idx.toNat / g.stride.toNat < g.y.toNat := (Nat.div_lt_iff_lt_mul hpos).mpr hlt
  have hcolumn : idx.toNat % g.stride.toNat < g.stride.toNat := Nat.mod_lt _ hpos
  refine ⟨idx % g.stride, idx / g.stride, ⟨?_, ?_⟩, ?_⟩
  · rw [← h.stride, UInt32.toNat_mod]
    omega
  · rwa [UInt32.toNat_div]
  · apply UInt32.toNat_inj.mp
    have hsum := Nat.mod_add_div' idx.toNat g.stride.toNat
    rw [UInt32.toNat_add, UInt32.toNat_mul, UInt32.toNat_mod, UInt32.toNat_div, Nat.add_mod_mod, hsum]
    exact Nat.mod_eq_of_lt idx.toNat_lt

theorem toNat_number (h : g.Covers n w) (hwords : (g.x.toNat : Int) * g.y.toNat * w ≤ 2 ^ 32) {gx gy : UInt32}
    (hruns : g.Runs w gx gy) :
    (gx + gy * g.stride).toNat = gx.toNat + g.stride.toNat * gy.toNat ∧ gx.toNat < g.stride.toNat := by
  obtain ⟨hcolumn, hrow⟩ := hruns
  rw [← h.stride] at hcolumn
  -- even the last place of the last row has a number that is a word
  have hall : g.stride.toNat * g.y.toNat ≤ 2 ^ 32 := by
    have heq : ((g.stride.toNat * g.y.toNat : Nat) : Int) = g.x.toNat * g.y.toNat * w := by
      push_cast
      rw [h.stride]
      ring
    omega
  have hrows : g.stride.toNat * (gy.toNat + 1) ≤ g.stride.toNat * g.y.toNat := Nat.mul_le_mul_left _ hrow
  rw [Nat.mul_succ] at hrows
  refine ⟨?_, by omega⟩
  rw [UInt32.toNat_add, UInt32.toNat_mul, Nat.add_mod_mod, Nat.mul_comm gy.toNat]
  exact Nat.mod_eq_of_lt (by omega)

theorem place_unique (h : g.Covers n w) (hwords : (g.x.toNat : Int) * g.y.toNat * w ≤ 2 ^ 32) {gx gy gx' gy' : UInt32}
    (hruns : g.Runs w gx gy) (hruns' : g.Runs w gx' gy') (heq : gx + gy * g.stride = gx' + gy' * g.stride) :
    gx = gx' ∧ gy = gy' := by
  obtain ⟨hnumber, hlt⟩ := toNat_number h hwords hruns
  obtain ⟨hnumber', hlt'⟩ := toNat_number h hwords hruns'
  rw [heq, hnumber'] at hnumber
  -- the column is the remainder of the number by the stride, and the row the quotient
  have hmod := congrArg (· % g.stride.toNat) hnumber
  have hdiv := congrArg (· / g.stride.toNat) hnumber
  simp only [Nat.add_mul_mod_self_left, Nat.mod_eq_of_lt hlt, Nat.mod_eq_of_lt hlt'] at hmod
  simp only [Nat.add_mul_div_left _ _ (Nat.lt_of_le_of_lt (Nat.zero_le _) hlt), Nat.div_eq_of_lt hlt,
    Nat.div_eq_of_lt hlt', Nat.zero_add] at hdiv
  exact ⟨UInt32.toNat_inj.mp hmod.symm, UInt32.toNat_inj.mp hdiv.symm⟩

end

/-! ## Invocations -/

/-- How an invocation finds its number from its place. -/
def invocationNumber : Expr := .binary .add (.var "gid.x") (.binary .mul (.var "gid.y") (.param "stride"))

theorem text_invocationNumber :
    (Stmt.bind "idx" invocationNumber).text "    " = "    let idx = gid.x + gid.y * params.stride;\n" := by
  rfl

/-- The text of a kernel before it binds the number of the invocation. -/
def Kernel.header (k : Kernel) : String :=
  s!"\n@compute @workgroup_size({k.workgroupSize})\n" ++
    "fn main(@builtin(global_invocation_id) gid: vec3<u32>) \x7b\n"

theorem Kernel.entry_eq (k : Kernel) : k.entry = k.header ++ (Stmt.bind "idx" invocationNumber).text "    " ++
    s!"    if (idx >= params.{k.size}) \x7b\n" ++ "        return;\n" ++ "    \x7d\n" := by
  unfold Kernel.entry Kernel.header
  rw [text_invocationNumber]

/-- The invocation at a place finds the number, and does not end before the body. -/
def Kernel.Starts (k : Kernel) (block : List UInt8) (gx gy number : UInt32) : Prop :=
  invocationNumber.eval? k.storage (fun _ => #[]) (("gid.x", .u32 gx) :: ("gid.y", .u32 gy) :: k.params.names block) =
    some (.u32 number) ∧
  ∃ size, (k.params.names block).lookup (paramName k.size) = some (.u32 size) ∧ number < size

/-- A block of parameters starts with the number of elements and the stride. -/
def Kernel.Headed (k : Kernel) (words : List UInt32) (size stride : UInt32) : Prop :=
  ∃ names, k.params.names (encode words) = (paramName k.size, .u32 size) :: ("params.stride", .u32 stride) :: names

theorem Kernel.Headed.starts_iff {k : Kernel} {words : List UInt32} {size stride : UInt32}
    (h : k.Headed words size stride) (hsize : k.size = "n" ∨ k.size = "size") (gx gy number : UInt32) :
    k.Starts (encode words) gx gy number ↔ number = gx + gy * stride ∧ number < size := by
  obtain ⟨names, hnames⟩ := h
  have hstride : (("gid.x", Word.u32 gx) :: ("gid.y", .u32 gy) :: k.params.names (encode words)).lookup
      (paramName "stride") = some (.u32 stride) := by
    rw [hnames]
    rcases hsize with hsize | hsize <;> rw [hsize] <;> rfl
  have hnumber : invocationNumber.eval? k.storage (fun _ => #[])
      (("gid.x", .u32 gx) :: ("gid.y", .u32 gy) :: k.params.names (encode words)) =
        some (.u32 (gx + gy * stride)) := by
    rw [invocationNumber, Expr.eval?, Expr.eval?, Expr.eval?, Expr.eval?, Expr.eval?, hstride]
    rfl
  rw [Starts, hnumber, hnames, List.lookup_cons_self]
  constructor
  · rintro ⟨hnumber, size', hsize', hlt⟩
    cases hnumber
    cases hsize'
    exact ⟨rfl, hlt⟩
  · rintro ⟨rfl, hlt⟩
    exact ⟨rfl, size, rfl, hlt⟩

section

variable {op : Operation} {inputs : List Shape} {output : Shape} {w : Int} {k : Kernel} {words : List UInt32}
  {dtype : DType}

/-- The kernels of all operations but products have the same parameters. -/
structure Kernel.Plain (k : Kernel) (w : Int) : Prop where
  params : ∃ slot scalar, k.params = Shader.params slot scalar
  size : k.size = "n"
  workgroupSize : k.workgroupSize = w

theorem plain_fillKernel (h : fillKernel dtype w = .ok k) : k.Plain w := by
  obtain ⟨t, -, h⟩ := bind_eq_ok h
  obtain rfl := Except.ok.inj h
  exact ⟨⟨_, _, rfl⟩, rfl, rfl⟩

theorem plain_arangeKernel {integral : Bool} (h : arangeKernel dtype integral w = .ok k) : k.Plain w := by
  obtain ⟨t, -, h⟩ := bind_eq_ok h
  obtain rfl := Except.ok.inj h
  exact ⟨⟨_, _, rfl⟩, rfl, rfl⟩

theorem plain_programKernel {p : Program} (h : programKernel p w = .ok k) : k.Plain w := by
  unfold programKernel at h
  split at h
  · cases h
  · obtain ⟨t, -, h⟩ := bind_eq_ok h
    obtain ⟨steps, -, h⟩ := bind_eq_ok h
    obtain rfl := Except.ok.inj h
    exact ⟨⟨_, _, rfl⟩, rfl, rfl⟩

theorem plain_transposeKernel {operand : Shape} {permutation : List Int}
    (h : transposeKernel operand permutation w = .ok k) : k.Plain w := by
  obtain ⟨t, -, h⟩ := bind_eq_ok h
  by_cases hlength : permutation.length = operand.rank
  · cases haxes : permutedAxes? operand permutation with
    | none =>
      simp only [hlength, haxes, ne_eq] at h
      cases h
    | some axes =>
      simp only [hlength, haxes, ne_eq] at h
      obtain rfl := Except.ok.inj h
      exact ⟨⟨_, _, rfl⟩, rfl, rfl⟩
  · simp only [hlength, ne_eq, not_false_eq_true, if_true] at h
    split at h <;> cases h

theorem plain_castKernel {source target : DType} (h : castKernel source target w = .ok k) : k.Plain w := by
  obtain ⟨s, -, h⟩ := bind_eq_ok h
  obtain ⟨t, -, h⟩ := bind_eq_ok h
  obtain rfl := Except.ok.inj h
  exact ⟨⟨_, _, rfl⟩, rfl, rfl⟩

theorem Kernel.Plain.headed (h : k.Plain w) (n stride a b : UInt32) : k.Headed [n, stride, a, b] n stride := by
  obtain ⟨slot, scalar, hparams⟩ := h.params
  rw [Kernel.Headed, hparams, h.size, Uniform.names, decode_encode]
  exact ⟨_, rfl⟩

theorem word_wrap64 (n : Int) : word (wrap64 n) = word n := by
  have hdvd : ((pow2 32 : Nat) : Int) ∣ (pow2 64 : Nat) := by decide
  have hmod : wrap64 n % (pow2 32 : Nat) = n % (pow2 32 : Nat) := by
    rw [← Int.emod_emod_of_dvd (wrap64 n) hdvd, wrap64, Int.bmod_emod, Int.emod_emod_of_dvd n hdvd]
  rw [word, word, hmod]

theorem exists_sizes {l r s : Shape} (h : productShape l r = .ok s) :
    ∃ d, MatMulSizes.ofShapes? l r = some d ∧ word (d.batch * d.m * d.n) = word s.size := by
  rw [productShape_eq_ok_iff] at h
  cases h with
  | matrices t m k n =>
    refine ⟨⟨1, m, k, n⟩, if_pos rfl, ?_⟩
    rw [Shape.size_eq_wrap64, word_wrap64, List.prod_cons, List.prod_cons, List.prod_nil, Int.mul_one, Int.one_mul]
  | batches t b m k n =>
    refine ⟨⟨b, m, k, n⟩, if_pos rfl, ?_⟩
    rw [Shape.size_eq_wrap64, word_wrap64, List.prod_cons, List.prod_cons, List.prod_cons, List.prod_nil, Int.mul_one,
      Int.mul_assoc]

theorem launchParams_eq_ok {block : List UInt8} (h : launchParams op inputs output w = .ok block) :
    ∃ words, launchWords op inputs output w = .ok words ∧ encode words = block := by
  unfold launchParams at h
  cases hwords : launchWords op inputs output w with
  | error e =>
    rw [hwords] at h
    cases h
  | ok words =>
    rw [hwords] at h
    exact ⟨words, rfl, Except.ok.inj h⟩

theorem matMulKernel_eq_ok {hasBias : Bool} (h : matMulKernel dtype hasBias w = .ok k) :
    (∃ slot, k.params = matMulParams slot) ∧ k.size = "size" ∧ k.workgroupSize = w := by
  obtain ⟨t, -, h⟩ := bind_eq_ok h
  obtain rfl := Except.ok.inj h
  exact ⟨⟨_, rfl⟩, rfl, rfl⟩

/-- Whatever an operation accepts: its kernel and its parameters agree on the number of elements and the stride. -/
theorem headed_of_accepts (haccepts : op.Accepts inputs output) (hkernel : kernel op inputs output w = .ok k)
    (hwords : launchWords op inputs output w = .ok words) {g : Grid} (hgrid : grid? output.size w = some g) :
    k.Headed words (word output.size) g.stride ∧ (k.size = "n" ∨ k.size = "size") ∧ k.workgroupSize = w := by
  have hplain : k.Plain w → (∃ a b, words = [word output.size, g.stride, a, b]) →
      k.Headed words (word output.size) g.stride ∧ (k.size = "n" ∨ k.size = "size") ∧ k.workgroupSize = w := by
    rintro hplain ⟨a, b, rfl⟩
    exact ⟨hplain.headed _ _ a b, .inl hplain.size, hplain.workgroupSize⟩
  have hproduct : ∀ {dtype : DType} {hasBias : Bool} {d : MatMulSizes} {alpha beta : Double},
      matMulKernel dtype hasBias w = .ok k → words = d.params g.stride alpha beta →
      word (d.batch * d.m * d.n) = word output.size →
      k.Headed words (word output.size) g.stride ∧ (k.size = "n" ∨ k.size = "size") ∧ k.workgroupSize = w := by
    rintro dtype hasBias d alpha beta hkernel rfl hsize
    obtain ⟨⟨slot, hparams⟩, hname, hworkgroup⟩ := matMulKernel_eq_ok hkernel
    refine ⟨?_, .inr hname, hworkgroup⟩
    rw [Kernel.Headed, hparams, hname, names_matMulParams, hsize]
    exact ⟨_, rfl⟩
  rw [launchWords, hgrid] at hwords
  -- a product takes the number of elements from its sizes, all other operations from the output
  cases haccepts with
  | fill value => exact hplain (plain_fillKernel hkernel) ⟨_, _, (Except.ok.inj hwords).symm⟩
  | arange start step _ hrank =>
    refine hplain (plain_arangeKernel hkernel) ?_
    simp only at hwords
    split at hwords <;> exact ⟨_, _, (Except.ok.inj hwords).symm⟩
  | elementwise e _ hdefined | fused p count _ hdtype hvalid hdefined hcount hpos =>
    simp only [otherShape?_replicate] at hwords
    exact hplain (plain_programKernel hkernel) ⟨_, _, (Except.ok.inj hwords).symm⟩
  | matMul alpha beta l r _ hshape =>
    obtain ⟨d, hd, hsize⟩ := exists_sizes hshape
    simp only [matMulWords, hd] at hwords
    exact hproduct hkernel (Except.ok.inj hwords).symm hsize
  | matMulBias alpha beta l r _ hshape =>
    obtain ⟨d, hd, hsize⟩ := exists_sizes hshape
    simp only [matMulWords, hd] at hwords
    exact hproduct hkernel (Except.ok.inj hwords).symm hsize
  | transpose permutation x _ hshape =>
    simp only [if_pos (size_transposed hshape)] at hwords
    exact hplain (plain_transposeKernel hkernel) ⟨_, _, (Except.ok.inj hwords).symm⟩
  | cast x _ hdims hdtype =>
    have hsame : x.size = output.size := by rw [Shape.size, Shape.size, hdims]
    simp only [if_pos hsame] at hwords
    exact hplain (plain_castKernel hkernel) ⟨_, _, (Except.ok.inj hwords).symm⟩

end

/-- The grid for a number of elements below `2 ^ 32`, in workgroups of at most 256 invocations. It has rows of at most
65535 workgroups, its stride is the length of a row, and the rows are no more than 65535 as long as this is possible.
Every number of an element is found at a place of the grid, and at only one place if the grid has no more invocations
than there are words. That is how every kernel of an operation finds the numbers: of the invocations of the grid, those
go on to its body whose number is below the number of elements. -/
theorem grid_covers (n w : Int) (hn : 1 ≤ n) (hlt : n < 2 ^ 32) (hw : 1 ≤ w) (hle : w ≤ 256) :
    ∃ g, grid? n w = some g ∧ 1 ≤ g.x.toNat ∧ g.x.toNat ≤ 65535 ∧ 1 ≤ g.y.toNat ∧
      (g.stride.toNat : Int) = g.x.toNat * w ∧ (n ≤ 65535 * 65535 * w → g.y.toNat ≤ 65535) ∧
      (∀ idx : UInt32, idx.toNat < n → ∃ gx gy, g.Runs w gx gy ∧ gx + gy * g.stride = idx) ∧
      ((g.x.toNat : Int) * g.y.toNat * w ≤ 2 ^ 32 → ∀ idx : UInt32, idx.toNat < n →
        ∃! place : UInt32 × UInt32, g.Runs w place.1 place.2 ∧ place.1 + place.2 * g.stride = idx) ∧
      ∀ (op : Operation) (inputs : List Shape) (output : Shape) (k : Kernel) (block : List UInt8),
        op.Accepts inputs output → output.size = n → kernel op inputs output w = .ok k →
        launchParams op inputs output w = .ok block →
        k.workgroupSize = w ∧
        k.entry = k.header ++ (Stmt.bind "idx" invocationNumber).text "    " ++
          s!"    if (idx >= params.{k.size}) \x7b\n" ++ "        return;\n" ++ "    \x7d\n" ∧
        ∀ gx gy idx : UInt32, k.Starts block gx gy idx ↔ idx = gx + gy * g.stride ∧ idx.toNat < n := by
  obtain ⟨g, hgrid, hcovers⟩ := grid?_spec hn hlt hw hle
  refine ⟨g, hgrid, hcovers.x_pos, hcovers.x_le, hcovers.y_pos, hcovers.stride, hcovers.y_le,
    fun idx hidx => exists_place hcovers hidx, fun hwords idx hidx => ?_, ?_⟩
  · obtain ⟨gx, gy, hruns, hnumber⟩ := exists_place hcovers hidx
    refine ⟨(gx, gy), ⟨hruns, hnumber⟩, ?_⟩
    rintro ⟨gx', gy'⟩ ⟨hruns', hnumber'⟩
    obtain ⟨rfl, rfl⟩ := place_unique hcovers hwords hruns' hruns (hnumber'.trans hnumber.symm)
    rfl
  · intro op inputs output k block haccepts hsize hkernel hblock
    obtain ⟨words, hwords, rfl⟩ := launchParams_eq_ok hblock
    obtain ⟨hheaded, hname, hworkgroup⟩ := headed_of_accepts haccepts hkernel hwords (hsize ▸ hgrid)
    refine ⟨hworkgroup, k.entry_eq, fun gx gy idx => ?_⟩
    rw [hheaded.starts_iff hname, hsize, UInt32.lt_iff_toNat_lt, word_toNat (by omega) (by omega)]
    exact and_congr_right fun _ => by omega

/-- More workgroups than a row holds: a second row is launched. -/
theorem grid_covers_second_row :
    ∃ g, grid? 16776961 256 = some g ∧ g.y = 2 ∧ (∀ idx : UInt32, (idx.toNat : Int) < 16776961 →
        ∃! place : UInt32 × UInt32, g.Runs 256 place.1 place.2 ∧ place.1 + place.2 * g.stride = idx) ∧
      ∃ k block, kernel (.fill .zero) [] ⟨.int32, [16776961]⟩ 256 = .ok k ∧
        launchParams (.fill .zero) [] ⟨.int32, [16776961]⟩ 256 = .ok block ∧ k.workgroupSize = 256 ∧
        ∀ gx gy idx : UInt32, k.Starts block gx gy idx ↔ idx = gx + gy * g.stride ∧ (idx.toNat : Int) < 16776961 := by
  obtain ⟨g, hgrid, -, -, -, -, -, -, hunique, hkernels⟩ :=
    grid_covers 16776961 256 (by decide) (by decide) (by decide) (by decide)
  obtain rfl : ⟨65535, 2, 16776960⟩ = g := Option.some.inj (hgrid.symm.trans (by decide +kernel)).symm
  obtain ⟨k, hk⟩ : ∃ k, kernel (.fill .zero) [] ⟨.int32, [16776961]⟩ 256 = .ok k := ⟨_, rfl⟩
  obtain ⟨block, hblock⟩ : ∃ block, launchParams (.fill .zero) [] ⟨.int32, [16776961]⟩ 256 = .ok block := ⟨_, rfl⟩
  obtain ⟨hworkgroup, -, hstarts⟩ := hkernels (.fill .zero) [] ⟨.int32, [16776961]⟩ k block (.fill .zero _) (by decide) hk
    hblock
  exact ⟨_, hgrid, rfl, hunique (by decide), k, block, hk, hblock, hworkgroup, hstarts⟩

end LazyTensor.Shader
