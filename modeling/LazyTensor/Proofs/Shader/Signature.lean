import LazyTensor.Proofs.Shader.Program

/-!
# Signatures determine kernels

Kernels are found by their signature. It is divided by bars into fields, and from these everything can be read back
that the kernel is made from, its `Recipe`, but for one thing: a transposition is written for the data type of its
operand, and has the one of its output in the signature. So two operations with one signature have one source, unless
they transpose operands of different data types.
-/

namespace LazyTensor

/-! ## Fields and listings -/

namespace Text

theorem eq_of_field_eq {a a' b b' : String} (ha : '|' ∉ a.toList) (ha' : '|' ∉ a'.toList)
    (h : a ++ "|" ++ b = a' ++ "|" ++ b') : a = a' ∧ b = b' := by
  have hlist := congrArg String.toList h
  simp only [String.toList_append, List.append_assoc] at hlist
  obtain ⟨ha, hb⟩ := eq_of_append_cons ha ha' hlist
  exact ⟨String.toList_inj.mp ha, String.toList_inj.mp hb⟩

theorem eq_of_last_field_eq {a a' b b' : String} (hb : '|' ∉ b.toList) (hb' : '|' ∉ b'.toList)
    (h : a ++ "|" ++ b = a' ++ "|" ++ b') : a = a' ∧ b = b' := by
  have hlist := congrArg String.toList h
  simp only [String.toList_append, List.append_assoc] at hlist
  obtain ⟨ha, hb⟩ := eq_of_append_cons_last hb hb' hlist
  exact ⟨String.toList_inj.mp ha, String.toList_inj.mp hb⟩

private theorem toList_integers (ns : List Int) :
    (integers ns).toList = '[' :: ((" ".intercalate (ns.map toString)).toList ++ [']']) := by
  simp [integers, listing]

theorem notMem_integers {mark : Char} (hmark : mark.isDigit = false ∧ mark ≠ '-') (hother : mark ∉ ['[', ' ', ']'])
    (ns : List Int) : mark ∉ (integers ns).toList := by
  simp only [List.mem_cons, not_or] at hother
  rw [toList_integers]
  simp only [List.mem_cons, List.mem_append, not_or]
  refine ⟨hother.1, fun hmem => ?_, hother.2.2⟩
  rcases mem_intercalate hmem with hmem | ⟨s, hs, hmem⟩
  · exact hother.2.1 (by simpa using hmem)
  · obtain ⟨n, -, rfl⟩ := List.mem_map.mp hs
    exact notMem_toString hmark n hmem

theorem integers_injective {ns ns' : List Int} (h : integers ns = integers ns') : ns = ns' := by
  have hlist := congrArg String.toList h
  rw [toList_integers, toList_integers] at hlist
  have hitems := String.toList_inj.mp (List.append_cancel_right (List.cons.inj hlist).2)
  have hplain : ∀ ns : List Int, ∀ s ∈ ns.map toString, s.toList ≠ [] ∧ ' ' ∉ s.toList := by
    intro ns s hs
    obtain ⟨n, -, rfl⟩ := List.mem_map.mp hs
    exact ⟨toList_toString_ne_nil n, notMem_toString (by decide) n⟩
  have htexts := intercalate_injective (by decide) (hplain ns) (hplain ns') hitems
  exact (List.map_inj_right fun m n => toString_injective).mp htexts

end Text

namespace Shader

variable {k k' : Kernel} {workgroupSize : Int} {t : ScalarType} {dtype : DType}

theorem ofDType?_eq_some (h : ScalarType.ofDType? dtype = some t) :
    (dtype = .float32 ∧ t = .f32) ∨ (dtype = .int32 ∧ t = .i32) ∨ (dtype = .uint32 ∧ t = .u32) := by
  unfold ScalarType.ofDType? at h
  grind

theorem scalarType_eq_ok_iff : scalarType dtype = .ok t ↔ ScalarType.ofDType? dtype = some t := by
  unfold scalarType
  cases ScalarType.ofDType? dtype <;> simp

/-! ## Transpositions -/

theorem storage_transposeKernel {operand : Shape} {permutation : List Int}
    (h : transposeKernel operand permutation workgroupSize = .ok k) :
    ∃ t, ScalarType.ofDType? operand.dtype = some t ∧ k.storage = [⟨0, false, "in0", t⟩, ⟨1, true, "out", t⟩] := by
  obtain ⟨t, ht, h⟩ := bind_eq_ok h
  refine ⟨t, scalarType_eq_ok_iff.mp ht, ?_⟩
  by_cases hlength : permutation.length = operand.rank
  · cases haxes : permutedAxes? operand permutation with
    | none =>
      simp only [hlength, haxes, ne_eq] at h
      cases h
    | some axes =>
      simp only [hlength, haxes, ne_eq] at h
      obtain rfl := Except.ok.inj h
      rfl
  · simp only [hlength, ne_eq, not_false_eq_true, if_true] at h
    split at h <;> cases h

/-- The line of the first buffer of a transposition up to its scalar type. -/
private def operandLine : String := "@group(0) @binding(0) var<storage, read> in0: array<"

private theorem operandText_eq (t : ScalarType) :
    Storage.text ⟨0, false, "in0", t⟩ = operandLine ++ t.text ++ ">;\n" := by
  have hline : "@group(0) @binding(" ++ toString (0 : Int) ++ ") var<storage, " ++ "read" ++ "> " ++ "in0" ++
      ": array<" = operandLine := by
    decide +kernel
  rfl

theorem toList_text_of_storage {rest : List Storage} (h : k.storage = ⟨0, false, "in0", t⟩ :: rest) :
    ∃ tail, k.text.toList = operandLine.toList ++ (t.text.toList ++ '>' :: tail) := by
  simp only [Kernel.text, h, List.map_cons, String.join_cons, operandText_eq, String.toList_append, List.append_assoc]
  exact ⟨_, rfl⟩

theorem dtype_eq_of_text_eq {operand operand' : Shape} {permutation permutation' : List Int}
    (h : transposeKernel operand permutation workgroupSize = .ok k)
    (h' : transposeKernel operand' permutation' workgroupSize = .ok k') (htext : k.text = k'.text) :
    operand.dtype = operand'.dtype := by
  obtain ⟨t, ht, hstorage⟩ := storage_transposeKernel h
  obtain ⟨t', ht', hstorage'⟩ := storage_transposeKernel h'
  obtain ⟨tail, htail⟩ := toList_text_of_storage hstorage
  obtain ⟨tail', htail'⟩ := toList_text_of_storage hstorage'
  rw [htext, htail'] at htail
  have hclosed : ∀ t ∈ scalarTypes, '>' ∉ t.text.toList := by decide
  obtain ⟨htype, -⟩ := Text.eq_of_append_cons (hclosed t' (mem_scalarTypes ht')) (hclosed t (mem_scalarTypes ht))
    (List.append_cancel_left htail)
  rcases ofDType?_eq_some ht with ⟨hd, rfl⟩ | ⟨hd, rfl⟩ | ⟨hd, rfl⟩ <;>
    rcases ofDType?_eq_some ht' with ⟨hd', rfl⟩ | ⟨hd', rfl⟩ | ⟨hd', rfl⟩ <;>
    first
    | exact hd.trans hd'.symm
    | exact absurd htype (by decide)

/-! ## Recipes -/

/-- What the kernel of an operation is made from, and the data type of the output of a transposition. -/
inductive Recipe where
  | fill (dtype : DType)
  | arange (dtype : DType) (integral : Bool)
  | program (p : Program)
  | matMul (dtype : DType) (hasBias : Bool)
  | transpose (output : DType) (operand : Shape) (permutation : List Int)
  | cast (source target : DType)

namespace Recipe

def kernel (workgroupSize : Int) : Recipe → Except SourceError Kernel
  | .fill dtype => fillKernel dtype workgroupSize
  | .arange dtype integral => arangeKernel dtype integral workgroupSize
  | .program p => programKernel p workgroupSize
  | .matMul dtype hasBias => matMulKernel dtype hasBias workgroupSize
  | .transpose _ operand permutation => transposeKernel operand permutation workgroupSize
  | .cast source target => castKernel source target workgroupSize

/-- The first field of the signature. -/
def head : Recipe → String
  | .fill _ => "Fill"
  | .arange .. => "Arange"
  | .program p => p.dtype.name
  | .matMul .. => "MatMul"
  | .transpose .. => "Transpose"
  | .cast .. => "Cast"

/-- The signature after its first field. -/
def tail : Recipe → String
  | .fill dtype => dtype.name
  | .arange dtype integral => dtype.name ++ "|" ++ ("integral=" ++ toString integral)
  | .program p => toString p.numInputs ++ "|" ++ ";".intercalate (p.steps.map Step.text)
  | .matMul dtype hasBias => dtype.name ++ "|" ++ ("bias=" ++ toString hasBias)
  | .transpose output operand permutation =>
    output.name ++ "|" ++ (Text.integers operand.dims ++ "|" ++ Text.integers permutation)
  | .cast source target => source.name ++ "|" ++ target.name

def signature (r : Recipe) : String := r.head ++ "|" ++ r.tail

/-- The data type of the operand, for transpositions. -/
def operandDType? : Recipe → Option DType
  | .transpose _ operand _ => some operand.dtype
  | _ => none

end Recipe

/-- The data type of the operand, for transpositions. -/
def transposedDType? : Operation → List Shape → Option DType
  | .transpose _, [operand] => some operand.dtype
  | _, _ => none

namespace Recipe

variable {r r' : Recipe}

theorem signature_program (p : Program) : (program p).signature = p.signature := by
  simp [signature, head, tail, Program.signature, toString, String.append_assoc]

theorem exists_of_kernel {op : Operation} {inputs : List Shape} {output : Shape}
    (h : Shader.kernel op inputs output workgroupSize = .ok k) :
    ∃ r : Recipe, r.kernel workgroupSize = .ok k ∧ operationSignature op inputs output = r.signature ∧
      transposedDType? op inputs = r.operandDType? := by
  cases op with
  | fill value => exact ⟨.fill output.dtype, h, rfl, rfl⟩
  | arange start step =>
    refine ⟨.arange output.dtype (isIntegral start step output.dtype), h, ?_, rfl⟩
    rw [← String.toList_inj]
    simp [operationSignature, signature, head, tail, toString]
  | elementwise e =>
    exact ⟨.program (.single (.elementwise e) output.dtype), h, (signature_program _).symm, rfl⟩
  | fused p =>
    cases p with
    | none => cases h
    | some p => exact ⟨.program p, h, (signature_program p).symm, rfl⟩
  | matMul alpha beta hasBias =>
    refine ⟨.matMul output.dtype hasBias, h, ?_, rfl⟩
    rw [← String.toList_inj]
    simp [operationSignature, signature, head, tail, toString]
  | transpose permutation =>
    match inputs, h with
    | [], h => cases h
    | [operand], h =>
      refine ⟨.transpose output.dtype operand permutation, h, ?_, rfl⟩
      rw [← String.toList_inj]
      simp [operationSignature, signature, head, tail, toString]
    | _ :: _ :: _, h => cases h
  | cast source =>
    refine ⟨.cast source output.dtype, h, ?_, rfl⟩
    rw [← String.toList_inj]
    simp [operationSignature, signature, head, tail, toString]
  | other kind => cases h

/-! ## Signatures -/

theorem bar_notMem_head (r : Recipe) : '|' ∉ r.head.toList := by
  cases r with
  | program p => exact DType.bar_notMem_name _
  | _ => simp [head]

theorem dtype_name_notMem {p : Program} (h : programKernel p workgroupSize = .ok k) :
    p.dtype.name ∉ ["Fill", "Arange", "MatMul", "Transpose", "Cast"] := by
  obtain ⟨-, t, -, ht, -⟩ := programKernel_eq_ok h
  rcases ofDType?_eq_some ht with ⟨hdtype, -⟩ | ⟨hdtype, -⟩ | ⟨hdtype, -⟩ <;>
  · rw [hdtype]
    decide

theorem eq_program_of_head_eq {p : Program} (h : programKernel p workgroupSize = .ok k)
    (hhead : p.dtype.name = r.head) : ∃ q, r = .program q := by
  have hname := dtype_name_notMem h
  rw [hhead] at hname
  cases r with
  | program q => exact ⟨q, rfl⟩
  | _ => simp [head] at hname

private theorem toString_bool_injective {b b' : Bool} (h : toString b = toString b') : b = b' := by
  revert h
  cases b <;> cases b' <;> decide

private theorem eq_of_flagged_eq {dtype' : DType} {label : String} {b b' : Bool}
    (h : dtype.name ++ "|" ++ (label ++ toString b) = dtype'.name ++ "|" ++ (label ++ toString b')) :
    dtype = dtype' ∧ b = b' := by
  obtain ⟨hname, hflag⟩ := Text.eq_of_field_eq dtype.bar_notMem_name dtype'.bar_notMem_name h
  exact ⟨DType.name_injective hname, toString_bool_injective ((String.append_right_inj label).mp hflag)⟩

/-- The signature has everything in it that the recipe is made from, but for the data type of a transposed operand. -/
theorem eq_of_signature_eq (h : r.kernel workgroupSize = .ok k) (h' : r'.kernel workgroupSize = .ok k')
    (hsignature : r.signature = r'.signature) (hoperand : r.operandDType? = r'.operandDType?) : r = r' := by
  obtain ⟨hhead, htail⟩ := Text.eq_of_field_eq r.bar_notMem_head r'.bar_notMem_head hsignature
  -- the heads tell the recipes apart, and the fields give back what they are made of
  cases r with
  | program p =>
    obtain ⟨q, rfl⟩ := eq_program_of_head_eq h hhead
    rw [signature_program, signature_program] at hsignature
    rw [Program.signature_injective hsignature]
  | fill dtype =>
    cases r' with
    | program p => exact absurd (eq_program_of_head_eq h' hhead.symm) (by simp)
    | fill dtype' => rw [DType.name_injective htail]
    | _ => simp [head] at hhead
  | arange dtype integral =>
    cases r' with
    | program p => exact absurd (eq_program_of_head_eq h' hhead.symm) (by simp)
    | arange dtype' integral' =>
      obtain ⟨rfl, rfl⟩ := eq_of_flagged_eq htail
      rfl
    | _ => simp [head] at hhead
  | matMul dtype hasBias =>
    cases r' with
    | program p => exact absurd (eq_program_of_head_eq h' hhead.symm) (by simp)
    | matMul dtype' hasBias' =>
      obtain ⟨rfl, rfl⟩ := eq_of_flagged_eq htail
      rfl
    | _ => simp [head] at hhead
  | transpose output operand permutation =>
    cases r' with
    | program p => exact absurd (eq_program_of_head_eq h' hhead.symm) (by simp)
    | transpose output' operand' permutation' =>
      obtain ⟨hname, hlists⟩ := Text.eq_of_field_eq output.bar_notMem_name output'.bar_notMem_name htail
      obtain ⟨hdims, hpermutation⟩ := Text.eq_of_field_eq (Text.notMem_integers (by decide) (by decide) _)
        (Text.notMem_integers (by decide) (by decide) _) hlists
      have hdtype : operand.dtype = operand'.dtype := Option.some.inj hoperand
      have hdims := Text.integers_injective hdims
      cases operand
      simp_all [DType.name_injective hname, Text.integers_injective hpermutation]
    | _ => simp [head] at hhead
  | cast source target =>
    cases r' with
    | program p => exact absurd (eq_program_of_head_eq h' hhead.symm) (by simp)
    | cast source' target' =>
      obtain ⟨hsource, htarget⟩ := Text.eq_of_field_eq source.bar_notMem_name source'.bar_notMem_name htail
      rw [DType.name_injective hsource, DType.name_injective htarget]
    | _ => simp [head] at hhead

theorem operandDType?_eq_of_text_eq (h : r.kernel workgroupSize = .ok k) (h' : r'.kernel workgroupSize = .ok k')
    (hsignature : r.signature = r'.signature) (htext : k.text = k'.text) : r.operandDType? = r'.operandDType? := by
  obtain ⟨hhead, -⟩ := Text.eq_of_field_eq r.bar_notMem_head r'.bar_notMem_head hsignature
  cases r with
  | transpose output operand permutation =>
    cases r' with
    | program p => exact absurd (eq_program_of_head_eq h' hhead.symm) (by simp)
    | transpose output' operand' permutation' => exact congrArg some (dtype_eq_of_text_eq h h' htext)
    | _ => simp [head] at hhead
  | program p =>
    obtain ⟨q, rfl⟩ := eq_program_of_head_eq h hhead
    rfl
  | _ =>
    cases r' with
    | transpose output' operand' permutation' => simp [head] at hhead
    | _ => rfl

end Recipe

/-! ## Operations -/

theorem signature_eq_iff {op op' : Operation} {inputs inputs' : List Shape} {output output' : Shape} {wg wg' : Int} :
    signature op inputs output wg = signature op' inputs' output' wg' ↔
      operationSignature op inputs output = operationSignature op' inputs' output' ∧ wg = wg' := by
  have hlast : ∀ wg : Int, '|' ∉ ("wg" ++ toString wg).toList := by
    intro wg
    rw [String.toList_append, List.mem_append, not_or]
    exact ⟨by decide, Text.notMem_toString (by decide) wg⟩
  have hfields : ∀ (op : Operation) (inputs : List Shape) (output : Shape) (wg : Int),
      signature op inputs output wg = operationSignature op inputs output ++ "|" ++ ("wg" ++ toString wg) := by
    intro op inputs output wg
    rw [← String.toList_inj]
    simp [signature, toString]
  rw [hfields, hfields]
  constructor
  · intro h
    obtain ⟨hop, hwg⟩ := Text.eq_of_last_field_eq (hlast wg) (hlast wg') h
    exact ⟨hop, Text.toString_injective ((String.append_right_inj "wg").mp hwg)⟩
  · rintro ⟨hop, rfl⟩
    rw [hop]

/-- The sources of two operations with one signature are equal, except for transpositions of operands of different data
types. -/
theorem source_eq_iff_of_signature_eq (op op' : Operation) (inputs inputs' : List Shape) (output output' : Shape)
    (wg wg' : Int) (k k' : Kernel) (hsignature : signature op inputs output wg = signature op' inputs' output' wg')
    (hk : kernel op inputs output wg = .ok k) (hk' : kernel op' inputs' output' wg' = .ok k') :
    k.text = k'.text ↔ transposedDType? op inputs = transposedDType? op' inputs' := by
  obtain ⟨hop, rfl⟩ := signature_eq_iff.mp hsignature
  obtain ⟨r, hr, hrs, hrd⟩ := Recipe.exists_of_kernel hk
  obtain ⟨r', hr', hrs', hrd'⟩ := Recipe.exists_of_kernel hk'
  have heq : r.signature = r'.signature := hrs.symm.trans (hop.trans hrs')
  rw [hrd, hrd']
  refine ⟨Recipe.operandDType?_eq_of_text_eq hr hr' heq, fun hoperand => ?_⟩
  obtain rfl := Recipe.eq_of_signature_eq hr hr' heq hoperand
  rw [Except.ok.inj (hr.symm.trans hr')]

/-- A sum and a program of that one step on other shapes have one source. -/
theorem source_of_single_step :
    let sum : Operation := .elementwise (.binary .add)
    let program : Operation := .fused (some (.single (.elementwise (.binary .add)) .float32))
    let pair : Shape := ⟨.float32, [2]⟩
    let matrix : Shape := ⟨.float32, [4, 5]⟩
    ∃ k k', kernel sum [pair, pair] pair 64 = .ok k ∧ kernel program [matrix, matrix] matrix 64 = .ok k' ∧
      signature sum [pair, pair] pair 64 = signature program [matrix, matrix] matrix 64 ∧ k.text = k'.text := by
  intro sum program pair matrix
  have hsignature : signature sum [pair, pair] pair 64 = signature program [matrix, matrix] matrix 64 := rfl
  have hiff := fun k k' => source_eq_iff_of_signature_eq sum program [pair, pair] [matrix, matrix] pair matrix 64 64
    k k' hsignature
  exact ⟨_, _, rfl, rfl, hsignature, (hiff _ _ rfl rfl).mpr rfl⟩

/-- Transposing integers into floating point numbers and transposing floating point numbers have one signature. -/
theorem source_not_determined_by_signature :
    ∃ k k', kernel (.transpose [1, 0]) [⟨.int32, [2, 3]⟩] ⟨.float32, [3, 2]⟩ 64 = .ok k ∧
      kernel (.transpose [1, 0]) [⟨.float32, [2, 3]⟩] ⟨.float32, [3, 2]⟩ 64 = .ok k' ∧
      signature (.transpose [1, 0]) [⟨.int32, [2, 3]⟩] ⟨.float32, [3, 2]⟩ 64 =
        signature (.transpose [1, 0]) [⟨.float32, [2, 3]⟩] ⟨.float32, [3, 2]⟩ 64 ∧
      k.text ≠ k'.text := by
  refine ⟨_, _, rfl, rfl, rfl, ?_⟩
  decide +kernel

end Shader

end LazyTensor
