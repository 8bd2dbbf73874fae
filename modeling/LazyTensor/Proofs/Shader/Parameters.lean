import LazyTensor.Proofs.Shader.Semantics
import LazyTensor.Shader.Launch

/-!
# Parameters of an invocation

A block of parameters is written as bytes, and the device reads the fields of the block from them, four bytes for each
field. The words are read back as they were written (`decode_encode`), so an invocation knows its parameters by their
names.
-/

namespace LazyTensor.Shader

/-- The word of four bytes, the least first. -/
def wordOfBytes (a b c d : UInt8) : UInt32 :=
  .ofNat (a.toNat + 256 * b.toNat + 65536 * c.toNat + 16777216 * d.toNat)

/-- The words of a block of bytes. -/
def decode : List UInt8 → List UInt32
  | a :: b :: c :: d :: bytes => wordOfBytes a b c d :: decode bytes
  | _ => []

theorem wordOfBytes_littleEndian (w : UInt32) :
    wordOfBytes w.toUInt8 (w >>> 8).toUInt8 (w >>> 16).toUInt8 (w >>> 24).toUInt8 = w := by
  have hlt := w.toNat_lt
  -- each byte is a digit of the word to the base 256
  have hbyte : ∀ shift : UInt32, ((w >>> shift).toUInt8).toNat = w.toNat / 2 ^ (shift.toNat % 32) % 256 := by
    intro shift
    rw [UInt32.toNat_toUInt8, UInt32.toNat_shiftRight, Nat.shiftRight_eq_div_pow]
  apply UInt32.toNat_inj.mp
  rw [wordOfBytes, UInt32.toNat_ofNat', hbyte, hbyte, hbyte, UInt32.toNat_toUInt8]
  simp only [UInt32.toNat_ofNat, Nat.reduceMod, Nat.reducePow]
  omega

theorem decode_encode (words : List UInt32) : decode (encode words) = words := by
  induction words with
  | nil => rfl
  | cons w words ih =>
    show wordOfBytes w.toUInt8 (w >>> 8).toUInt8 (w >>> 16).toUInt8 (w >>> 24).toUInt8 :: decode (encode words) = _
    rw [wordOfBytes_littleEndian, ih]

/-- The value of an integer parameter. -/
def Word.ofParam? : ScalarType → UInt32 → Option Word
  | .i32, w => some (.i32 w.toInt32)
  | .u32, w => some (.u32 w)
  | _, _ => none

/-- The integer parameters of a block by their names. -/
def Uniform.names (u : Uniform) (block : List UInt8) : Names :=
  (u.fields.zip (decode block)).filterMap fun (field, w) => (Word.ofParam? field.2 w).map (paramName field.1, ·)

/-- What an invocation starts with: its number and the parameters. -/
def Kernel.names (k : Kernel) (block : List UInt8) (idx : UInt32) : Names := ("idx", .u32 idx) :: k.params.names block

/-- The memory after an invocation of the kernel that was launched with a block of parameters. -/
def Kernel.invokeWith? (k : Kernel) (block : List UInt8) (memory : Memory) (idx : UInt32) : Option Memory :=
  (readStmts k.bodyText).bind (run? k.storage memory (k.names block idx))

theorem word_toNat {n : Int} (hn : 0 ≤ n) (hlt : n < 4294967296) : (word n).toNat = n.toNat := by
  rw [word, UInt32.toNat_ofNat', show pow2 32 = 4294967296 by decide]
  omega

theorem names_matMulParams (slot : Int) (d : MatMulSizes) (stride : UInt32) (alpha beta : Double) :
    (matMulParams slot).names (encode (d.params stride alpha beta)) =
      [("params.size", .u32 (word (d.batch * d.m * d.n))), ("params.stride", .u32 stride),
        ("params.batch", .u32 (word d.batch)), ("params.m", .u32 (word d.m)), ("params.k", .u32 (word d.k)),
        ("params.n", .u32 (word d.n))] := by
  rw [Uniform.names, decode_encode]
  rfl

end LazyTensor.Shader
