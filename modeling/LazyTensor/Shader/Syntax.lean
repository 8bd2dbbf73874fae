import LazyTensor.DType

/-!
# Shader kernels

The fragment of the shading language that kernels are written in, as syntax trees. A kernel has
storage buffers for its inputs and its output, one block of uniform parameters, and a body that runs
once for each element of the output.
-/

namespace LazyTensor.Shader

inductive ScalarType where
  | f32
  | i32
  | u32
  /-- A type known by its name only. -/
  | named (name : String)
deriving DecidableEq

/-- Functions of one argument. -/
inductive Function where
  | abs | sqrt | exp | log | sin | cos | tanh
deriving DecidableEq

/-- Functions of two arguments. -/
inductive Function₂ where
  | max | min
deriving DecidableEq

/-- Operators between two expressions. -/
inductive Operator where
  | add | sub | mul | div | rem
deriving DecidableEq

/-- Expressions. Parentheses are part of the tree, and a product binds closer than a sum. -/
inductive Expr where
  | var (name : String)
  /-- An integer literal. -/
  | int (value : Int)
  /-- A literal of type `u32`. -/
  | unsigned (value : Int)
  /-- A uniform parameter. -/
  | param (field : String)
  /-- An element of a storage buffer. -/
  | element (buffer : String) (index : Expr)
  | convert (type : ScalarType) (e : Expr)
  | neg (e : Expr)
  | apply (f : Function) (e : Expr)
  | apply₂ (f : Function₂) (a b : Expr)
  /-- The fused `a * b + c`. -/
  | fma (a b c : Expr)
  | binary (op : Operator) (a b : Expr)
  | paren (e : Expr)
deriving DecidableEq

/-- Statements of a body. -/
inductive Stmt where
  | bind (name : String) (value : Expr)
  /-- Declares a variable, with its type if it is written. -/
  | declare (name : String) (type : Option ScalarType) (value : Expr)
  | assign (name : String) (value : Expr)
  /-- Writes an element of a storage buffer. -/
  | store (buffer : String) (index value : Expr)
  /-- Runs a statement with the counter at `0`, `1` and so on, below the bound. -/
  | loop (counter : String) (bound : Expr) (body : Stmt)
deriving DecidableEq

/-- A storage buffer of a kernel. -/
structure Storage where
  slot : Int
  writable : Bool
  name : String
  type : ScalarType
deriving DecidableEq

/-- The block of uniform parameters. -/
structure Uniform where
  slot : Int
  name : String
  fields : List (String × ScalarType)
deriving DecidableEq

/-- A kernel. Invocation number `idx` runs the body, if it is below the parameter `size`. -/
structure Kernel where
  storage : List Storage
  params : Uniform
  workgroupSize : Int
  size : String
  body : List Stmt
deriving DecidableEq

/-- The scalar type of a data type. -/
def ScalarType.ofDType? (dtype : DType) : Option ScalarType :=
  if dtype = .float32 then some .f32
  else if dtype = .int32 then some .i32
  else if dtype = .uint32 then some .u32
  else none

/-- The type of scalar parameters for a data type: its own for integers. -/
def ScalarType.ofParameter (dtype : DType) : ScalarType :=
  if dtype = .int32 then .i32
  else if dtype = .uint32 then .u32
  else .f32

end LazyTensor.Shader
