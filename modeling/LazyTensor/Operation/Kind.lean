import LazyTensor.DType

/-!
# Kinds of operations

The operations that a device may support. The elementwise ones have a fixed number of operands and
can be steps of a fused program.
-/

namespace LazyTensor

/-- Elementwise operations with one operand. -/
inductive UnaryOp where
  | neg | abs | sqrt | exp | log | sin | cos | tanh | reciprocal | square | relu
deriving DecidableEq

/-- Elementwise operations with two operands. -/
inductive BinaryOp where
  | add | sub | mul | div | max | min
deriving DecidableEq

/-- Elementwise operations. -/
inductive Elementwise where
  | unary (op : UnaryOp)
  | binary (op : BinaryOp)
  /-- `a * b + c` of three operands. -/
  | fusedMulAdd
deriving DecidableEq

/-- Kinds of operations. -/
inductive OpKind where
  | invalid
  | fill
  | arange
  | elementwise (e : Elementwise)
  | fused
  | matMul
  | transpose
  | cast
  /-- A number that is not the one of an operation. -/
  | unknown (code : Int)
deriving DecidableEq

namespace UnaryOp

def all : List UnaryOp :=
  [.neg, .abs, .sqrt, .exp, .log, .sin, .cos, .tanh, .reciprocal, .square, .relu]

def name : UnaryOp → String
  | .neg => "Neg"
  | .abs => "Abs"
  | .sqrt => "Sqrt"
  | .exp => "Exp"
  | .log => "Log"
  | .sin => "Sin"
  | .cos => "Cos"
  | .tanh => "Tanh"
  | .reciprocal => "Reciprocal"
  | .square => "Square"
  | .relu => "Relu"

end UnaryOp

namespace BinaryOp

def all : List BinaryOp := [.add, .sub, .mul, .div, .max, .min]

def name : BinaryOp → String
  | .add => "Add"
  | .sub => "Sub"
  | .mul => "Mul"
  | .div => "Div"
  | .max => "Max"
  | .min => "Min"

end BinaryOp

namespace Elementwise

/-- All elementwise operations, in the order of their numbers. -/
def all : List Elementwise :=
  UnaryOp.all.map .unary ++ BinaryOp.all.map .binary ++ [.fusedMulAdd]

def name : Elementwise → String
  | .unary op => op.name
  | .binary op => op.name
  | .fusedMulAdd => "FusedMulAdd"

/-- The number of operands. -/
def arity : Elementwise → Nat
  | .unary _ => 1
  | .binary _ => 2
  | .fusedMulAdd => 3

/-- Whether the operation is only defined for floating point elements. -/
def floatOnly : Elementwise → Bool
  | .unary op => match op with
    | .sqrt | .exp | .log | .sin | .cos | .tanh | .reciprocal => true
    | _ => false
  | _ => false

/-- Whether the operation is undefined for unsigned elements. -/
def signedOnly : Elementwise → Bool
  | .unary .neg | .unary .abs => true
  | _ => false

end Elementwise

namespace OpKind

/-- The kinds with a number, in the order of their numbers. -/
def all : List OpKind :=
  [.invalid, .fill, .arange] ++ Elementwise.all.map .elementwise ++ [.fused, .matMul, .transpose, .cast]

/-- The operations: the kinds but the invalid one. -/
def operations : List OpKind := all.drop 1

/-- The number of a kind. -/
def code : OpKind → Int
  | .unknown code => code
  | kind => all.findIdx (· == kind)

/-- The kind with a number. -/
def ofCode (code : Int) : OpKind :=
  if code < 0 then .unknown code else all.getD code.toNat (.unknown code)

def name : OpKind → String
  | .invalid => "Invalid"
  | .fill => "Fill"
  | .arange => "Arange"
  | .elementwise e => e.name
  | .fused => "Fused"
  | .matMul => "MatMul"
  | .transpose => "Transpose"
  | .cast => "Cast"
  | .unknown code => s!"OpType({code})"

def ofName? (s : String) : Option OpKind := all.find? (·.name == s)

/-- The elementwise operation of the kind, if it is one. -/
def elementwise? : OpKind → Option Elementwise
  | .elementwise e => some e
  | _ => none

def isElementwise (k : OpKind) : Bool := k.elementwise?.isSome

def isUnary : OpKind → Bool
  | .elementwise (.unary _) => true
  | _ => false

def isBinary : OpKind → Bool
  | .elementwise (.binary _) => true
  | _ => false

/-- The number of operands of an elementwise operation, zero for the others. -/
def arity (k : OpKind) : Nat := (k.elementwise?.map (·.arity)).getD 0

def floatOnly (k : OpKind) : Bool := k.elementwise?.any (·.floatOnly)

def signedOnly (k : OpKind) : Bool := k.elementwise?.any (·.signedOnly)

end OpKind

end LazyTensor
