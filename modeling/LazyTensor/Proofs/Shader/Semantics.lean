import LazyTensor.Number.IntWord
import LazyTensor.Proofs.Shader.Statement

/-!
# Meaning of statements

What an invocation of a kernel does, for the integer types of 32 bits. Sums, products, differences, signs and
absolute values are those of the words modulo `2 ^ 32`, and quotients are truncated. A name is bound once and
before it is used, only variables are assigned and they keep their types, operands have one type, and buffers hold
elements of the type that they are declared with; otherwise there is no result.
-/

namespace LazyTensor.Shader

/-- The values of the integer types. -/
inductive Word where
  | i32 (x : Int32)
  | u32 (x : UInt32)
deriving DecidableEq

namespace Word

def type : Word → ScalarType
  | .i32 _ => .i32
  | .u32 _ => .u32

/-- A literal as a value of the type, if it is one. -/
def ofLiteral? : ScalarType → Int → Option Word
  | .i32, n => if -2147483648 ≤ n ∧ n < 2147483648 then some (.i32 (.ofInt n)) else none
  | .u32, n => if 0 ≤ n ∧ n < 4294967296 then some (.u32 (.ofInt n)) else none
  | _, _ => none

/-- The word with the same bits in the type. -/
def convert? : ScalarType → Word → Option Word
  | .i32, .i32 x => some (.i32 x)
  | .i32, .u32 x => some (.i32 x.toInt32)
  | .u32, .i32 x => some (.u32 x.toUInt32)
  | .u32, .u32 x => some (.u32 x)
  | _, _ => none

/-- Words without sign are not negated. -/
def neg? : Word → Option Word
  | .i32 x => some (.i32 (-x))
  | .u32 _ => none

end Word

/-- Functions of one argument on integers: the others are for floating point numbers. -/
def Function.apply? : Function → Word → Option Word
  | .abs, .i32 x => some (.i32 x.abs)
  | .abs, .u32 x => some (.u32 x)
  | _, _ => none

def Function₂.apply? : Function₂ → Word → Word → Option Word
  | .max, .i32 x, .i32 y => some (.i32 (if x < y then y else x))
  | .max, .u32 x, .u32 y => some (.u32 (if x < y then y else x))
  | .min, .i32 x, .i32 y => some (.i32 (if y < x then y else x))
  | .min, .u32 x, .u32 y => some (.u32 (if y < x then y else x))
  | _, _, _ => none

/-- Operators on words of one type. A number divided by zero is the number itself, and leaves the remainder zero. -/
def Operator.apply? : Operator → Word → Word → Option Word
  | .add, .i32 x, .i32 y => some (.i32 (x + y))
  | .add, .u32 x, .u32 y => some (.u32 (x + y))
  | .sub, .i32 x, .i32 y => some (.i32 (x - y))
  | .sub, .u32 x, .u32 y => some (.u32 (x - y))
  | .mul, .i32 x, .i32 y => some (.i32 (x * y))
  | .mul, .u32 x, .u32 y => some (.u32 (x * y))
  | .div, .i32 x, .i32 y => some (.i32 (if y = 0 then x else x / y))
  | .div, .u32 x, .u32 y => some (.u32 (if y = 0 then x else x / y))
  | .rem, .i32 x, .i32 y => some (.i32 (if y = 0 then 0 else x % y))
  | .rem, .u32 x, .u32 y => some (.u32 (if y = 0 then 0 else x % y))
  | _, _, _ => none

/-- The elements of the buffers at each slot. -/
abbrev Memory := Int → Array Word

/-- The memory with one element changed. -/
def Memory.set (memory : Memory) (slot : Int) (i : Nat) (x : Word) : Memory :=
  fun s => if s = slot then (memory s).setIfInBounds i x else memory s

/-- The names that are bound, the last one first. -/
abbrev Names := List (String × Word)

theorem lookup_cons_of_ne {name w : String} (h : name ≠ w) (x : Word) (names : Names) :
    List.lookup name ((w, x) :: names) = names.lookup name := by
  rw [List.lookup_cons, beq_false_of_ne h]

/-- The name of a parameter among the others. -/
def paramName (field : String) : String := "params." ++ field

section

variable (storage : List Storage) (memory : Memory) (names : Names)

def Expr.eval? : Expr → Option Word
  | .var name => names.lookup name
  | .param field => names.lookup (paramName field)
  | .unsigned n => Word.ofLiteral? .u32 n
  | .convert type (.int n) => Word.ofLiteral? type n
  | .convert type e => e.eval?.bind (Word.convert? type)
  | .element buffer index =>
    match index.eval? with
    | some (.u32 i) =>
      (storage.find? (·.name == buffer)).bind fun b => (memory b.slot)[i.toNat]?.filter (·.type = b.type)
    | _ => none
  | .neg e => e.eval?.bind Word.neg?
  | .apply f e => e.eval?.bind f.apply?
  | .apply₂ f a b => a.eval?.bind fun x => b.eval?.bind fun y => f.apply? x y
  | .binary op a b => a.eval?.bind fun x => b.eval?.bind fun y => op.apply? x y
  | .paren e => e.eval?
  -- literals have no type of their own
  | .int _ => none
  | .fma .. => none

end

theorem Expr.eval?_element {storage : List Storage} {memory : Memory} {names : Names} {b : Storage} {index : Expr}
    {i : UInt32} {x : Word} (hb : storage.find? (·.name == b.name) = some b)
    (hindex : index.eval? storage memory names = some (.u32 i)) (hx : (memory b.slot)[i.toNat]? = some x)
    (htype : x.type = b.type) : (Expr.element b.name index).eval? storage memory names = some x := by
  rw [eval?, hindex]
  simp [hb, hx, htype]

/-- What statements change. -/
structure Scope where
  memory : Memory
  /-- The names that keep their values. -/
  names : Names
  /-- The values of variables, the last one first. -/
  vars : Names

namespace Scope

variable (storage : List Storage) (s : Scope)

/-- All names with their values. -/
def visible : Names := s.vars ++ s.names

def eval? (e : Expr) : Option Word := e.eval? storage s.memory s.visible

/-- The value for a name that has none yet. -/
def initial? (name : String) (value : Expr) : Option Word :=
  if (s.visible.lookup name).isSome then none else s.eval? storage value

/-- Variables keep their types. -/
def assign? (name : String) (x : Word) : Option Scope :=
  match s.vars.lookup name with
  | some old => if old.type = x.type then some { s with vars := (name, x) :: s.vars } else none
  | none => none

def store? (buffer : String) (index value : Expr) : Option Scope :=
  match storage.find? (·.name == buffer), s.eval? storage index, s.eval? storage value with
  | some b, some (.u32 i), some x =>
    if b.writable ∧ b.type = x.type ∧ i.toNat < (s.memory b.slot).size then
      some { s with memory := s.memory.set b.slot i.toNat x }
    else none
  | _, _, _ => none

/-- An assignment in a loop, with the counter at a number. -/
def turn? (counter name : String) (value : Expr) (i : Nat) : Option Scope :=
  (value.eval? storage s.memory (s.vars ++ (counter, .u32 (.ofNat i)) :: s.names)).bind (s.assign? name)

theorem lookup_visible {s : Scope} {w : String} (h : s.vars.lookup w = none) :
    s.visible.lookup w = s.names.lookup w := by
  rw [visible, List.lookup_append, h, Option.none_or]

theorem store?_eq {storage : List Storage} {s : Scope} {b : Storage} {i : UInt32} {x : Word} {index value : Expr}
    (hb : storage.find? (·.name == b.name) = some b) (hindex : s.eval? storage index = some (.u32 i))
    (hvalue : s.eval? storage value = some x) (hwritable : b.writable = true) (htype : b.type = x.type)
    (hlt : i.toNat < (s.memory b.slot).size) :
    s.store? storage b.name index value = some { s with memory := s.memory.set b.slot i.toNat x } := by
  rw [store?, hb, hindex, hvalue]
  exact if_pos ⟨hwritable, htype, hlt⟩

end Scope

/-- One statement. A loop repeats an assignment, as many times as a parameter says. -/
def Stmt.run? (storage : List Storage) : Stmt → Scope → Option Scope
  | .bind name value, s => (s.initial? storage name value).map fun x => { s with names := (name, x) :: s.names }
  | .declare name type value, s => (s.initial? storage name value).bind fun x =>
    if type.all (· = x.type) then some { s with vars := (name, x) :: s.vars } else none
  | .assign name value, s => (s.eval? storage value).bind (s.assign? name)
  | .store buffer index value, s => s.store? storage buffer index value
  | .loop counter (.param field) (.assign name value), s =>
    match s.initial? storage counter (.param field) with
    | some (.u32 n) => (List.range n.toNat).foldlM (fun s i => s.turn? storage counter name value i) s
    | _ => none
  | .loop .., _ => none

theorem Stmt.run?_loop {storage : List Storage} {s : Scope} {counter field : String} {n : UInt32}
    (h : s.initial? storage counter (.param field) = some (.u32 n)) (name : String) (value : Expr) :
    (Stmt.loop counter (.param field) (.assign name value)).run? storage s =
      (List.range n.toNat).foldlM (fun s i => s.turn? storage counter name value i) s := by
  rw [run?, h]

/-- The memory after statements. -/
def run? (storage : List Storage) (memory : Memory) (names : Names) (body : List Stmt) : Option Memory :=
  (body.foldlM (fun (s : Scope) (stmt : Stmt) => stmt.run? storage s) ⟨memory, names, []⟩).map (·.memory)

theorem run?_bind {storage : List Storage} {memory : Memory} {names : Names} {name : String} {value : Expr} {x : Word}
    (hname : names.lookup name = none) (hvalue : value.eval? storage memory names = some x) (body : List Stmt) :
    run? storage memory names (.bind name value :: body) = run? storage memory ((name, x) :: names) body := by
  have hinitial : Scope.initial? storage ⟨memory, names, []⟩ name value = some x := by
    unfold Scope.initial?
    rw [show Scope.visible ⟨memory, names, []⟩ = names from rfl, hname]
    exact hvalue
  rw [run?, List.foldlM_cons, Stmt.run?, hinitial]
  rfl

/-- The part of the text of a kernel that each invocation runs, once it has its number. -/
def Kernel.bodyText (k : Kernel) : String := String.join (k.body.map (Stmt.text "    "))

/-- The memory after an invocation of the kernel. -/
def Kernel.invoke? (k : Kernel) (memory : Memory) (idx : UInt32) : Option Memory :=
  (readStmts k.bodyText).bind (run? k.storage memory [("idx", .u32 idx)])

end LazyTensor.Shader
