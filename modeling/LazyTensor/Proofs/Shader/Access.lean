import LazyTensor.Proofs.Shader.Parameters

/-!
# Accesses of an invocation

Which elements an invocation reads and writes, and in which order. It does not depend on the elements: indices are
made from the number of the invocation, its parameters, literals and the counters of loops. So the accesses of a kernel
are found for all types of elements alike.

Indices are computed modulo a number. The modulus of words is `2 ^ 32`; modulo `0` sums and products are exact, and no
index wraps around where both give the same accesses. What is computed for words is what a statement computes with
values of type `u32` (`Expr.eval?_of_index?`, `exists_run?_bindStmts`).
-/

namespace LazyTensor.Shader

open List Option

/-! ## Indices -/

/-- The values of names that are known to be indices. -/
abbrev Known := String → Option Nat

variable {name : String}

namespace Known

/-- A name with another value, or one that is not known. -/
def set (known : Known) (name : String) (value : Option Nat) : Known := fun w => if w = name then value else known w

theorem set_self (known : Known) (name : String) (value : Option Nat) : known.set name value name = value := if_pos rfl

theorem set_of_ne (known : Known) {w : String} (h : w ≠ name) (value : Option Nat) :
    known.set name value w = known w := if_neg h

/-- The words without sign among some names. -/
def ofNames (names : Names) : Known := fun w =>
  match names.lookup w with
  | some (.u32 x) => some x.toNat
  | _ => none

/-- What is known has the same values among the names. -/
def Agrees (known : Known) (names : Names) : Prop :=
  ∀ w n, known w = some n → ∃ x : UInt32, names.lookup w = some (.u32 x) ∧ x.toNat = n

theorem agrees_ofNames (names : Names) : (ofNames names).Agrees names := by
  intro w n h
  unfold ofNames at h
  split at h
  · rename_i x hx
    exact ⟨x, hx, Option.some.inj h⟩
  · cases h

end Known

/-- How many words there are. -/
def wordModulus : Nat := 4294967296

def Operator.index? (modulus : Nat) : Operator → Nat → Nat → Option Nat
  | .add, a, b => some ((a + b) % modulus)
  | .mul, a, b => some ((a * b) % modulus)
  | .div, a, b => if b = 0 then none else some (a / b)
  | .rem, a, b => if b = 0 then none else some (a % b)
  | .sub, _, _ => none

section

variable (modulus : Nat) (known : Known)

def Expr.index? : Expr → Option Nat
  | .var name => known name
  | .param field => known (paramName field)
  | .unsigned n => if 0 ≤ n ∧ n < 4294967296 then some n.toNat else none
  | .binary op a b => a.index?.bind fun x => b.index?.bind fun y => op.index? modulus x y
  | .paren e => e.index?
  | _ => none

end

/-- The number is not changed by the modulus. -/
def Fits (modulus n : Nat) : Prop := modulus = 0 ∨ n < modulus

variable {n : Nat}

section Arithmetic

variable {modulus x y : Nat} {known : Known} {a b : Expr}

theorem Fits.mod_eq (h : Fits modulus n) : n % modulus = n := by
  rcases h with rfl | h
  · exact Nat.mod_zero n
  · exact Nat.mod_eq_of_lt h

theorem Fits.mono {m : Nat} (h : Fits modulus n) (hle : m ≤ n) : Fits modulus m :=
  h.imp_right fun hlt => Nat.lt_of_le_of_lt hle hlt

variable (ha : a.index? modulus known = some x) (hb : b.index? modulus known = some y)

include ha hb

theorem index?_add (h : Fits modulus (x + y)) : (Expr.binary .add a b).index? modulus known = some (x + y) := by
  rw [Expr.index?, ha, hb]
  exact congrArg some h.mod_eq

theorem index?_mul (h : Fits modulus (x * y)) : (Expr.binary .mul a b).index? modulus known = some (x * y) := by
  rw [Expr.index?, ha, hb]
  exact congrArg some h.mod_eq

theorem index?_div (hy : 0 < y) : (Expr.binary .div a b).index? modulus known = some (x / y) := by
  rw [Expr.index?, ha, hb]
  exact if_neg (Nat.ne_of_gt hy)

theorem index?_rem (hy : 0 < y) : (Expr.binary .rem a b).index? modulus known = some (x % y) := by
  rw [Expr.index?, ha, hb]
  exact if_neg (Nat.ne_of_gt hy)

end Arithmetic

theorem Operator.apply?_of_index? {op : Operator} {x y : UInt32} (h : op.index? wordModulus x.toNat y.toNat = some n) :
    ∃ z : UInt32, op.apply? (.u32 x) (.u32 y) = some (.u32 z) ∧ z.toNat = n := by
  have hzero : y = 0 ↔ y.toNat = 0 := UInt32.toNat_inj.symm
  cases op with
  | add => exact ⟨x + y, rfl, (UInt32.toNat_add x y).trans (Option.some.inj h)⟩
  | mul => exact ⟨x * y, rfl, (UInt32.toNat_mul x y).trans (Option.some.inj h)⟩
  | sub => cases h
  | div =>
    simp only [index?] at h
    split at h
    · cases h
    · rename_i hy
      refine ⟨x / y, ?_, (UInt32.toNat_div x y).trans (Option.some.inj h)⟩
      simp [hzero, hy, Operator.apply?]
  | rem =>
    simp only [index?] at h
    split at h
    · cases h
    · rename_i hy
      refine ⟨x % y, ?_, (UInt32.toNat_mod x y).trans (Option.some.inj h)⟩
      simp [hzero, hy, Operator.apply?]

variable {known : Known} {names : Names}

/-- An index that is known has its value when the kernel runs. -/
theorem Expr.eval?_of_index? (hnames : known.Agrees names) (storage : List Storage) (memory : Memory) {e : Expr}
    (h : e.index? wordModulus known = some n) :
    ∃ x : UInt32, e.eval? storage memory names = some (.u32 x) ∧ x.toNat = n := by
  induction e generalizing n with
  | var w => exact hnames w n h
  | param field => exact hnames (paramName field) n h
  | unsigned m =>
    simp only [index?] at h
    split at h
    · rename_i hm
      refine ⟨.ofInt m, by rw [eval?, Word.ofLiteral?, if_pos hm], ?_⟩
      rw [UInt32.ofInt, UInt32.toNat_ofNat', ← Option.some.inj h]
      omega
    · cases h
  | binary op a b iha ihb =>
    simp only [index?, bind_eq_some_iff] at h
    obtain ⟨na, ha, nb, hb, h⟩ := h
    obtain ⟨x, hx, rfl⟩ := iha ha
    obtain ⟨y, hy, rfl⟩ := ihb hb
    obtain ⟨z, hz, hn⟩ := Operator.apply?_of_index? h
    exact ⟨z, by rw [eval?, hx, hy, bind_some, bind_some, hz], hn⟩
  | paren e ih => exact ih h
  | _ => cases h

/-! ## Accesses -/

inductive Access where
  | read (buffer : String) (index : Nat)
  | write (buffer : String) (index : Nat)
deriving DecidableEq

/-- What an invocation knows, and what it has accessed. -/
structure Trace where
  known : Known
  accesses : List Access

section

variable (modulus : Nat) (known : Known)

/-- The elements that are read for an expression, from left to right. -/
def Expr.reads? : Expr → Option (List Access)
  | .var _ | .int _ | .unsigned _ | .param _ => some []
  | .element buffer index => index.reads?.bind fun before => (index.index? modulus known).map fun i =>
    before ++ [.read buffer i]
  | .convert _ e | .neg e | .apply _ e | .paren e => e.reads?
  | .apply₂ _ a b | .binary _ a b => a.reads?.bind fun x => b.reads?.map fun y => x ++ y
  | .fma a b c => a.reads?.bind fun x => b.reads?.bind fun y => c.reads?.map fun z => x ++ y ++ z

end

section

variable (modulus : Nat)

/-- A name or a variable with the value of an expression. -/
def Trace.give? (t : Trace) (name : String) (value : Expr) : Option Trace :=
  (value.reads? modulus t.known).map fun reads =>
    ⟨t.known.set name (value.index? modulus t.known), t.accesses ++ reads⟩

/-- One statement. After a loop its counter is not known any more. -/
def Stmt.trace? : Stmt → Trace → Option Trace
  | .bind name value, t | .declare name _ value, t | .assign name value, t => t.give? modulus name value
  | .store buffer index value, t => (value.reads? modulus t.known).bind fun reads =>
    (index.index? modulus t.known).map fun i => { t with accesses := t.accesses ++ reads ++ [.write buffer i] }
  | .loop counter bound body, t => (bound.index? modulus t.known).bind fun n =>
    ((List.range n).foldlM (fun t i => body.trace? { t with known := t.known.set counter (some i) }) t).map fun t =>
      { t with known := t.known.set counter none }

/-- Statements one after the other. -/
def traceStmts? (body : List Stmt) (t : Trace) : Option Trace := body.foldlM (fun t s => s.trace? modulus t) t

/-- What an invocation accesses that starts with some names. -/
def Kernel.accesses? (k : Kernel) (names : Names) : Option (List Access) :=
  (readStmts k.bodyText).bind fun body => (traceStmts? modulus body ⟨.ofNames names, []⟩).map (·.accesses)

end

section

variable {modulus : Nat} {known : Known} {t : Trace}

theorem Expr.reads?_of_index? {e : Expr} (h : e.index? modulus known = some n) : e.reads? modulus known = some [] := by
  induction e generalizing n with
  | binary op a b iha ihb =>
    simp only [index?, bind_eq_some_iff] at h
    obtain ⟨na, ha, nb, hb, -⟩ := h
    rw [reads?, iha ha, ihb hb]
    rfl
  | paren e ih => exact ih h
  | var w | param field | unsigned m => rfl
  | _ => cases h

theorem Trace.give?_of_index? {value : Expr} (h : value.index? modulus t.known = some n) :
    t.give? modulus name value = some { t with known := t.known.set name (some n) } := by
  rw [give?, Expr.reads?_of_index? h, h, map_some, append_nil]

theorem traceStmts?_append (body body' : List Stmt) (t : Trace) :
    traceStmts? modulus (body ++ body') t = (traceStmts? modulus body t).bind (traceStmts? modulus body') := by
  simp [traceStmts?]
  rfl

theorem traceStmts?_cons (s : Stmt) (body : List Stmt) (t : Trace) :
    traceStmts? modulus (s :: body) t = (s.trace? modulus t).bind (traceStmts? modulus body) := rfl

end

/-! ## Bindings -/

/-- What is known after names are bound to indices, one after the other. -/
def bindIndices? (modulus : Nat) : List (String × Expr) → Known → Option Known
  | [], known => some known
  | (name, value) :: bindings, known => (value.index? modulus known).bind fun n =>
    bindIndices? modulus bindings (known.set name (some n))

theorem bindIndices?_cons {modulus : Nat} {value : Expr} (h : value.index? modulus known = some n)
    (bindings : List (String × Expr)) :
    bindIndices? modulus ((name, value) :: bindings) known = bindIndices? modulus bindings (known.set name (some n)) := by
  rw [bindIndices?, h, bind_some]

def bindStmts (bindings : List (String × Expr)) : List Stmt := bindings.map fun b => .bind b.1 b.2

theorem traceStmts?_bindStmts {modulus : Nat} {bindings : List (String × Expr)} {t : Trace}
    (h : bindIndices? modulus bindings t.known = some known) :
    traceStmts? modulus (bindStmts bindings) t = some { t with known } := by
  induction bindings generalizing t with
  | nil =>
    obtain rfl := Option.some.inj h
    rfl
  | cons b bindings ih =>
    obtain ⟨n, hn, h⟩ := bind_eq_some_iff.mp h
    show traceStmts? modulus (.bind b.1 b.2 :: bindStmts bindings) t = _
    rw [traceStmts?_cons, Stmt.trace?, Trace.give?_of_index? hn, bind_some, ih h]

theorem Known.Agrees.set (h : known.Agrees names) (name : String) {x : UInt32} (hx : x.toNat = n) :
    (known.set name (some n)).Agrees ((name, .u32 x) :: names) := by
  intro w m hw
  by_cases hname : w = name
  · subst hname
    rw [set_self] at hw
    exact ⟨x, by simp, hx.trans (Option.some.inj hw)⟩
  · rw [set_of_ne known hname] at hw
    obtain ⟨y, hy, hm⟩ := h w m hw
    exact ⟨y, by rw [lookup_cons_of_ne hname, hy], hm⟩

theorem exists_run?_bindStmts {bindings : List (String × Expr)} {known' : Known}
    (h : bindIndices? wordModulus bindings known = some known') (hagrees : known.Agrees names)
    (hfresh : ∀ b ∈ bindings, names.lookup b.1 = none) (hnodup : (bindings.map Prod.fst).Nodup) (storage : List Storage)
    (memory : Memory) :
    ∃ names', known'.Agrees names' ∧ (∀ w ∉ bindings.map Prod.fst, names'.lookup w = names.lookup w) ∧
      ∀ body, run? storage memory names (bindStmts bindings ++ body) = run? storage memory names' body := by
  induction bindings generalizing known names with
  | nil =>
    obtain rfl := Option.some.inj h
    exact ⟨names, hagrees, fun _ _ => rfl, fun _ => rfl⟩
  | cons b bindings ih =>
    obtain ⟨n, hn, h⟩ := bind_eq_some_iff.mp h
    obtain ⟨x, hx, hxn⟩ := Expr.eval?_of_index? hagrees storage memory hn
    rw [map_cons, nodup_cons] at hnodup
    -- the names are distinct, so this one hides none of those to come
    have hfresh' : ∀ b' ∈ bindings, ((b.1, Word.u32 x) :: names).lookup b'.1 = none := by
      intro b' hb'
      have hne : b'.1 ≠ b.1 := fun heq => hnodup.1 (heq ▸ List.mem_map_of_mem hb')
      rw [lookup_cons_of_ne hne]
      exact hfresh b' (.tail _ hb')
    obtain ⟨names', hagrees', hframe, hrun⟩ := ih h (hagrees.set b.1 hxn) hfresh' hnodup.2
    refine ⟨names', hagrees', ?_, ?_⟩
    · intro w hw
      rw [map_cons, mem_cons, not_or] at hw
      rw [hframe w hw.2, lookup_cons_of_ne hw.1]
    · intro body
      exact (run?_bind (hfresh b (.head _)) hx (bindStmts bindings ++ body)).trans (hrun body)

end LazyTensor.Shader
