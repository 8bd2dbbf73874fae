import LazyTensor.Failure
import LazyTensor.Text.Quoted

/-!
# Kernel caches

A cache maps the signatures of kernels to compiled kernels. A kernel is compiled when its signature
is not there; failures are not kept.
-/

namespace LazyTensor

/-- Compiled kernels by signature, in the order in which they were stored. -/
structure KernelCache (κ : Type) where
  name : String
  entries : List (String × κ) := []
  /-- How often a kernel was compiled, failures included. -/
  compilations : Nat := 0
  /-- The kernels that were compiled while another one was stored for their signature. -/
  discarded : List κ := []

namespace KernelCache

variable {κ ε : Type}

/-- The kernel stored for a signature. -/
def find? (c : KernelCache κ) (signature : String) : Option κ :=
  (c.entries.find? (·.1 == signature)).map (·.2)

/-- Stores a kernel, unless there is one for the signature. Gives the stored one. -/
def store (c : KernelCache κ) (signature : String) (kernel : κ) : κ × KernelCache κ :=
  match c.find? signature with
  | some first => (first, { c with discarded := c.discarded ++ [kernel] })
  | none => (kernel, { c with entries := c.entries ++ [(signature, kernel)] })

/-- A kernel that could not be compiled, in the cache of some name. -/
structure Error (ε : Type) where
  cache : String
  signature : String
  cause : ε

/-- What went wrong, before the common end of all compilation errors. -/
def Error.reason (reason : ε → String) (e : Error ε) : String :=
  context s!"{e.cache} kernel {Text.quote e.signature}" (reason e.cause)

/-- The kernel of a signature, compiled if it is not there. Compiling may use the cache itself. -/
def get (c : KernelCache κ) (signature : String)
    (compile : KernelCache κ → Except ε κ × KernelCache κ) : Except (Error ε) κ × KernelCache κ :=
  match c.find? signature with
  | some kernel => (.ok kernel, c)
  | none =>
    match compile { c with compilations := c.compilations + 1 } with
    | (.error e, c) => (.error ⟨c.name, signature, e⟩, c)
    | (.ok kernel, c) =>
      let (kernel, c) := c.store signature kernel
      (.ok kernel, c)

end KernelCache

end LazyTensor
