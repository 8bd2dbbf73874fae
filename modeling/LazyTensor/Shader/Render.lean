import LazyTensor.Shader.Syntax

/-!
# The text of shader kernels
-/

namespace LazyTensor.Shader

def ScalarType.text : ScalarType → String
  | .f32 => "f32"
  | .i32 => "i32"
  | .u32 => "u32"
  | .named name => name

def Function.text : Function → String
  | .abs => "abs"
  | .sqrt => "sqrt"
  | .exp => "exp"
  | .log => "log"
  | .sin => "sin"
  | .cos => "cos"
  | .tanh => "tanh"

def Function₂.text : Function₂ → String
  | .max => "max"
  | .min => "min"

def Operator.text : Operator → String
  | .add => "+"
  | .sub => "-"
  | .mul => "*"
  | .div => "/"
  | .rem => "%"

def Expr.text : Expr → String
  | .var name => name
  | .int value => s!"{value}"
  | .unsigned value => s!"{value}u"
  | .param field => s!"params.{field}"
  | .element buffer index => s!"{buffer}[{index.text}]"
  | .convert type e => s!"{type.text}({e.text})"
  | .neg e => s!"-{e.text}"
  | .apply f e => s!"{f.text}({e.text})"
  | .apply₂ f a b => s!"{f.text}({a.text}, {b.text})"
  | .fma a b c => s!"fma({a.text}, {b.text}, {c.text})"
  | .binary op a b => s!"{a.text} {op.text} {b.text}"
  | .paren e => s!"({e.text})"

/-- The line or lines of a statement, each after an indentation. -/
def Stmt.text (indent : String) : Stmt → String
  | .bind name value => s!"{indent}let {name} = {value.text};\n"
  | .declare name none value => s!"{indent}var {name} = {value.text};\n"
  | .declare name (some type) value => s!"{indent}var {name}: {type.text} = {value.text};\n"
  | .assign name value => s!"{indent}{name} = {value.text};\n"
  | .store buffer index value => s!"{indent}{buffer}[{index.text}] = {value.text};\n"
  | .loop counter bound body =>
    s!"{indent}for (var {counter}: u32 = 0u; {counter} < {bound.text}; {counter} = {counter} + 1u) \x7b\n" ++
      body.text (indent ++ "    ") ++ indent ++ "\x7d\n"

def Storage.text (b : Storage) : String :=
  let access := if b.writable then "read_write" else "read"
  s!"@group(0) @binding({b.slot}) var<storage, {access}> {b.name}: array<{b.type.text}>;\n"

def Uniform.text (u : Uniform) : String :=
  s!"\nstruct {u.name} \x7b\n" ++
    String.join (u.fields.map fun (name, type) => s!"    {name}: {type.text},\n") ++
    s!"\x7d\n@group(0) @binding({u.slot}) var<uniform> params: {u.name};\n"

/-- The entry point up to its body: the number of the invocation in the grid, and the end of those
that are beyond the output. -/
def Kernel.entry (k : Kernel) : String :=
  s!"\n@compute @workgroup_size({k.workgroupSize})\n" ++
    "fn main(@builtin(global_invocation_id) gid: vec3<u32>) \x7b\n" ++
    "    let idx = gid.x + gid.y * params.stride;\n" ++
    s!"    if (idx >= params.{k.size}) \x7b\n" ++
    "        return;\n" ++
    "    \x7d\n"

/-- The source of a kernel. -/
def Kernel.text (k : Kernel) : String :=
  String.join (k.storage.map Storage.text) ++ k.params.text ++ k.entry ++
    String.join (k.body.map (Stmt.text "    ")) ++ "\x7d\n"

end LazyTensor.Shader
