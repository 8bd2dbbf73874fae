import LazyTensor.Configuration
import LazyTensor.Shader.Source

/-!
# Options of shader backends
-/

namespace LazyTensor.Shader

/-- The options of a shader backend. -/
structure DeviceOptions where
  /-- Whether a device of low power is preferred. -/
  lowPower : Bool
  workgroupSize : Int
  memoryLimit : UInt64

namespace DeviceOptions

inductive Error where
  | options (cause : Options.Error)
  | power (value : String)
  | workgroupSize (size : Int)

instance : Failure Error where
  kind _ := .plain
  message
    | .options cause => Failure.message cause
    | .power value =>
      s!"invalid power preference {Text.quote value} for {backendName} backend, " ++
        "expected \"high\" or \"low\""
    | .workgroupSize size =>
      s!"invalid workgroup size {size} for {backendName} backend, it must be in [1, 256]"

def defaultWorkgroupSize : Int := 256

/-- The preference for low or high power. -/
def readPower (value : String) : Except Error Bool :=
  if value = "high" then .ok false
  else if value = "low" then .ok true
  else .error (.power value)

def parse (configuration : String) : Except Error DeviceOptions := do
  let options ← (Options.parse backendName configuration).mapError .options
  let (power, options) := options.popString "power" "high"
  let lowPower ← readPower power
  let (size, options) := options.popInt "workgroup" defaultWorkgroupSize
  let workgroupSize ← size.mapError .options
  if workgroupSize < 1 ∨ 256 < workgroupSize then throw (.workgroupSize workgroupSize)
  let (limit, options) := options.popString "memlimit" ""
  let memoryLimit ← (Options.memoryLimit limit).mapError .options
  options.done.mapError .options
  return { lowPower, workgroupSize, memoryLimit }

end DeviceOptions

end LazyTensor.Shader
