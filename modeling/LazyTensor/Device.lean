/-!
# Devices

A device has a kind and an index. There is one host processor, and graphics processors are numbered
from zero.
-/

namespace LazyTensor

/-- A kind of devices, by its number. -/
structure DeviceKind where
  code : Int
deriving DecidableEq

namespace DeviceKind

def cpu : DeviceKind := ⟨0⟩
def gpu : DeviceKind := ⟨1⟩

def name (k : DeviceKind) : String :=
  if k = cpu then "cpu" else if k = gpu then "gpu" else s!"DeviceKind({k.code})"

end DeviceKind

/-- A place where values are computed. -/
structure Device where
  kind : DeviceKind
  index : Int
deriving DecidableEq

namespace Device

/-- The host processor. -/
def cpu : Device := ⟨.cpu, 0⟩

/-- A graphics processor. -/
def gpu (index : Int) : Device := ⟨.gpu, index⟩

def isCPU (d : Device) : Bool := d.kind == .cpu

def isGPU (d : Device) : Bool := d.kind == .gpu

/-- Whether there can be such a device: the only host, or a graphics processor from zero on. -/
def ok (d : Device) : Bool :=
  if d.isCPU then d.index == 0 else d.isGPU && 0 ≤ d.index

def text (d : Device) : String :=
  if d.isCPU then d.kind.name else s!"{d.kind.name}:{d.index}"

end Device

end LazyTensor
