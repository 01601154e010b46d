import StagedDecoding.Failure
import StagedDecoding.Text.Lowercase

/-! Device types by name, and which of them may hold the buffers of a session. -/

set_option autoImplicit false

namespace StagedDecoding

/-- A device type. Names that differ in case name the same type. -/
structure Device where
  name : String
  deriving DecidableEq, Repr

namespace Device

def ofName (name : String) : Device := ⟨Text.lowercase name⟩

def host : Device := ⟨"cpu"⟩

def isHost (device : Device) : Bool := device = host

end Device

structure DeviceRegistry where
  devices : List Device
  deriving DecidableEq, Repr

namespace DeviceRegistry

def standard : DeviceRegistry := ⟨[.host, ⟨"cuda"⟩]⟩

def contains (device : Device) (registry : DeviceRegistry) : Bool :=
  registry.devices.contains device

def register (device : Device) (registry : DeviceRegistry) : DeviceRegistry :=
  if registry.contains device then registry else ⟨registry.devices ++ [device]⟩

def require (device : Device) (registry : DeviceRegistry) : Except Failure Unit :=
  if registry.contains device then .ok () else .error (.unsupportedDevice device.name)

end DeviceRegistry

end StagedDecoding
