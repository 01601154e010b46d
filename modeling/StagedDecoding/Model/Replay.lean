import StagedDecoding.Model.Basic

/-! A model that replays prepared replies.

The first invocation of a stage gets its first reply, and so on; the last reply repeats. Outputs
are given as they were prepared, whatever was asked for.
-/

set_option autoImplicit false

namespace StagedDecoding

inductive Reply where
  | outputs (tensors : Named Tensor)
  | refusal (reason : String)
  deriving Repr

structure ReplayModel where
  replies : Named (List Reply)
  calls : List Invocation
  deriving Repr

namespace ReplayModel

def reply? (earlier : Nat) (replies : List Reply) : Option Reply :=
  replies[min earlier (replies.length - 1)]?

def run : Model ReplayModel := fun invocation m =>
  let earlier := m.calls.countP (·.stage == invocation.stage)
  let m' := { m with calls := m.calls ++ [invocation] }
  match reply? earlier ((m.replies.get? invocation.stage).getD []) with
  | none => (.ok [], m')
  | some (.outputs tensors) => (.ok tensors, m')
  | some (.refusal reason) => (.error (.refused reason), m')

end ReplayModel

end StagedDecoding
