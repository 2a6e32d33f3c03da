import AetherLite.Hint.HintRouter

/-! From an opened hint to the body it leads to. -/
set_option autoImplicit false

namespace SchrodingerMailbox

open Hint

def extractHint (entry : Bytes) : Option HintPacket := (decodeSlotBlob entry).map SlotBlob.hint

def slotBody (entry : Bytes) : Option Bytes := (decodeSlotBlob entry).map SlotBlob.body

/-- The first entry that is a slot: of those stored here, which are none when the store
fails, and else of those the network has; none when that fetch fails. -/
def fetchBody (stored : List Bytes) (fetched : Option (List Bytes)) : Option Bytes :=
  match stored.findSome? slotBody with
  | some body => some body
  | none => fetched.bind fun entries => entries.findSome? slotBody

end SchrodingerMailbox
