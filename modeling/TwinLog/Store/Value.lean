import TwinLog.Store
import TwinLog.Wire.Shape

set_option autoImplicit false

namespace TwinLog

/-- What can be handed over to be saved: a value, or a run of items whose number is only known at its end. -/
inductive Payload where
  | value (shape : Shape) (given : shape.Value)
  | stream (item : Shape) (items : List item.Value)

/-- The bytes of a payload. A run of items has none, as its number would have to come first. -/
def Payload.encode? : Payload → Option (List UInt8)
  | value shape given => some (shape.encode given)
  | stream _ _ => none

namespace Store

variable {σ : Type}

def saveValue (store : Store) (ufid : Ufid) (payload : Payload) : Script Store Unit :=
  match payload.encode? with
  | some bytes => store.save ufid bytes
  | none => Script.fail .encoding

def loadValue (store : Store) (ufid : Ufid) (shape : Shape) : Script σ shape.Value := do
  let content ← store.readAll ufid
  match shape.decode content with
  | some (value, _) => return value
  | none => Script.fail .encoding

end Store

end TwinLog
