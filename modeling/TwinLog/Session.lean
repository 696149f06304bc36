import TwinLog.Store.Value

set_option autoImplicit false

namespace TwinLog

inductive Request where
  /-- Mounts the medium, after unmounting it if need be. -/
  | mount (geometry : Geometry)
  | save (ufid : Ufid) (data : List UInt8)
  | remove (ufid : Ufid)
  | rotate
  | size (ufid : Ufid)
  | contains (ufid : Ufid)
  | readAll (ufid : Ufid)
  | readInto (ufid : Ufid) (buffer : List UInt8)
  | usage
  | saveValue (ufid : Ufid) (payload : Payload)
  | loadValue (ufid : Ufid) (shape : Shape)

inductive Answer where
  | done
  | size (bytes : Nat)
  | contains (found : Bool)
  | content (bytes : List UInt8)
  /-- The size of the file and the buffer with what was copied of it. -/
  | copied (size : Nat) (buffer : List UInt8)
  | usage (usage : Usage)
  | value (shape : Shape) (loaded : shape.Value)
  | failed (error : StoreError)
  /-- An error of a read, and the buffer with what was copied before it. -/
  | failedCopy (error : StoreError) (buffer : List UInt8)
  /-- There is no store to answer. -/
  | notMounted

/-- A medium and the store that is mounted on it, if any. -/
structure Session (μ : Type) where
  medium : μ
  store : Option Store

namespace Session

variable {μ : Type} [Medium μ]

def change {α : Type} (session : Session μ) (store : Store) (script : Script Store α) (answer : α → Answer) :
    Except Violation Answer × Session μ :=
  match script.run store session.medium with
  | ⟨.ok value, after, medium⟩ => (.ok (answer value), ⟨medium, some after⟩)
  | ⟨.error (.error error), after, medium⟩ => (.ok (.failed error), ⟨medium, some after⟩)
  | ⟨.error (.halt violation), after, medium⟩ => (.error violation, ⟨medium, some after⟩)

def mount (session : Session μ) (geometry : Geometry) : Except Violation Answer × Session μ :=
  let script : Script Unit Store :=
    Store.mount (Medium.polarity session.medium) (Medium.pageSize session.medium) geometry
  match script.run () session.medium with
  | ⟨.ok store, (), medium⟩ => (.ok .done, ⟨medium, some store⟩)
  | ⟨.error (.error error), (), medium⟩ => (.ok (.failed error), ⟨medium, none⟩)
  | ⟨.error (.halt violation), (), medium⟩ => (.error violation, ⟨medium, none⟩)

def copy (session : Session μ) (store : Store) (ufid : Ufid) (buffer : List UInt8) :
    Except Violation Answer × Session μ :=
  match (store.readInto ufid buffer).run buffer session.medium with
  | ⟨.ok size, after, medium⟩ => (.ok (.copied size after), ⟨medium, some store⟩)
  | ⟨.error (.error error), after, medium⟩ => (.ok (.failedCopy error after), ⟨medium, some store⟩)
  | ⟨.error (.halt violation), _, medium⟩ => (.error violation, ⟨medium, some store⟩)

/-- The answer to a request, unless a precondition was broken, and the session after it. -/
def perform (session : Session μ) (request : Request) : Except Violation Answer × Session μ :=
  match request, session.store with
  | .mount geometry, _ => session.mount geometry
  | _, none => (.ok .notMounted, session)
  | .save ufid data, some store => session.change store (store.save ufid data) fun () => .done
  | .remove ufid, some store => session.change store (store.remove ufid) fun () => .done
  | .rotate, some store => session.change store store.rotate fun _ => .done
  | .size ufid, some store => session.change store (store.size ufid) .size
  | .contains ufid, some store => session.change store (store.contains ufid) .contains
  | .readAll ufid, some store => session.change store (store.readAll ufid) .content
  | .readInto ufid buffer, some store => session.copy store ufid buffer
  | .usage, some store => (.ok (.usage store.usage), session)
  | .saveValue ufid payload, some store => session.change store (store.saveValue ufid payload) fun () => .done
  | .loadValue ufid shape, some store => session.change store (store.loadValue ufid shape) (.value shape)

/-- The answers to requests in order, up to the first broken precondition, and the session after them. -/
def performAll (session : Session μ) : List Request → List Answer × Option Violation × Session μ
  | [] => ([], none, session)
  | request :: rest =>
      match session.perform request with
      | (.ok answer, after) =>
          let (answers, violation, last) := after.performAll rest
          (answer :: answers, violation, last)
      | (.error violation, after) => ([], some violation, after)

end Session

end TwinLog
