import TwinLog.Nor.Driver

set_option autoImplicit false

namespace TwinLog

/-- A failure planned for the call after `after` more calls. -/
structure NorFault where
  after : Nat
  kind : NorError
  deriving DecidableEq, Repr

structure NorMemory where
  readSize : Nat
  writeSize : Nat
  eraseSize : Nat
  bytes : Array UInt8
  fault : Option NorFault
  deriving DecidableEq, Repr

namespace NorMemory

def create (readSize writeSize eraseSize capacity : Nat) : NorMemory :=
  ⟨readSize, writeSize, eraseSize, Array.replicate capacity 0xFF, none⟩

def capacity (memory : NorMemory) : Nat :=
  memory.bytes.size

/-- Counts one call and tells whether it is the one that fails. -/
def tick (memory : NorMemory) : Option NorError × NorMemory :=
  match memory.fault with
  | none => (none, memory)
  | some ⟨0, kind⟩ => (some kind, { memory with fault := none })
  | some ⟨after + 1, kind⟩ => (none, { memory with fault := some ⟨after, kind⟩ })

def program (bytes : Array UInt8) : Nat → List UInt8 → Array UInt8
  | _, [] => bytes
  | start, value :: rest =>
      program (bytes.setIfInBounds start (bytes.getD start 0 &&& value)) (start + 1) rest

def clear (bytes : Array UInt8) (start : Nat) : Nat → Array UInt8
  | 0 => bytes
  | count + 1 => (clear bytes start count).setIfInBounds (start + count) 0xFF

def read (memory : NorMemory) (offset : Address) (count : Nat) : Except NorError (List UInt8) × NorMemory :=
  match memory.tick with
  | (some kind, after) => (.error kind, after)
  | (none, after) =>
      if after.bytes.size < offset.toNat + count then
        (.error .outOfBounds, after)
      else
        (.ok ((List.range count).map fun position => after.bytes.getD (offset.toNat + position) 0), after)

/-- Programs bytes; offset and length are multiples of the write size. -/
def write (memory : NorMemory) (offset : Address) (values : List UInt8) : Except NorError Unit × NorMemory :=
  match memory.tick with
  | (some kind, after) => (.error kind, after)
  | (none, after) =>
      if offset.toNat % after.writeSize ≠ 0 ∨ values.length % after.writeSize ≠ 0 then
        (.error .notAligned, after)
      else if after.bytes.size < offset.toNat + values.length then
        (.error .outOfBounds, after)
      else
        (.ok (), { after with bytes := program after.bytes offset.toNat values })

/-- Erases bytes; both offsets are multiples of the erase size. -/
def erase (memory : NorMemory) (start stop : Address) : Except NorError Unit × NorMemory :=
  match memory.tick with
  | (some kind, after) => (.error kind, after)
  | (none, after) =>
      if start.toNat % after.eraseSize ≠ 0 ∨ stop.toNat % after.eraseSize ≠ 0 then
        (.error .notAligned, after)
      else if after.bytes.size < stop.toNat ∨ stop.toNat < start.toNat then
        (.error .outOfBounds, after)
      else
        (.ok (), { after with bytes := clear after.bytes start.toNat (stop.toNat - start.toNat) })

instance : NorDriver NorMemory where
  readSize := NorMemory.readSize
  writeSize := NorMemory.writeSize
  eraseSize := NorMemory.eraseSize
  read := read
  write := write
  erase := erase

/-- The little-endian word that starts at the byte `start`, past the driver. -/
def wordAt (memory : NorMemory) (start : Nat) : Word :=
  Word.ofBytes ((List.range 4).map fun position => memory.bytes.getD (start + position) 0)

def setWordAt (memory : NorMemory) (start : Nat) (word : Word) : NorMemory :=
  { memory with
    bytes := (List.range 4).foldl
      (fun bytes position => bytes.setIfInBounds (start + position) (word.byte position)) memory.bytes }

def words (memory : NorMemory) : List Word :=
  (List.range (memory.bytes.size / 4)).map fun index => memory.wordAt (4 * index)

end NorMemory

end TwinLog
