import TwinLog.Medium
import TwinLog.Nor.Driver

set_option autoImplicit false

namespace TwinLog

def NorError.toMediumError : NorError → MediumError
  | notAligned => .misaligned
  | outOfBounds => .outOfBounds
  | other => .device

/-- A NOR flash driver seen as a medium of words. -/
structure NorWords (δ : Type) where
  driver : δ
  deriving DecidableEq, Repr

namespace NorWords

variable {δ : Type} [NorDriver δ]

/-- Wraps a driver that can read and program single words. -/
def wrap (driver : δ) : Except MediumError (NorWords δ) :=
  let fits (size : Nat) : Bool := size != 0 && 4 % size == 0
  if fits (NorDriver.readSize driver) && fits (NorDriver.writeSize driver) then
    .ok ⟨driver⟩
  else
    .error .unsupported

def pageSize (flash : NorWords δ) : Word :=
  UInt32.ofNat (NorDriver.eraseSize flash.driver)

/-- The numbers of words moved by the driver calls of a read of `count` words. -/
def portions (count : Nat) : List Nat :=
  List.replicate (count / 8) 8 ++ if count % 8 = 0 then [] else [count % 8]

/-- Reads portions of words one after the other; `copied` is what was read before. -/
def readPortions (driver : δ) (offset : Address) (copied : List Word) : List Nat → Fetch × NorWords δ
  | [] => (⟨copied, none⟩, ⟨driver⟩)
  | count :: rest =>
      match NorDriver.read driver offset (4 * count) with
      | (.error kind, after) => (⟨copied, some (.error kind.toMediumError)⟩, ⟨after⟩)
      | (.ok bytes, after) =>
          readPortions after (offset + UInt32.ofNat (4 * count)) (copied ++ Word.pack count bytes) rest

def writeWords (page : Word) (eraseFirst : Bool) :
    δ → Address → List Word → Except (Stop MediumError) Unit × NorWords δ
  | driver, _, [] => (.ok (), ⟨driver⟩)
  | driver, offset, word :: rest =>
      if eraseFirst ∧ page = 0 then
        (.error (.halt .zeroDivisor), ⟨driver⟩)
      else
        let (erased, ready) :=
          if eraseFirst ∧ offset % page = 0 then NorDriver.erase driver offset (offset + page) else (.ok (), driver)
        match erased with
        | .error kind => (.error (.error kind.toMediumError), ⟨ready⟩)
        | .ok () =>
            match NorDriver.write ready offset word.bytes with
            | (.error kind, after) => (.error (.error kind.toMediumError), ⟨after⟩)
            | (.ok (), after) => writeWords page eraseFirst after (offset + 4) rest

def read (flash : NorWords δ) (address : Address) (count : Nat) : Fetch × NorWords δ :=
  if address % 4 ≠ 0 then
    (⟨[], some (.error .misaligned)⟩, flash)
  else
    readPortions flash.driver address [] (portions count)

def write (flash : NorWords δ) (address : Address) (words : List Word) (eraseFirst : Bool) :
    Except (Stop MediumError) Unit × NorWords δ :=
  if address % 4 ≠ 0 then
    (.error (.error .misaligned), flash)
  else
    writeWords flash.pageSize eraseFirst flash.driver address words

def erase (flash : NorWords δ) (address : Address) (count : Word) : Except (Stop MediumError) Unit × NorWords δ :=
  if flash.pageSize = 0 then
    (.error (.halt .zeroDivisor), flash)
  else if address % flash.pageSize ≠ 0 ∨ (4 * count) % flash.pageSize ≠ 0 then
    (.error (.error .misaligned), flash)
  else
    match NorDriver.erase flash.driver address (address + 4 * count) with
    | (.error kind, after) => (.error (.error kind.toMediumError), ⟨after⟩)
    | (.ok (), after) => (.ok (), ⟨after⟩)

instance : Medium (NorWords δ) where
  polarity := fun _ => .ones
  pageSize := pageSize
  read := read
  write := write
  erase := erase

end NorWords

end TwinLog
