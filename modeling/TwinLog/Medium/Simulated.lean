import TwinLog.Medium

set_option autoImplicit false

namespace TwinLog

/-- The words of a medium in memory. -/
structure Simulated where
  polarity : Polarity
  pageSize : Word
  words : Array Word
  deriving DecidableEq, Repr

namespace Simulated

/-- What a medium that was never erased is filled with. -/
def garbage : Word := 0xA5A5A5A5

/-- A medium of `count` words; its pages are whole words and fill it up exactly. -/
def create (polarity : Polarity) (pageSize : Word) (count : Nat) : Except Violation Simulated :=
  if pageSize.toNat < 4 ∨ pageSize.toNat % 4 ≠ 0 ∨ 4 * count % pageSize.toNat ≠ 0 then
    .error .unfitPageSize
  else
    .ok ⟨polarity, pageSize, Array.replicate count garbage⟩

def capacity (medium : Simulated) : Nat :=
  4 * medium.words.size

def pageWords (medium : Simulated) : Nat :=
  medium.pageSize.toNat / 4

/-- The index of the word at `address`, provided that `count` words from there on lie inside the medium. -/
def locate (medium : Simulated) (address : Address) (count : Nat) : Except Violation Nat :=
  if address.toNat % 4 ≠ 0 then
    .error (.unaligned address)
  else if medium.words.size < address.toNat / 4 + count then
    .error (.outOfRange address)
  else
    .ok (address.toNat / 4)

def fill (words : Array Word) (start : Nat) (value : Word) : Nat → Array Word
  | 0 => words
  | count + 1 => (fill words start value count).setIfInBounds (start + count) value

def eraseFrom (medium : Simulated) (start count : Nat) : Simulated :=
  { medium with words := fill medium.words start medium.polarity.erased count }

def programFrom (eraseFirst : Bool) :
    Simulated → Nat → List Word → Except (Stop MediumError) Unit × Simulated
  | medium, _, [] => (.ok (), medium)
  | medium, index, word :: rest =>
      if eraseFirst ∧ medium.pageWords = 0 then
        (.error (.halt .zeroDivisor), medium)
      else
        let ready :=
          if eraseFirst ∧ index % medium.pageWords = 0 then medium.eraseFrom index medium.pageWords else medium
        let before := ready.words.getD index 0
        if ready.polarity.canProgram before word then
          programFrom eraseFirst { ready with words := ready.words.setIfInBounds index word } (index + 1) rest
        else
          (.error (.halt (.illegalWrite index before word)), ready)

def read (medium : Simulated) (address : Address) (count : Nat) : Fetch × Simulated :=
  match medium.locate address count with
  | .error violation => (⟨[], some (.halt violation)⟩, medium)
  | .ok start => (⟨(List.range count).map fun offset => medium.words.getD (start + offset) 0, none⟩, medium)

def write (medium : Simulated) (address : Address) (words : List Word) (eraseFirst : Bool) :
    Except (Stop MediumError) Unit × Simulated :=
  match medium.locate address words.length with
  | .error violation => (.error (.halt violation), medium)
  | .ok start => programFrom eraseFirst medium start words

def erase (medium : Simulated) (address : Address) (count : Word) : Except (Stop MediumError) Unit × Simulated :=
  if medium.pageSize = 0 then
    (.error (.halt .zeroDivisor), medium)
  else if address % medium.pageSize ≠ 0 ∨ (4 * count) % medium.pageSize ≠ 0 then
    (.error (.error .misaligned), medium)
  else
    match medium.locate address count.toNat with
    | .error violation => (.error (.halt violation), medium)
    | .ok start => (.ok (), medium.eraseFrom start count.toNat)

instance : Medium Simulated where
  polarity := Simulated.polarity
  pageSize := Simulated.pageSize
  read := read
  write := write
  erase := erase

/-- Reads a word past the contract. -/
def peek (medium : Simulated) (address : Address) : Except Violation Word :=
  (medium.locate address 1).map fun index => medium.words.getD index 0

/-- Replaces a word past the contract, as bit rot or a torn write would. -/
def poke (medium : Simulated) (address : Address) (value : Word) : Except Violation Simulated :=
  (medium.locate address 1).map fun index => { medium with words := medium.words.setIfInBounds index value }

end Simulated

end TwinLog
