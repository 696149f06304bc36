import TwinLog.Script

set_option autoImplicit false

namespace TwinLog

/-- The two logs on a medium of some polarity. -/
structure Partition where
  polarity : Polarity
  geometry : Geometry
  deriving DecidableEq, Repr

namespace Partition

variable {σ : Type}

/-- The word that marks the log in use. -/
def marker : Word := 0x5346504A

def blocks (partition : Partition) : Nat :=
  partition.geometry.blocks

def address (partition : Partition) (log : Log) (index : Nat) : Except Violation Address :=
  if index < partition.blocks then
    .ok (partition.geometry.base log + UInt32.ofNat (Block.byteSize * index))
  else
    .error (.blockOutside index)

def load (partition : Partition) (log : Log) (index : Nat) : Script σ Block := do
  let words ← Script.fetch (← Script.require (partition.address log index)) Block.wordCount
  return Block.ofList words

/-- Writes a block where the log is still erased, and returns the index after it. -/
def append (partition : Partition) (log : Log) (free : Nat) (block : Block) : Script σ Nat := do
  Script.program (← Script.require (partition.address log free)) block.toList
  return free + 1

def void (partition : Partition) (log : Log) (index : Nat) : Script σ Unit := do
  Script.program (← Script.require (partition.address log index)) [partition.polarity.voidWord]

def isMarked (partition : Partition) (log : Log) : Script σ Bool := do
  let words ← Script.fetch (← Script.require (partition.address log 0)) 1
  return words.headD 0 == marker

def mark (partition : Partition) (log : Log) : Script σ Unit := do
  Script.program (← Script.require (partition.address log 0)) [marker]

def wipe (partition : Partition) (log : Log) : Script σ Unit := do
  Script.wipe (← Script.require (partition.address log 0)) (UInt32.ofNat (Block.wordCount * partition.blocks))

/-- Makes a log the active one. The new marker is written before the old one is destroyed, so that at any moment one
of the logs carries it. -/
def activate (partition : Partition) (log : Log) : Script σ Unit := do
  if !(← partition.isMarked log) then
    partition.mark log
  if ← partition.isMarked log.other then
    partition.void log.other 0

/-- The index after the last block below `free` that is not erased; block 0 counts as written. -/
def freeBelow (partition : Partition) (log : Log) : Nat → Script σ Nat
  | 0 => return 0
  | 1 => return 1
  | free + 2 => do
      let block ← partition.load log (free + 1)
      if block.isErased partition.polarity then
        partition.freeBelow log (free + 1)
      else
        return free + 2

end Partition

end TwinLog
