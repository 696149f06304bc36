import TwinLog.Chain
import TwinLog.Partition

set_option autoImplicit false

namespace TwinLog

/-- The blocks of a log from the first after the marker up to `stop`, which is excluded. -/
structure Journal where
  partition : Partition
  log : Log
  stop : Nat
  deriving DecidableEq, Repr

inductive Lookup where
  /-- The block at `index` binds the identifier to `id`. -/
  | found (id : FileId) (index : Nat)
  /-- No block does; `id` is what a new entry would get, if any is left. -/
  | vacant (id : Option FileId)
  deriving DecidableEq, Repr

def FileId.lowestUnused (used : List FileId) : Option FileId :=
  (List.finRange 64).find? fun id => !used.contains id

namespace Journal

variable {σ : Type}

def polarity (journal : Journal) : Polarity :=
  journal.partition.polarity

def load (journal : Journal) (index : Nat) : Script σ Block :=
  journal.partition.load journal.log index

/-- Looks for the entry of `ufid` in the last `remaining` blocks, with the ids of the entries before them. -/
def lookupLast (journal : Journal) (ufid : Ufid) : Nat → List FileId → Script σ Lookup
  | 0, used => return .vacant (FileId.lowestUnused used)
  | remaining + 1, used => do
      let index := journal.stop - (remaining + 1)
      let block ← journal.load index
      match block.binding? journal.polarity with
      | some (id, owner) =>
          if owner = ufid then
            return .found id index
          else
            journal.lookupLast ufid remaining (id :: used)
      | none => journal.lookupLast ufid remaining used

/-- The first sound entry of `ufid`, or the id that a new one would get. -/
def lookup (journal : Journal) (ufid : Ufid) : Script σ Lookup :=
  journal.lookupLast ufid (journal.stop - 1) []

/-- Whether `block` and the `remaining` blocks before the index `stop` end a chain whose earlier blocks have the
checksum `sum`: all further blocks carry the continuation tag and the last one checks. -/
def continues (journal : Journal) (stop : Nat) : Nat → Word → Block → Script σ Bool
  | 0, sum, block => return block.checks sum
  | remaining + 1, sum, block => do
      let next ← journal.load (stop - (remaining + 1))
      if journal.polarity.kind next.info = .cont then
        journal.continues stop remaining (Checksum.crc32 sum block.toList) next
      else
        return false

/-- Whether a block that declares `chain` is the first of a sound one. -/
def accepts (journal : Journal) (chain : Chain) (first : Block) : Script σ Bool :=
  if maxFileSize < chain.size then
    return false
  else if journal.stop < chain.stop then
    return false
  else
    journal.continues chain.stop (chain.count - 1) 0 first

def chainAt (journal : Journal) (id : FileId) (index : Nat) : Script σ (Option Chain) := do
  let first ← journal.load index
  match journal.polarity.kind first.info with
  | .start head =>
      if head.id = id then
        let chain : Chain := ⟨index, head⟩
        if ← journal.accepts chain first then
          return some chain
        else
          return none
      else
        return none
  | _ => return none

/-- Makes the first block of a chain void, if there is one, as a later chain takes its place. -/
def supersede (journal : Journal) : Option Chain → Script σ Unit
  | none => return ()
  | some older => journal.partition.void journal.log older.start

/-- The last sound chain of the file `id` in the last `remaining` blocks, of which the first `inside` belong to the
chain `latest` and are passed over, or else `latest`. With `prune` the first block of a chain is made void as soon as
a later one is found. -/
def latestLast (journal : Journal) (id : FileId) (prune : Bool) :
    Nat → Nat → Option Chain → Script σ (Option Chain)
  | 0, _, latest => return latest
  | remaining + 1, inside + 1, latest => journal.latestLast id prune remaining inside latest
  | remaining + 1, 0, latest => do
      match ← journal.chainAt id (journal.stop - (remaining + 1)) with
      | none => journal.latestLast id prune remaining 0 latest
      | some chain =>
          if prune then
            journal.supersede latest
          journal.latestLast id prune remaining (chain.count - 1) (some chain)

def latest (journal : Journal) (id : FileId) (start : Nat) (prune : Bool) : Script σ (Option Chain) :=
  journal.latestLast id prune (journal.stop - start) 0 none

/-- Reads the last `remaining` blocks of a chain until `limit` bytes are there; `copied` is what came before. Every
block's bytes are handed to `note` together with those before them. -/
def readLast (journal : Journal) (chain : Chain) (limit : Nat) (note : List UInt8 → Script σ Unit) :
    Nat → List UInt8 → Script σ (List UInt8)
  | 0, copied => return copied
  | remaining + 1, copied => do
      if limit ≤ copied.length then
        return copied
      else
        let index := chain.count - (remaining + 1)
        let block ← journal.load (chain.start + index)
        let bytes := (Slot.of chain.count index).content (chain.displaced index) block
        let copied := copied ++ bytes.take (limit - copied.length)
        note copied
        journal.readLast chain limit note remaining copied

def read (journal : Journal) (chain : Chain) (limit : Nat) (note : List UInt8 → Script σ Unit) :
    Script σ (List UInt8) :=
  journal.readLast chain (min limit chain.size) note chain.count []

/-- Copies the last `remaining` blocks of a chain to the end of another log. -/
def copyChainLast (journal : Journal) (chain : Chain) (target : Log) : Nat → Nat → Script σ Nat
  | 0, free => return free
  | remaining + 1, free => do
      let block ← journal.load (chain.stop - (remaining + 1))
      let free ← journal.partition.append target free block
      journal.copyChainLast chain target remaining free

/-- Copies every entry in the last `remaining` blocks that has a sound chain after it, and its last such chain, to the
end of another log. -/
def copyLast (journal : Journal) (target : Log) : Nat → Nat → Script σ Nat
  | 0, free => return free
  | remaining + 1, free => do
      let index := journal.stop - (remaining + 1)
      let block ← journal.load index
      match block.binding? journal.polarity with
      | none => journal.copyLast target remaining free
      | some (id, _) =>
          match ← journal.latest id (index + 1) false with
          | none => journal.copyLast target remaining free
          | some chain =>
              let free ← journal.partition.append target free block
              let free ← journal.copyChainLast chain target chain.count free
              journal.copyLast target remaining free

def copyTo (journal : Journal) (target : Log) : Script σ Nat :=
  journal.copyLast target (journal.stop - 1) 1

end Journal

end TwinLog
