import TwinLog.Journal

set_option autoImplicit false

namespace TwinLog

/-- A mounted store: its active log and the index of the first free block in it. -/
structure Store where
  partition : Partition
  active : Log
  free : Nat
  deriving DecidableEq, Repr

structure Usage where
  active : Log
  /-- The number of blocks for entries and content. -/
  total : Nat
  /-- The number of them left before the next compaction. -/
  free : Nat
  deriving DecidableEq, Repr

namespace Store

variable {σ : Type}

/-- Mounts the store. The marked log is the active one, and the first log if both are marked; without a marked log the
first one is erased and made active. -/
def mount (polarity : Polarity) (pageSize : Word) (geometry : Geometry) : Script σ Store := do
  match geometry.check pageSize with
  | .error error => Script.fail (.geometry error)
  | .ok () =>
      let partition : Partition := ⟨polarity, geometry⟩
      if ← partition.isMarked .a then
        return ⟨partition, .a, ← partition.freeBelow .a partition.blocks⟩
      else if ← partition.isMarked .b then
        return ⟨partition, .b, ← partition.freeBelow .b partition.blocks⟩
      else
        partition.wipe .a
        partition.activate .a
        return ⟨partition, .a, 1⟩

def journal (store : Store) : Journal :=
  ⟨store.partition, store.active, store.free⟩

def usage (store : Store) : Usage :=
  ⟨store.active, store.partition.blocks - 1, store.partition.blocks - store.free⟩

def rotate (store : Store) : Script Store Store := do
  let target := store.active.other
  store.partition.wipe target
  let free ← store.journal.copyTo target
  store.partition.activate target
  let rotated : Store := { store with active := target, free }
  Script.leave rotated
  return rotated

def append (store : Store) (block : Block) : Script Store Store := do
  let free ← store.partition.append store.active store.free block
  let grown : Store := { store with free }
  Script.leave grown
  return grown

def appendAll (store : Store) : List Block → Script Store Store
  | [] => return store
  | block :: rest => do
      let grown ← store.append block
      grown.appendAll rest

def appendContent (store : Store) (id : FileId) (data : List UInt8) : Script Store Store := do
  let polarity := store.partition.polarity
  let info ← Script.require (polarity.startWord? id data.length (restoreBits data).toNat)
  store.appendAll (Chain.encode polarity info data)

/-- Appends the content of a file, and its entry if it has none, provided that they fit; tells whether they did. -/
def place (store : Store) (ufid : Ufid) (data : List UInt8) : Script Store Bool := do
  let left := store.usage.free
  let needed := blocksNeeded data.length
  match ← store.journal.lookup ufid with
  | .vacant none => Script.fail .noFileIds
  | .found id _ =>
      if needed ≤ left then
        discard (store.appendContent id data)
        return true
      else
        return false
  | .vacant (some id) =>
      if needed + 1 ≤ left then
        let store ← store.append (Block.entry store.partition.polarity id ufid)
        discard (store.appendContent id data)
        return true
      else
        return false

/-- Makes `data` the content of the file `ufid`. If it does not fit, the store is compacted, once. -/
def save (store : Store) (ufid : Ufid) (data : List UInt8) : Script Store Unit := do
  if maxFileSize < data.length then
    Script.fail .tooLarge
  else if ← store.place ufid data then
    return ()
  else
    let rotated ← store.rotate
    if ← rotated.place ufid data then
      return ()
    else
      Script.fail .noSpace

/-- Removes the file `ufid`; its content is left behind by the next compaction. -/
def remove (store : Store) (ufid : Ufid) : Script σ Unit := do
  match ← store.journal.lookup ufid with
  | .found _ index => store.partition.void store.active index
  | .vacant _ => Script.fail .notFound

/-- The chain that holds the content of the file `ufid`, if it has content; the chains that it supersedes are made
void. -/
def locate (store : Store) (ufid : Ufid) : Script σ (Option Chain) := do
  match ← store.journal.lookup ufid with
  | .found id index => store.journal.latest id (index + 1) true
  | .vacant _ => return none

def chainOf (store : Store) (ufid : Ufid) : Script σ Chain := do
  match ← store.locate ufid with
  | some chain => return chain
  | none => Script.fail .notFound

/-- Reads the file `ufid` into a buffer as far as it goes and returns the size of the file. The buffer is left behind
with what was copied; its bytes after that stay as they were. -/
def readInto (store : Store) (ufid : Ufid) (buffer : List UInt8) : Script (List UInt8) Nat := do
  let chain ← store.chainOf ufid
  discard (store.journal.read chain buffer.length fun copied =>
    Script.leave (copied ++ buffer.drop copied.length))
  return chain.size

def size (store : Store) (ufid : Ufid) : Script σ Nat := do
  let chain ← store.chainOf ufid
  return chain.size

def contains (store : Store) (ufid : Ufid) : Script σ Bool := do
  return (← store.locate ufid).isSome

def readAll (store : Store) (ufid : Ufid) : Script σ (List UInt8) := do
  let chain ← store.chainOf ufid
  store.journal.read chain chain.size fun _ => return ()

end Store

end TwinLog
