import TwinLog.Block

set_option autoImplicit false

namespace TwinLog

/-- The largest content of a file in bytes. -/
def maxFileSize : Nat := 504

/-- The number of blocks in the chain of a content of `size` bytes, a 32-bit number. -/
def blocksNeeded (size : Nat) : Nat :=
  if size ≤ 24 then 1 else (2 + (size - 25) / 32) % 4294967296

/-- The place of a block in its chain. -/
structure Slot where
  first : Bool
  last : Bool
  deriving DecidableEq, Repr

namespace Slot

def of (count index : Nat) : Slot :=
  ⟨index == 0, index + 1 == count⟩

def contentWords (slot : Slot) : Nat :=
  8 - slot.first.toNat - slot.last.toNat

def room (slot : Slot) : Nat :=
  4 * slot.contentWords

/-- The words of a block in this place, the checksum left out: the info word `info` or the continuation tag, and
`bytes`. -/
def words (slot : Slot) (polarity : Polarity) (info : Word) (bytes : List UInt8) : List Word :=
  let content := Word.pack slot.contentWords bytes
  if slot.first then info :: content else content.modifyHead polarity.tagCont

/-- The content bytes of a block in this place; `displaced` is the bit that the continuation tag replaced. -/
def content (slot : Slot) (displaced : Bool) (block : Block) : List UInt8 :=
  let held := (block.toList.drop slot.first.toNat).take slot.contentWords
  Word.unpack (if slot.first then held else held.modifyHead fun word => word.setLowBit displaced)

end Slot

/-- Bit `j` is the lowest bit of the first content byte of the `j`-th further block, where the content reaches it. -/
def restoreBits (data : List UInt8) : BitVec 15 :=
  (BitVec.ofBoolListLE ((List.range 15).map fun further =>
    (data[28 + 32 * further]?.getD 0).toNat % 2 == 1)).setWidth 15

/-- A chain in a log: the index of its first block and what that block declares. -/
structure Chain where
  start : Nat
  head : Start
  deriving DecidableEq, Repr

namespace Chain

def size (chain : Chain) : Nat :=
  chain.head.size.val

def count (chain : Chain) : Nat :=
  blocksNeeded chain.size

def stop (chain : Chain) : Nat :=
  chain.start + chain.count

/-- The content bit that the continuation tag of the block with `index` blocks before it replaced. -/
def displaced (chain : Chain) (index : Nat) : Bool :=
  chain.head.restore.getLsbD (index - 1)

/-- The last `remaining` of `count` blocks, for the bytes that are not laid out yet and the checksum `sum` of the
blocks before them. -/
def lay (polarity : Polarity) (info : Word) (count : Nat) : Nat → Word → List UInt8 → List Block
  | 0, _, _ => []
  | remaining + 1, sum, bytes =>
      let slot := Slot.of count (count - (remaining + 1))
      let words := slot.words polarity info (bytes.take slot.room)
      if slot.last then
        Block.sealed sum words :: lay polarity info count remaining sum (bytes.drop slot.room)
      else
        Block.ofList words ::
          lay polarity info count remaining (Checksum.crc32 sum words) (bytes.drop slot.room)

/-- The chain that holds `data` under the info word `info`. -/
def encode (polarity : Polarity) (info : Word) (data : List UInt8) : List Block :=
  lay polarity info (blocksNeeded data.length) (blocksNeeded data.length) 0 data

@[simp] theorem length_encode (polarity : Polarity) (info : Word) (data : List UInt8) :
    (encode polarity info data).length = blocksNeeded data.length := by
  have general (count remaining : Nat) (sum : Word) (bytes : List UInt8) :
      (lay polarity info count remaining sum bytes).length = remaining := by
    induction remaining generalizing sum bytes with
    | zero => rfl
    | succ remaining ih => simp only [lay]; split <;> simp only [List.length_cons, ih]
  exact general _ _ _ _

end Chain

end TwinLog
