import TwinLog.Checksum
import TwinLog.Info

set_option autoImplicit false

namespace TwinLog

/-- The identifier under which a file's owner knows it. -/
abbrev Ufid := Vector UInt8 12

def Ufid.byteSize : Nat := 12

/-- Eight words of a log. -/
structure Block where
  words : Vector Word 8
  deriving DecidableEq, Repr

namespace Block

def wordCount : Nat := 8

def byteSize : Nat := 32

/-- The block that holds the first eight of `words`; words that are missing count as zero. -/
def ofList (words : List Word) : Block :=
  ⟨Vector.ofFn fun position => words.getD position.val 0⟩

def toList (block : Block) : List Word :=
  block.words.toList

def info (block : Block) : Word :=
  block.words[0]

def body (block : Block) : List Word :=
  block.toList.take 7

def closing (block : Block) : Word :=
  block.words[7]

/-- The block of seven words and the checksum that continues `seed` over them. -/
def sealed (seed : Word) (body : List Word) : Block :=
  ofList (body ++ [Checksum.crc32 seed body])

/-- Whether the last word is the checksum that continues `seed` over the others. -/
def checks (block : Block) (seed : Word) : Bool :=
  Checksum.crc32 seed block.body == block.closing

def isErased (block : Block) (polarity : Polarity) : Bool :=
  block.toList.all (· == polarity.erased)

def ufid (block : Block) : Ufid :=
  Vector.ofFn fun position => Word.byte (block.words.get ⟨1 + position.val / 4, by omega⟩) (position.val % 4)

/-- The entry block that binds `ufid` to `id`. -/
def entry (polarity : Polarity) (id : FileId) (ufid : Ufid) : Block :=
  sealed 0 (polarity.entryWord id :: Word.pack 6 ufid.toList)

/-- The binding that a sound entry block carries. -/
def binding? (polarity : Polarity) (block : Block) : Option (FileId × Ufid) :=
  match polarity.kind block.info with
  | .entry id => if block.checks 0 then some (id, block.ufid) else none
  | _ => none

@[simp] theorem length_toList (block : Block) : block.toList.length = 8 := by
  simp only [toList, Vector.length_toList]

theorem toList_ofList {words : List Word} (eight : words.length = 8) : (ofList words).toList = words := by
  apply List.ext_getElem
  · rw [length_toList, eight]
  · intro position inside outside
    simp [toList, ofList, List.getElem?_eq_getElem outside]

@[simp] theorem ofList_toList (block : Block) : ofList block.toList = block := by
  obtain ⟨words⟩ := block
  simp only [ofList, toList, mk.injEq]
  apply Vector.ext
  intro position inside
  simp

theorem toList_eq (block : Block) : block.toList = block.body ++ [block.closing] := by
  have last : block.toList.drop 7 = [block.closing] := by
    apply List.ext_getElem
    · simp
    · intro position inside outside
      have first : position = 0 := by simp at outside; omega
      subst first
      simp [toList, closing]
  rw [body, ← last, List.take_append_drop]

theorem toList_sealed {seed : Word} {body : List Word} (seven : body.length = 7) :
    (sealed seed body).toList = body ++ [Checksum.crc32 seed body] :=
  toList_ofList (by simp [seven])

theorem checks_sealed {seed : Word} {body : List Word} (seven : body.length = 7) :
    (sealed seed body).checks seed = true := by
  have whole := toList_eq (sealed seed body)
  rw [toList_sealed seven] at whole
  have parts := List.append_inj whole (by simp [Block.body, seven])
  simp only [checks, ← parts.1, beq_iff_eq]
  simpa using parts.2

end Block

end TwinLog
