import TwinLog.Polarity
import TwinLog.Violation

set_option autoImplicit false

namespace TwinLog

/-- The number that stands for a file inside a log. -/
abbrev FileId := Fin 64

/-- Numerals stand for file ids. The zero is the one that numerals of `Fin` refer to. -/
@[instance] theorem FileId.neZero : @NeZero Nat Zero.ofOfNat0 64 :=
  ⟨by decide⟩

def FileId.count : Nat := 64

def FileId.ofNat? (number : Nat) : Option FileId :=
  if inside : number < 64 then some ⟨number, inside⟩ else none

/-- What the first block of a chain declares: the file, the number of content bytes, and the content bits that the
continuation tags of the further blocks displace. -/
structure Start where
  id : FileId
  size : Fin 512
  restore : BitVec 15
  deriving DecidableEq, Repr

/-- Numerals stand for the sizes that a chain declares. -/
@[instance] theorem Start.neZero_size : @NeZero Nat Zero.ofOfNat0 512 :=
  ⟨by decide⟩

/-- What a block is, as its info word tells. -/
inductive Kind where
  /-- Binds an owner's identifier to a file id. -/
  | entry (id : FileId)
  /-- The first block of a chain. -/
  | start (start : Start)
  /-- A further block of a chain, or a block that was made void. -/
  | cont
  deriving DecidableEq, Repr

namespace Polarity

def entryTag : Polarity → Nat
  | ones => 3
  | zeros => 0

def startTag : Polarity → Nat
  | ones => 1
  | zeros => 2

def contBit : Polarity → Bool
  | ones => false
  | zeros => true

def entryWord (polarity : Polarity) (id : FileId) : Word :=
  UInt32.ofNat (polarity.entryTag + 4 * id.val)

def startWord (polarity : Polarity) (start : Start) : Word :=
  UInt32.ofNat (polarity.startTag + 4 * start.id.val + 256 * start.size.val + 131072 * start.restore.toNat)

/-- The info word of the first block of a chain from a size and restore bits of any width. The size is taken to 32 bits
before it is held against its field; restore bits beyond the fifteenth are dropped. -/
def startWord? (polarity : Polarity) (id : FileId) (size restore : Nat) : Except Violation Word :=
  if inside : size % 4294967296 < 512 then
    .ok (polarity.startWord ⟨id, ⟨size % 4294967296, inside⟩, BitVec.ofNat 15 restore⟩)
  else
    .error (.sizeOutOfRange size)

/-- A first content word with the continuation tag in place of its lowest bit. -/
def tagCont (polarity : Polarity) (word : Word) : Word :=
  word.setLowBit polarity.contBit

/-- The word that makes any block void when it is written over the info word. -/
def voidWord (polarity : Polarity) : Word :=
  polarity.programmed

/-- What the block with this info word is; every word is of some kind. -/
def kind (polarity : Polarity) (info : Word) : Kind :=
  let number := info.toNat
  let id := Fin.ofNat 64 (number / 4)
  if number % 4 = polarity.entryTag then
    .entry id
  else if number % 4 = polarity.startTag then
    .start ⟨id, Fin.ofNat 512 (number / 256), BitVec.ofNat 15 (number / 131072)⟩
  else
    .cont

@[simp] theorem kind_entryWord (polarity : Polarity) (id : FileId) :
    polarity.kind (polarity.entryWord id) = .entry id := by
  have bound := id.isLt
  have small : polarity.entryTag < 4 := by cases polarity <;> decide
  have number : (polarity.entryWord id).toNat = polarity.entryTag + 4 * id.val := by
    simp only [entryWord, UInt32.toNat_ofNat']
    omega
  have tag : (polarity.entryTag + 4 * id.val) % 4 = polarity.entryTag := by omega
  have field : Fin.ofNat 64 ((polarity.entryTag + 4 * id.val) / 4) = id := by
    apply Fin.ext
    simp only [Fin.val_ofNat]
    omega
  simp only [kind, number, tag, if_true, field]

@[simp] theorem kind_startWord (polarity : Polarity) (start : Start) :
    polarity.kind (polarity.startWord start) = .start start := by
  obtain ⟨id, size, restore⟩ := start
  have idBound := id.isLt
  have sizeBound := size.isLt
  have restoreBound := restore.isLt
  have small : polarity.startTag < 4 := by cases polarity <;> decide
  have distinct : polarity.startTag ≠ polarity.entryTag := by cases polarity <;> decide
  have number : (polarity.startWord ⟨id, size, restore⟩).toNat =
      polarity.startTag + 4 * id.val + 256 * size.val + 131072 * restore.toNat := by
    simp only [startWord, UInt32.toNat_ofNat']
    omega
  have tag : (polarity.startTag + 4 * id.val + 256 * size.val + 131072 * restore.toNat) % 4 =
      polarity.startTag := by omega
  have idField : Fin.ofNat 64
      ((polarity.startTag + 4 * id.val + 256 * size.val + 131072 * restore.toNat) / 4) = id := by
    apply Fin.ext
    simp only [Fin.val_ofNat]
    omega
  have sizeField : Fin.ofNat 512
      ((polarity.startTag + 4 * id.val + 256 * size.val + 131072 * restore.toNat) / 256) = size := by
    apply Fin.ext
    simp only [Fin.val_ofNat]
    omega
  have restoreField : BitVec.ofNat 15
      ((polarity.startTag + 4 * id.val + 256 * size.val + 131072 * restore.toNat) / 131072) = restore := by
    apply BitVec.eq_of_toNat_eq
    simp only [BitVec.toNat_ofNat]
    omega
  simp only [kind, number, tag, if_neg distinct, if_true, idField, sizeField, restoreField]

@[simp] theorem kind_tagCont (polarity : Polarity) (word : Word) : polarity.kind (polarity.tagCont word) = .cont := by
  have bound := word.toNat_lt
  cases polarity <;>
    simp only [kind, tagCont, contBit, Word.setLowBit, entryTag, startTag, UInt32.toNat_ofNat', Bool.toNat_false,
      Bool.toNat_true] <;>
    rw [if_neg (by omega), if_neg (by omega)]

@[simp] theorem kind_voidWord (polarity : Polarity) : polarity.kind polarity.voidWord = .cont := by
  cases polarity <;> decide

end Polarity

end TwinLog
