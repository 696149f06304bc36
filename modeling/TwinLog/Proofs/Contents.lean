import TwinLog.Partition
import TwinLog.Proofs.Blocks
import TwinLog.Proofs.LawfulMedium

set_option autoImplicit false

namespace TwinLog

abbrev Contents := Log → Nat → Block

namespace Contents

def put (contents : Contents) (log : Log) (index : Nat) (words : List Word) : Contents :=
  fun other position =>
    if other = log ∧ position = index then (contents log index).overlay words else contents other position

def wiped (contents : Contents) (polarity : Polarity) (log : Log) : Contents :=
  fun other position => if other = log then Block.blank polarity else contents other position

theorem put_same (contents : Contents) (log : Log) (index : Nat) (words : List Word) :
    contents.put log index words log index = (contents log index).overlay words :=
  if_pos ⟨rfl, rfl⟩

theorem put_apart (contents : Contents) {log other : Log} {index position : Nat} (words : List Word)
    (apart : ¬ (other = log ∧ position = index)) :
    contents.put log index words other position = contents other position :=
  if_neg apart

theorem put_other (contents : Contents) {log other : Log} (index : Nat) (words : List Word) (apart : other ≠ log) :
    contents.put log index words other = contents other :=
  funext fun _ => if_neg fun both => apart both.1

theorem wiped_same (contents : Contents) (polarity : Polarity) (log : Log) (position : Nat) :
    contents.wiped polarity log log position = Block.blank polarity :=
  if_pos rfl

theorem wiped_other (contents : Contents) (polarity : Polarity) {log other : Log} (apart : other ≠ log) :
    contents.wiped polarity log other = contents other :=
  funext fun _ => if_neg apart

@[simp] theorem put_nil (contents : Contents) (log : Log) (index : Nat) : contents.put log index [] = contents := by
  funext other position
  unfold put
  split
  · rename_i same
    rw [same.1, same.2, Block.overlay_nil]
  · rfl

end Contents

theorem Log.other_ne (log : Log) : log.other ≠ log := by
  cases log <;> decide

@[simp] theorem Log.other_other (log : Log) : log.other.other = log := by
  cases log <;> rfl

namespace Geometry

structure Checked (geometry : Geometry) (pageSize : Word) : Prop where
  size : geometry.size.toNat = 32 * geometry.blocks
  two : 2 ≤ geometry.blocks
  page : pageSize ≠ 0
  sizePage : geometry.size.toNat % pageSize.toNat = 0
  basePage : ∀ log, (geometry.base log).toNat % pageSize.toNat = 0
  apart : geometry.logA.toNat + geometry.size.toNat ≤ geometry.logB.toNat ∨
    geometry.logB.toNat + geometry.size.toNat ≤ geometry.logA.toNat

theorem check_ok {geometry : Geometry} {pageSize : Word} (passed : geometry.check pageSize = .ok ()) :
    geometry.Checked pageSize := by
  have bytes : Block.byteSize = 32 := rfl
  simp only [check] at passed
  split at passed
  · cases passed
  rename_i large
  split at passed
  · cases passed
  rename_i whole
  split at passed
  · cases passed
  rename_i aligned
  split at passed
  · cases passed
  rename_i apart
  simp only [not_or, ne_eq, Decidable.not_not, bytes] at large whole aligned
  refine ⟨?_, ?_, ?_, whole.2.2, ?_, by omega⟩
  · simp only [blocks, Block.byteSize]
    omega
  · simp only [blocks, Block.byteSize]
    omega
  · rintro rfl
    exact whole.1 rfl
  · intro log
    cases log
    · exact aligned.1
    · exact aligned.2

end Geometry

namespace Partition

variable {μ : Type} [Medium μ] [LawfulMedium μ]

open LawfulMedium

/-- The cell that holds the first word of a block. -/
def cellOf (partition : Partition) (log : Log) (index : Nat) : Nat :=
  (partition.geometry.base log).toNat / 4 + 8 * index

/-- Whether a medium in working order has room for the two logs. -/
structure Fits (partition : Partition) (medium : μ) : Prop where
  sound : Sound medium
  polarity : Medium.polarity medium = partition.polarity
  checked : partition.geometry.check (Medium.pageSize medium) = .ok ()
  addressable : ∀ log, (partition.geometry.base log).toNat + partition.geometry.size.toNat ≤ 4294967296
  inside : ∀ log, (partition.geometry.base log).toNat + partition.geometry.size.toNat ≤ 4 * cellCount medium

/-- The blocks that a medium holds; there are no others than those of the two logs. -/
def contents (partition : Partition) (medium : μ) : Contents := fun log index =>
  if index < partition.blocks then
    Block.ofList ((List.range 8).map fun offset => cell medium (partition.cellOf log index + offset))
  else
    Block.blank partition.polarity

variable {partition : Partition} {medium : μ}

theorem Fits.aligned (fits : partition.Fits medium) (log : Log) : (partition.geometry.base log).toNat % 4 = 0 := by
  have words : 4 ∣ (Medium.pageSize medium).toNat := Nat.dvd_of_mod_eq_zero (page_words fits.sound)
  have page := Nat.dvd_of_mod_eq_zero ((Geometry.check_ok fits.checked).basePage log)
  exact Nat.mod_eq_zero_of_dvd (Nat.dvd_trans words page)

theorem Fits.simulated {medium : Simulated} (sound : medium.pageSize.toNat % 4 = 0)
    (polarity : medium.polarity = partition.polarity) (checked : partition.geometry.check medium.pageSize = .ok ())
    (inside : ∀ log, (partition.geometry.base log).toNat + partition.geometry.size.toNat ≤
      min 4294967296 medium.capacity) :
    partition.Fits medium where
  sound := sound
  polarity := polarity
  checked := checked
  addressable := fun log => Nat.le_trans (inside log) (Nat.min_le_left _ _)
  inside := fun log => Nat.le_trans (inside log) (Nat.min_le_right _ _)

theorem Fits.address (fits : partition.Fits medium) (log : Log) {index : Nat} (inside : index < partition.blocks) :
    ∃ address, partition.address log index = .ok address ∧ address.toNat % 4 = 0 ∧
      address.toNat / 4 = partition.cellOf log index ∧ partition.cellOf log index + 8 ≤ cellCount medium := by
  have size := (Geometry.check_ok fits.checked).size
  have aligned := fits.aligned log
  have low := fits.addressable log
  have room := fits.inside log
  have bound : index < partition.geometry.blocks := inside
  have number : (partition.geometry.base log + UInt32.ofNat (Block.byteSize * index)).toNat =
      (partition.geometry.base log).toNat + 32 * index := by
    simp only [UInt32.toNat_add, UInt32.toNat_ofNat', Block.byteSize]
    omega
  refine ⟨_, if_pos inside, ?_, ?_, ?_⟩
  · rw [number]
    omega
  · rw [number, cellOf]
    omega
  · rw [cellOf]
    omega

theorem Fits.located (fits : partition.Fits medium) {log : Log} {index : Nat} {address : Address}
    (located : partition.address log index = .ok address) :
    index < partition.blocks ∧ address.toNat % 4 = 0 ∧ address.toNat / 4 = partition.cellOf log index ∧
      partition.cellOf log index + 8 ≤ cellCount medium := by
  have inside : index < partition.blocks := by
    rw [Partition.address] at located
    split at located
    · assumption
    · cases located
  obtain ⟨_, also, placed⟩ := fits.address log inside
  rw [located] at also
  cases also
  exact ⟨inside, placed⟩

theorem Fits.cells_apart (fits : partition.Fits medium) {log other : Log} {index position : Nat}
    (inside : index < partition.blocks) (inside' : position < partition.blocks)
    (apart : ¬ (other = log ∧ position = index)) :
    partition.cellOf log index + 8 ≤ partition.cellOf other position ∨
      partition.cellOf other position + 8 ≤ partition.cellOf log index := by
  have checked := Geometry.check_ok fits.checked
  have size := checked.size
  have logs := checked.apart
  have aligned := fits.aligned log
  have aligned' := fits.aligned other
  have bound : index < partition.geometry.blocks := inside
  have bound' : position < partition.geometry.blocks := inside'
  simp only [cellOf]
  cases log <;> cases other <;> simp only [Geometry.base, reduceCtorEq, true_and, false_and, not_false_eq_true]
    at apart aligned aligned' ⊢ <;> omega

theorem contents_inside (log : Log) {index : Nat} (inside : index < partition.blocks) {position : Nat}
    (within : position < 8) :
    (partition.contents medium log index).toList.getD position 0 =
      cell medium (partition.cellOf log index + position) := by
  rw [contents, if_pos inside, Block.getD_toList_ofList _ _ within]
  simp [List.getD_eq_getElem?_getD, within]

theorem contents_outside (log : Log) {index : Nat} (outside : partition.blocks ≤ index) :
    partition.contents medium log index = Block.blank partition.polarity :=
  if_neg (by omega)

end Partition

end TwinLog
