import TwinLog.Proofs.LawfulNor

set_option autoImplicit false

namespace TwinLog

/-- A medium and what became of it when at most the `count` cells from `first` on changed. -/
structure LawfulMedium.ChangedIn {μ : Type} [Medium μ] [LawfulMedium μ] (before after : μ) (first count : Nat) :
    Prop where
  sound : LawfulMedium.Sound after
  polarity : Medium.polarity after = Medium.polarity before
  pageSize : Medium.pageSize after = Medium.pageSize before
  cellCount : LawfulMedium.cellCount after = LawfulMedium.cellCount before
  cells : ∀ index, index < first ∨ first + count ≤ index →
    LawfulMedium.cell after index = LawfulMedium.cell before index

/-- A medium on which every write that stays inside of it is confined to the cells that it names. -/
class LocalMedium (μ : Type) [Medium μ] extends LawfulMedium μ where
  write_local : ∀ {medium : μ} {address : Address} {words : List Word}, Sound medium → address.toNat % 4 = 0 →
    address.toNat / 4 + words.length ≤ cellCount medium →
    LawfulMedium.ChangedIn medium (Medium.write medium address words false).2 (address.toNat / 4) words.length

open LawfulMedium

namespace Simulated

theorem programFrom_local (words : List Word) (medium : Simulated) (start : Nat)
    (sound : medium.pageSize.toNat % 4 = 0) (inside : start + words.length ≤ medium.words.size) :
    ChangedIn medium (programFrom false medium start words).2 start words.length := by
  induction words generalizing medium start with
  | nil => exact ⟨sound, rfl, rfl, rfl, fun _ _ => rfl⟩
  | cons word rest ih =>
      simp only [List.length_cons] at inside ⊢
      simp only [programFrom, Bool.false_eq_true, false_and, ↓reduceIte]
      split
      · have later := ih { medium with words := medium.words.setIfInBounds start word } (start + 1) sound
          (by simp only [Array.size_setIfInBounds]; omega)
        constructor
        · exact later.sound
        · exact later.polarity
        · exact later.pageSize
        · exact later.cellCount.trans Array.size_setIfInBounds
        · intro index apart
          have other : start ≠ index := by omega
          rw [later.cells index (by omega)]
          change (medium.words.setIfInBounds start word).getD index 0 = medium.words.getD index 0
          rw [getD_set _ _ _ _ (by omega), if_neg other]
      · exact ⟨sound, rfl, rfl, rfl, fun _ _ => rfl⟩

instance : LocalMedium Simulated where
  write_local := by
    intro medium address words sound aligned inside
    change ChangedIn medium (Simulated.write medium address words false).2 _ _
    rw [Simulated.write, locate_inside aligned inside]
    exact programFrom_local words medium _ sound inside

end Simulated

namespace NorWords

theorem writeWords_local (words : List Word) (flash : NorWords NorMemory) (inOrder : flash.InOrder) (page : Word)
    {address : Address} (aligned : address.toNat % 4 = 0)
    (inside : address.toNat / 4 + words.length ≤ flash.driver.bytes.size / 4) :
    ChangedIn flash (writeWords page false flash.driver address words).2 (address.toNat / 4) words.length := by
  induction words generalizing flash address with
  | nil => exact ⟨inOrder, rfl, rfl, rfl, fun _ _ => rfl⟩
  | cons word rest ih =>
      simp only [List.length_cons] at inside ⊢
      obtain ⟨next, wrote, inOrder', eraseSize, bytes⟩ := write_bytes inOrder word aligned (by omega)
      have size : next.driver.bytes.size = flash.driver.bytes.size := by rw [bytes, NorMemory.size_program]
      have addressed := inOrder.addressed
      have moved : (address + 4).toNat = address.toNat + 4 := @toNat_add address 4 (by omega)
      have further : (address + 4).toNat / 4 = address.toNat / 4 + 1 := by omega
      have later := @ih next inOrder' (address + 4) (by omega) (by rw [further, size]; omega)
      simp only [writeWords, Bool.false_eq_true, false_and, ↓reduceIte, wrote]
      rw [further] at later
      constructor
      · exact later.sound
      · rfl
      · exact later.pageSize.trans (congrArg UInt32.ofNat eraseSize)
      · exact later.cellCount.trans (congrArg (· / 4) size)
      · intro index apart
        rw [later.cells index (by omega)]
        exact (cell_programmed aligned (by omega) bytes index).trans (if_neg (by omega))

instance : LocalMedium (NorWords NorMemory) where
  write_local := by
    intro flash address words inOrder aligned inside
    have start : address % 4 = 0 := by
      apply UInt32.toNat_inj.mp
      rw [UInt32.toNat_mod]
      exact aligned
    change ChangedIn flash (NorWords.write flash address words false).2 _ _
    rw [NorWords.write, if_neg (by rw [start]; simp)]
    exact writeWords_local words flash inOrder flash.pageSize aligned inside

end NorWords

end TwinLog
