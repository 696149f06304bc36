import TwinLog.Medium.Simulated
import TwinLog.Proofs.Interruption

set_option autoImplicit false

namespace TwinLog

/-- The cells of a medium, and what an access within the contract does to them. -/
class LawfulMedium (μ : Type) [Medium μ] where
  /-- Whether the medium is in working order. -/
  Sound : μ → Prop
  /-- The number of cells. -/
  cellCount : μ → Nat
  /-- The word in a cell. -/
  cell : μ → Nat → Word
  page_words : ∀ {medium : μ}, Sound medium → (Medium.pageSize medium).toNat % 4 = 0
  read_inside : ∀ {medium : μ} {address : Address} {count : Nat}, Sound medium → address.toNat % 4 = 0 →
    address.toNat / 4 + count ≤ cellCount medium →
    Medium.read medium address count =
      (⟨(List.range count).map fun offset => cell medium (address.toNat / 4 + offset), none⟩, medium)
  write_inside : ∀ {medium : μ} {address : Address} {words : List Word}, Sound medium → address.toNat % 4 = 0 →
    address.toNat / 4 + words.length ≤ cellCount medium →
    (∀ index (inside : index < words.length),
      (Medium.polarity medium).canProgram (cell medium (address.toNat / 4 + index)) words[index] = true) →
    ∃ after, Medium.write medium address words false = (.ok (), after) ∧
      Sound after ∧ Medium.polarity after = Medium.polarity medium ∧
      Medium.pageSize after = Medium.pageSize medium ∧ cellCount after = cellCount medium ∧
      ∀ index, cell after index =
        if address.toNat / 4 ≤ index ∧ index < address.toNat / 4 + words.length then
          words.getD (index - address.toNat / 4) 0
        else cell medium index
  erase_inside : ∀ {medium : μ} {address : Address} {count : Word}, Sound medium → Medium.pageSize medium ≠ 0 →
    address.toNat % (Medium.pageSize medium).toNat = 0 →
    4 * count.toNat % (Medium.pageSize medium).toNat = 0 → 4 * count.toNat < 4294967296 →
    address.toNat / 4 + count.toNat ≤ cellCount medium →
    ∃ after, Medium.erase medium address count = (.ok (), after) ∧
      Sound after ∧ Medium.polarity after = Medium.polarity medium ∧
      Medium.pageSize after = Medium.pageSize medium ∧ cellCount after = cellCount medium ∧
      ∀ index, cell after index =
        if address.toNat / 4 ≤ index ∧ index < address.toNat / 4 + count.toNat then
          (Medium.polarity medium).erased
        else cell medium index

namespace Simulated

theorem size_fill (words : Array Word) (start : Nat) (value : Word) (count : Nat) :
    (fill words start value count).size = words.size := by
  induction count with
  | zero => rfl
  | succ count ih => simp only [fill, Array.size_setIfInBounds, ih]

theorem getD_set (words : Array Word) (position index : Nat) (value : Word) (inside : position < words.size) :
    (words.setIfInBounds position value).getD index 0 = if position = index then value else words.getD index 0 := by
  simp only [Array.getD_eq_getD_getElem?, Array.getElem?_setIfInBounds]
  split <;> simp_all

theorem getD_fill (words : Array Word) (start : Nat) (value : Word) (count index : Nat)
    (inside : start + count ≤ words.size) :
    (fill words start value count).getD index 0 =
      if start ≤ index ∧ index < start + count then value else words.getD index 0 := by
  induction count with
  | zero => rw [if_neg (by omega), fill]
  | succ count ih =>
      rw [fill, getD_set _ _ _ _ (by rw [size_fill]; omega), ih (by omega)]
      by_cases last : start + count = index
      · rw [if_pos last, if_pos (by omega)]
      · rw [if_neg last]
        by_cases earlier : start ≤ index ∧ index < start + count
        · rw [if_pos earlier, if_pos (by omega)]
        · rw [if_neg earlier, if_neg (by omega)]

theorem programFrom_inside (words : List Word) (medium : Simulated) (start : Nat)
    (inside : start + words.length ≤ medium.words.size)
    (taken : ∀ index (inside : index < words.length),
      medium.polarity.canProgram (medium.words.getD (start + index) 0) words[index] = true) :
    ∃ after, programFrom false medium start words = (.ok (), after) ∧
      after.polarity = medium.polarity ∧ after.pageSize = medium.pageSize ∧
      after.words.size = medium.words.size ∧
      ∀ index, after.words.getD index 0 =
        if start ≤ index ∧ index < start + words.length then words.getD (index - start) 0
        else medium.words.getD index 0 := by
  -- the rest of the words go into the cells behind the first, which it does not look at again
  induction words generalizing medium start with
  | nil =>
      refine ⟨medium, rfl, rfl, rfl, rfl, ?_⟩
      intro index
      rw [if_neg (by simp only [List.length_nil]; omega)]
  | cons word rest ih =>
      simp only [List.length_cons] at inside
      have first : medium.polarity.canProgram (medium.words.getD start 0) word = true := taken 0 (by simp)
      obtain ⟨after, ran, polarity, pageSize, size, cells⟩ :=
        ih { medium with words := medium.words.setIfInBounds start word } (start + 1)
          (by simp only [Array.size_setIfInBounds]; omega) (by
            intro index within
            have apart : start ≠ start + 1 + index := by omega
            have later := taken (index + 1) (by simp only [List.length_cons]; omega)
            simp only [List.getElem_cons_succ] at later
            rw [getD_set _ _ _ _ (by omega), if_neg apart,
              show start + 1 + index = start + (index + 1) by omega]
            exact later)
      refine ⟨after, ?_, polarity, pageSize, ?_, ?_⟩
      · simp only [programFrom, Bool.false_eq_true, false_and, ↓reduceIte, first, ran]
      · rw [size, Array.size_setIfInBounds]
      · intro index
        rw [cells, getD_set _ _ _ _ (by omega)]
        simp only [List.length_cons]
        by_cases here : start = index
        · subst here
          rw [if_neg (by omega), if_pos rfl, if_pos (by omega), Nat.sub_self, List.getD_cons_zero]
        · rw [if_neg here]
          by_cases later : start + 1 ≤ index ∧ index < start + 1 + rest.length
          · rw [if_pos later, if_pos (by omega), show index - start = index - (start + 1) + 1 by omega,
              List.getD_cons_succ]
          · rw [if_neg later, if_neg (by omega)]

theorem locate_inside {medium : Simulated} {address : Address} {count : Nat} (aligned : address.toNat % 4 = 0)
    (inside : address.toNat / 4 + count ≤ medium.words.size) :
    medium.locate address count = .ok (address.toNat / 4) := by
  rw [locate, if_neg (by omega), if_neg (by omega)]

instance : LawfulMedium Simulated where
  Sound := fun medium => medium.pageSize.toNat % 4 = 0
  cellCount := fun medium => medium.words.size
  cell := fun medium index => medium.words.getD index 0
  page_words := fun sound => sound
  read_inside := by
    intro medium address count _ aligned inside
    change Simulated.read medium address count = _
    rw [Simulated.read, locate_inside aligned inside]
  write_inside := by
    intro medium address words sound aligned inside taken
    obtain ⟨after, ran, polarity, pageSize, size, cells⟩ := programFrom_inside words medium _ inside taken
    refine ⟨after, ?_, ?_, polarity, pageSize, size, cells⟩
    · change Simulated.write medium address words false = _
      rw [Simulated.write, locate_inside aligned inside]
      exact ran
    · rw [pageSize]
      exact sound
  erase_inside := by
    intro medium address count sound nonzero page whole small inside
    have pageAligned : address % medium.pageSize = 0 := by
      apply UInt32.toNat_inj.mp
      rw [UInt32.toNat_mod]
      exact page
    have wholePages : (4 * count) % medium.pageSize = 0 := by
      apply UInt32.toNat_inj.mp
      rw [UInt32.toNat_mod, UInt32.toNat_mul,
        Nat.mod_eq_of_lt (show (4 : Word).toNat * count.toNat < 2 ^ 32 from small)]
      exact whole
    have aligned : address.toNat % 4 = 0 := by
      have divides : 4 ∣ medium.pageSize.toNat := Nat.dvd_of_mod_eq_zero sound
      exact Nat.mod_eq_zero_of_dvd (Nat.dvd_trans divides (Nat.dvd_of_mod_eq_zero page))
    refine ⟨medium.eraseFrom (address.toNat / 4) count.toNat, ?_, sound, rfl, rfl, size_fill _ _ _ _, ?_⟩
    · change Simulated.erase medium address count = _
      rw [Simulated.erase, if_neg (show medium.pageSize ≠ 0 from nonzero), pageAligned, wholePages, if_neg (by simp),
        locate_inside aligned inside]
    · intro index
      exact getD_fill _ _ _ _ _ inside

end Simulated

end TwinLog
