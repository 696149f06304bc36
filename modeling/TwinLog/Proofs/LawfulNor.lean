import Mathlib.Algebra.GroupWithZero.Nat
import TwinLog.Nor.Memory
import TwinLog.Nor.Words
import TwinLog.Proofs.Contents

set_option autoImplicit false

namespace TwinLog

namespace Word

theorem byte_and (first second : Word) (position : Nat) :
    byte (first &&& second) position = byte first position &&& byte second position := by
  apply UInt8.toNat_inj.mp
  simp only [byte, UInt8.toNat_and, UInt8.toNat_ofNat', UInt32.toNat_and, Nat.shiftRight_and_distrib,
    Nat.and_mod_two_pow]

theorem and_of_canProgram {before after : Word} (taken : Polarity.ones.canProgram before after = true) :
    before &&& after = after := by
  have cleared : after &&& ~~~ before = 0 := by simpa only [Polarity.canProgram, beq_iff_eq] using taken
  apply UInt32.toBitVec_inj.mp
  ext index within
  have bit := congrArg (fun word => word.toBitVec[index]) cleared
  simp only [UInt32.toBitVec_and, UInt32.toBitVec_not, BitVec.getElem_and, BitVec.getElem_not,
    UInt32.toBitVec_zero, BitVec.getElem_zero] at bit ⊢
  cases old : before.toBitVec[index] <;> simp_all

theorem getD_bytes (word : Word) {position : Nat} (within : position < 4) :
    word.bytes.getD position 0 = word.byte position := by
  have places : position = 0 ∨ position = 1 ∨ position = 2 ∨ position = 3 := by omega
  rcases places with rfl | rfl | rfl | rfl <;> rfl

theorem byte_erased : ∀ position < 4, byte (Polarity.erased .ones) position = 0xFF := by
  decide

end Word

namespace NorMemory

theorem getD_set (bytes : Array UInt8) (position index : Nat) (value : UInt8) (inside : position < bytes.size) :
    (bytes.setIfInBounds position value).getD index 0 = if position = index then value else bytes.getD index 0 := by
  simp only [Array.getD_eq_getD_getElem?, Array.getElem?_setIfInBounds]
  split <;> simp_all

@[simp] theorem size_program (values : List UInt8) (bytes : Array UInt8) (start : Nat) :
    (program bytes start values).size = bytes.size := by
  induction values generalizing bytes start with
  | nil => rfl
  | cons value rest ih => rw [program, ih, Array.size_setIfInBounds]

@[simp] theorem size_clear (bytes : Array UInt8) (start count : Nat) : (clear bytes start count).size = bytes.size := by
  induction count with
  | zero => rfl
  | succ count ih => rw [clear, Array.size_setIfInBounds, ih]

theorem getD_program (values : List UInt8) (bytes : Array UInt8) (start index : Nat)
    (inside : start + values.length ≤ bytes.size) :
    (program bytes start values).getD index 0 =
      if start ≤ index ∧ index < start + values.length then
        bytes.getD index 0 &&& values.getD (index - start) 0
      else bytes.getD index 0 := by
  induction values generalizing bytes start with
  | nil => rw [if_neg (by simp only [List.length_nil]; omega), program]
  | cons value rest ih =>
      simp only [List.length_cons] at inside ⊢
      rw [program, ih _ _ (by rw [Array.size_setIfInBounds]; omega), getD_set _ _ _ _ (by omega)]
      by_cases here : start = index
      · subst here
        rw [if_neg (by omega), if_pos rfl, if_pos (by omega), Nat.sub_self, List.getD_cons_zero]
      · rw [if_neg here]
        by_cases later : start + 1 ≤ index ∧ index < start + 1 + rest.length
        · rw [if_pos later, if_pos (by omega), show index - start = index - (start + 1) + 1 by omega,
            List.getD_cons_succ]
        · rw [if_neg later, if_neg (by omega)]

theorem getD_clear (bytes : Array UInt8) (start count index : Nat) (inside : start + count ≤ bytes.size) :
    (clear bytes start count).getD index 0 =
      if start ≤ index ∧ index < start + count then 0xFF else bytes.getD index 0 := by
  induction count with
  | zero => rw [if_neg (by omega), clear]
  | succ count ih =>
      rw [clear, getD_set _ _ _ _ (by rw [size_clear]; omega), ih (by omega)]
      by_cases last : start + count = index
      · rw [if_pos last, if_pos (by omega)]
      · rw [if_neg last]
        by_cases earlier : start ≤ index ∧ index < start + count
        · rw [if_pos earlier, if_pos (by omega)]
        · rw [if_neg earlier, if_neg (by omega)]

theorem bytes_wordAt (memory : NorMemory) (start : Nat) :
    (memory.wordAt start).bytes = (List.range 4).map fun position => memory.bytes.getD (start + position) 0 :=
  Word.bytes_ofBytes _ _ _ _

theorem getD_bytes_wordAt (memory : NorMemory) (start : Nat) {position : Nat} (within : position < 4) :
    memory.bytes.getD (start + position) 0 = (memory.wordAt start).bytes.getD position 0 := by
  rw [bytes_wordAt, List.getD_eq_getElem?_getD, List.getElem?_map, List.getElem?_range within]
  rfl

theorem wordAt_congr {first second : NorMemory} {start : Nat}
    (same : ∀ position < 4, first.bytes.getD (start + position) 0 = second.bytes.getD (start + position) 0) :
    first.wordAt start = second.wordAt start := by
  rw [wordAt, wordAt]
  congr 1
  exact List.map_congr_left fun position member => same position (List.mem_range.mp member)

theorem wordAt_eq {memory : NorMemory} {start : Nat} {word : Word}
    (same : ∀ position < 4, memory.bytes.getD (start + position) 0 = word.byte position) :
    memory.wordAt start = word := by
  rw [← Word.ofBytes_bytes word, wordAt]
  congr 1
  exact List.map_congr_left fun position member => same position (List.mem_range.mp member)

/-- Programming the bytes of a word leaves the conjunction of both words in its place, and every other word. -/
theorem wordAt_program (memory : NorMemory) (word : Word) {index : Nat} (inside : 4 * index + 4 ≤ memory.bytes.size)
    (other : Nat) :
    wordAt { memory with bytes := program memory.bytes (4 * index) word.bytes } (4 * other) =
      if index = other then memory.wordAt (4 * index) &&& word else memory.wordAt (4 * other) := by
  have room : 4 * index + word.bytes.length ≤ memory.bytes.size := inside
  by_cases here : index = other
  · subst here
    rw [if_pos rfl]
    refine wordAt_eq fun position within => ?_
    have old : memory.bytes.getD (4 * index + position) 0 = (memory.wordAt (4 * index)).byte position := by
      rw [getD_bytes_wordAt _ _ within]
      exact Word.getD_bytes _ within
    rw [getD_program _ _ _ _ room, Word.length_bytes, if_pos (by omega), Nat.add_sub_cancel_left, old,
      Word.getD_bytes _ within, Word.byte_and]
  · rw [if_neg here]
    refine wordAt_congr fun position within => ?_
    rw [getD_program _ _ _ _ room, Word.length_bytes, if_neg (by omega)]

theorem wordAt_clear (memory : NorMemory) {start count : Nat} (inside : 4 * start + 4 * count ≤ memory.bytes.size)
    (other : Nat) :
    wordAt { memory with bytes := clear memory.bytes (4 * start) (4 * count) } (4 * other) =
      if start ≤ other ∧ other < start + count then Polarity.erased .ones else memory.wordAt (4 * other) := by
  by_cases within : start ≤ other ∧ other < start + count
  · rw [if_pos within]
    refine wordAt_eq fun position low => ?_
    rw [getD_clear _ _ _ _ inside, if_pos (by omega)]
    exact (Word.byte_erased position low).symm
  · rw [if_neg within]
    refine wordAt_congr fun position low => ?_
    rw [getD_clear _ _ _ _ inside, if_neg (by omega)]

theorem pack_range (memory : NorMemory) (start count : Nat) :
    Word.pack count ((List.range (4 * count)).map fun position => memory.bytes.getD (start + position) 0) =
      (List.range count).map fun offset => memory.wordAt (start + 4 * offset) := by
  induction count generalizing start with
  | zero => rfl
  | succ count ih =>
      have bytes : (List.range (4 * (count + 1))).map (fun position => memory.bytes.getD (start + position) 0) =
          (List.range 4).map (fun position => memory.bytes.getD (start + position) 0) ++
            (List.range (4 * count)).map fun position => memory.bytes.getD (start + 4 + position) 0 := by
        rw [show 4 * (count + 1) = 4 + 4 * count by omega, List.range_add, List.map_append, List.map_map]
        simp only [Function.comp_def, Nat.add_assoc]
      have words : (List.range (count + 1)).map (fun offset => memory.wordAt (start + 4 * offset)) =
          memory.wordAt start :: (List.range count).map fun offset => memory.wordAt (start + 4 + 4 * offset) := by
        rw [List.range_succ_eq_map, List.map_cons, List.map_map]
        simp only [Function.comp_def, Nat.succ_eq_add_one, Nat.mul_add, Nat.mul_one, Nat.mul_zero, Nat.add_zero,
          Nat.add_assoc, Nat.add_comm]
      rw [bytes, words, Word.pack, List.take_left' (by simp), List.drop_left' (by simp), ih]
      rfl

section Steady

variable {memory : NorMemory} (steady : memory.fault = none)
include steady

theorem tick_steady : memory.tick = (none, memory) := by
  rw [tick, steady]

theorem read_steady {offset : Address} {count : Nat} (inside : offset.toNat + count ≤ memory.bytes.size) :
    NorDriver.read memory offset count =
      (.ok ((List.range count).map fun position => memory.bytes.getD (offset.toNat + position) 0), memory) := by
  change memory.read offset count = _
  rw [read, tick_steady steady]
  exact if_neg (Nat.not_lt.mpr inside)

theorem write_steady {offset : Address} {values : List UInt8} (start : offset.toNat % memory.writeSize = 0)
    (whole : values.length % memory.writeSize = 0) (inside : offset.toNat + values.length ≤ memory.bytes.size) :
    NorDriver.write memory offset values =
      (.ok (), { memory with bytes := program memory.bytes offset.toNat values }) := by
  change memory.write offset values = _
  rw [write, tick_steady steady]
  simp only
  rw [if_neg (by rw [start, whole]; simp), if_neg (Nat.not_lt.mpr inside)]

theorem erase_steady {start stop : Address} (first : start.toNat % memory.eraseSize = 0)
    (last : stop.toNat % memory.eraseSize = 0) (forward : start.toNat ≤ stop.toNat)
    (inside : stop.toNat ≤ memory.bytes.size) :
    NorDriver.erase memory start stop =
      (.ok (), { memory with bytes := clear memory.bytes start.toNat (stop.toNat - start.toNat) }) := by
  change memory.erase start stop = _
  rw [erase, tick_steady steady]
  simp only
  rw [if_neg (by rw [first, last]; simp), if_neg (by omega)]

end Steady

end NorMemory

namespace NorWords

theorem word_aligned {address : Address} (aligned : address.toNat % 4 = 0) : address % 4 = 0 := by
  apply UInt32.toNat_inj.mp
  rw [UInt32.toNat_mod]
  exact aligned

/-- NOR flash in memory in working order: no failure is planned, words can be programmed one by one, pages are whole
words, and addresses reach every byte. -/
structure InOrder (flash : NorWords NorMemory) : Prop where
  steady : flash.driver.fault = none
  writable : 4 % flash.driver.writeSize = 0
  page_words : flash.driver.eraseSize % 4 = 0
  page_small : flash.driver.eraseSize < 4294967296
  addressed : flash.driver.bytes.size < 4294967296

def cell (flash : NorWords NorMemory) (index : Nat) : Word :=
  flash.driver.wordAt (4 * index)

variable {flash : NorWords NorMemory}

theorem toNat_pageSize (inOrder : flash.InOrder) : flash.pageSize.toNat = flash.driver.eraseSize :=
  (UInt32.toNat_ofNat').trans (Nat.mod_eq_of_lt inOrder.page_small)

theorem sum_portions (count : Nat) : (portions count).sum = count := by
  rw [portions, List.sum_append_nat, List.sum_replicate_nat]
  split
  · simp only [List.sum_nil]
    omega
  · simp only [List.sum_cons, List.sum_nil]
    omega

theorem toNat_add {address : Address} {distance : Nat} (inside : address.toNat + distance < 4294967296) :
    (address + UInt32.ofNat distance).toNat = address.toNat + distance := by
  rw [UInt32.toNat_add, UInt32.toNat_ofNat', Nat.mod_eq_of_lt (show distance < 2 ^ 32 by omega),
    Nat.mod_eq_of_lt (by omega)]

theorem readPortions_inside {memory : NorMemory} (steady : memory.fault = none)
    (addressed : memory.bytes.size < 4294967296) (counts : List Nat) {offset : Address} (copied : List Word)
    (inside : offset.toNat + 4 * counts.sum ≤ memory.bytes.size) :
    readPortions memory offset copied counts =
      (⟨copied ++ (List.range counts.sum).map fun index => memory.wordAt (offset.toNat + 4 * index), none⟩,
        ⟨memory⟩) := by
  induction counts generalizing offset copied with
  | nil => rw [readPortions, List.sum_nil, List.range_zero, List.map_nil, List.append_nil]
  | cons count rest ih =>
      rw [List.sum_cons] at inside ⊢
      have moved := @toNat_add offset (4 * count) (by omega)
      rw [readPortions, NorMemory.read_steady steady (by omega)]
      simp only
      rw [ih _ (by rw [moved]; omega), NorMemory.pack_range, moved, List.range_add, List.map_append, List.map_map,
        List.append_assoc]
      simp only [Function.comp_def, Nat.mul_add, Nat.add_assoc]

theorem fits_bytes {address : Address} (aligned : address.toNat % 4 = 0)
    (inside : address.toNat / 4 < flash.driver.bytes.size / 4) (word : Word) :
    address.toNat + word.bytes.length ≤ flash.driver.bytes.size := by
  rw [Word.length_bytes]
  omega

theorem write_bytes (inOrder : flash.InOrder) {address : Address} (word : Word) (aligned : address.toNat % 4 = 0)
    (inside : address.toNat / 4 < flash.driver.bytes.size / 4) :
    ∃ after : NorWords NorMemory, NorDriver.write flash.driver address word.bytes = (.ok (), after.driver) ∧
      after.InOrder ∧ after.driver.eraseSize = flash.driver.eraseSize ∧
      after.driver.bytes = NorMemory.program flash.driver.bytes address.toNat word.bytes := by
  obtain ⟨steady, writable, page_words, page_small, addressed⟩ := inOrder
  have room := fits_bytes aligned inside word
  have divides : flash.driver.writeSize ∣ 4 := Nat.dvd_of_mod_eq_zero writable
  have offset : address.toNat % flash.driver.writeSize = 0 :=
    Nat.mod_eq_zero_of_dvd (Nat.dvd_trans divides (Nat.dvd_of_mod_eq_zero aligned))
  refine ⟨⟨{ flash.driver with bytes := NorMemory.program flash.driver.bytes address.toNat word.bytes }⟩, ?_,
    ⟨steady, writable, page_words, page_small, ?_⟩, rfl, rfl⟩
  · exact NorMemory.write_steady steady offset writable room
  · rw [NorMemory.size_program]
    exact addressed

theorem cell_programmed {after : NorWords NorMemory} {address : Address} {word : Word}
    (aligned : address.toNat % 4 = 0) (inside : address.toNat / 4 < flash.driver.bytes.size / 4)
    (bytes : after.driver.bytes = NorMemory.program flash.driver.bytes address.toNat word.bytes) (index : Nat) :
    after.cell index =
      if address.toNat / 4 = index then flash.cell (address.toNat / 4) &&& word else flash.cell index := by
  have start : 4 * (address.toNat / 4) = address.toNat := by omega
  have programmed := @NorMemory.wordAt_program flash.driver word (address.toNat / 4) (by omega) index
  rw [start, ← bytes] at programmed
  rw [cell, cell, cell, start]
  exact programmed

/-- Programming a word over cells that take it stores it. -/
theorem write_word (inOrder : flash.InOrder) {address : Address} {word : Word} (aligned : address.toNat % 4 = 0)
    (inside : address.toNat / 4 < flash.driver.bytes.size / 4)
    (taken : Polarity.ones.canProgram (flash.cell (address.toNat / 4)) word = true) :
    ∃ after : NorWords NorMemory, NorDriver.write flash.driver address word.bytes = (.ok (), after.driver) ∧
      after.InOrder ∧ after.driver.eraseSize = flash.driver.eraseSize ∧
      after.driver.bytes.size = flash.driver.bytes.size ∧
      ∀ index, after.cell index = if address.toNat / 4 = index then word else flash.cell index := by
  obtain ⟨after, ran, inOrder', eraseSize, bytes⟩ := write_bytes inOrder word aligned inside
  refine ⟨after, ran, inOrder', eraseSize, by rw [bytes, NorMemory.size_program], ?_⟩
  intro index
  rw [cell_programmed aligned inside bytes, Word.and_of_canProgram taken]

theorem writeWords_inside (words : List Word) (flash : NorWords NorMemory) (inOrder : flash.InOrder) (page : Word)
    {address : Address} (aligned : address.toNat % 4 = 0)
    (inside : address.toNat / 4 + words.length ≤ flash.driver.bytes.size / 4)
    (taken : ∀ index (inside : index < words.length),
      Polarity.ones.canProgram (flash.cell (address.toNat / 4 + index)) words[index] = true) :
    ∃ after : NorWords NorMemory, writeWords page false flash.driver address words = (.ok (), after) ∧
      after.InOrder ∧ after.driver.eraseSize = flash.driver.eraseSize ∧
      after.driver.bytes.size = flash.driver.bytes.size ∧
      ∀ index, after.cell index =
        if address.toNat / 4 ≤ index ∧ index < address.toNat / 4 + words.length then
          words.getD (index - address.toNat / 4) 0
        else flash.cell index := by
  -- one call of the driver for each word; the cells behind it are as they were
  induction words generalizing flash address with
  | nil =>
      refine ⟨flash, rfl, inOrder, rfl, rfl, ?_⟩
      intro index
      rw [if_neg (by simp only [List.length_nil]; omega)]
  | cons word rest ih =>
      simp only [List.length_cons] at inside ⊢
      obtain ⟨next, wrote, inOrder', eraseSize, size, cells⟩ :=
        @write_word flash inOrder address word aligned (by omega) (taken 0 (by simp))
      have addressed := inOrder.addressed
      have moved : (address + 4).toNat = address.toNat + 4 := @toNat_add address 4 (by omega)
      have later : (address + 4).toNat / 4 = address.toNat / 4 + 1 := by omega
      obtain ⟨after, ran, inOrder'', eraseSize', size', cells'⟩ :=
        @ih next inOrder' (address + 4) (by omega) (by rw [later, size]; omega) (by
          intro index within
          rw [later, cells, if_neg (by omega), show address.toNat / 4 + 1 + index = address.toNat / 4 + (index + 1) by
            omega]
          exact taken (index + 1) (by simp only [List.length_cons]; omega))
      refine ⟨after, ?_, inOrder'', eraseSize'.trans eraseSize, size'.trans size, ?_⟩
      · simp only [writeWords, Bool.false_eq_true, false_and, ↓reduceIte, wrote, ran]
      · intro index
        rw [cells', later, cells]
        by_cases here : address.toNat / 4 = index
        · subst here
          rw [if_neg (by omega), if_pos rfl, if_pos (by omega), Nat.sub_self, List.getD_cons_zero]
        · rw [if_neg here]
          by_cases beyond : address.toNat / 4 + 1 ≤ index ∧ index < address.toNat / 4 + 1 + rest.length
          · rw [if_pos beyond, if_pos (by omega),
              show index - address.toNat / 4 = index - (address.toNat / 4 + 1) + 1 by omega, List.getD_cons_succ]
          · rw [if_neg beyond, if_neg (by omega)]

/-- Whole pages are erased in one call of the driver. -/
theorem erase_pages {address : Address} {count : Word} (inOrder : flash.InOrder) (nonzero : flash.pageSize ≠ 0)
    (page : address.toNat % flash.driver.eraseSize = 0) (whole : 4 * count.toNat % flash.driver.eraseSize = 0)
    (small : 4 * count.toNat < 4294967296) (inside : address.toNat / 4 + count.toNat ≤ flash.driver.bytes.size / 4) :
    erase flash address count =
      (.ok (), ⟨{ flash.driver with
        bytes := NorMemory.clear flash.driver.bytes address.toNat (4 * count.toNat) }⟩) := by
  have addressed := inOrder.addressed
  have aligned : address.toNat % 4 = 0 :=
    Nat.mod_eq_zero_of_dvd (Nat.dvd_trans (Nat.dvd_of_mod_eq_zero inOrder.page_words) (Nat.dvd_of_mod_eq_zero page))
  have length : (4 * count).toNat = 4 * count.toNat := by
    rw [UInt32.toNat_mul, Nat.mod_eq_of_lt (show (4 : Word).toNat * count.toNat < 2 ^ 32 from small)]
    rfl
  have stop : (address + 4 * count).toNat = address.toNat + 4 * count.toNat := by
    rw [UInt32.toNat_add, length, Nat.mod_eq_of_lt (by omega)]
  have pageAligned : address % flash.pageSize = 0 := by
    apply UInt32.toNat_inj.mp
    rw [UInt32.toNat_mod, toNat_pageSize inOrder]
    exact page
  have wholePages : (4 * count) % flash.pageSize = 0 := by
    apply UInt32.toNat_inj.mp
    rw [UInt32.toNat_mod, length, toNat_pageSize inOrder]
    exact whole
  have stopAligned : (address + 4 * count).toNat % flash.driver.eraseSize = 0 := by
    rw [stop]
    exact Nat.mod_eq_zero_of_dvd (Nat.dvd_add (Nat.dvd_of_mod_eq_zero page) (Nat.dvd_of_mod_eq_zero whole))
  have erased := NorMemory.erase_steady inOrder.steady page stopAligned (by omega) (by omega)
  rw [stop, Nat.add_sub_cancel_left] at erased
  rw [NorWords.erase, if_neg nonzero, pageAligned, wholePages, if_neg (by simp), erased]

instance : LawfulMedium (NorWords NorMemory) where
  Sound := InOrder
  cellCount := fun flash => flash.driver.bytes.size / 4
  cell := cell
  page_words := by
    intro flash inOrder
    rw [show (Medium.pageSize flash).toNat = _ from toNat_pageSize inOrder]
    exact inOrder.page_words
  read_inside := by
    intro flash address count inOrder aligned inside
    change NorWords.read flash address count = _
    rw [NorWords.read, if_neg (by rw [word_aligned aligned]; simp), readPortions_inside inOrder.steady inOrder.addressed,
      sum_portions, List.nil_append]
    · have same (offset : Nat) : address.toNat + 4 * offset = 4 * (address.toNat / 4 + offset) := by omega
      simp only [same]
      rfl
    · rw [sum_portions]
      omega
  write_inside := by
    intro flash address words inOrder aligned inside taken
    obtain ⟨after, ran, inOrder', eraseSize, size, cells⟩ :=
      writeWords_inside words flash inOrder flash.pageSize aligned inside taken
    refine ⟨after, ?_, inOrder', rfl, ?_, ?_, cells⟩
    · change NorWords.write flash address words false = _
      rw [NorWords.write, if_neg (by rw [word_aligned aligned]; simp), ran]
    · exact congrArg UInt32.ofNat eraseSize
    · rw [size]
  erase_inside := by
    intro flash address count inOrder nonzero page whole small inside
    rw [show (Medium.pageSize flash).toNat = _ from toNat_pageSize inOrder] at page whole
    have aligned : address.toNat % 4 = 0 :=
      Nat.mod_eq_zero_of_dvd (Nat.dvd_trans (Nat.dvd_of_mod_eq_zero inOrder.page_words)
        (Nat.dvd_of_mod_eq_zero page))
    refine ⟨_, erase_pages inOrder nonzero page whole small inside,
      ⟨inOrder.steady, inOrder.writable, inOrder.page_words, inOrder.page_small, ?_⟩, rfl, rfl, ?_, ?_⟩
    · rw [NorMemory.size_clear]
      exact inOrder.addressed
    · rw [NorMemory.size_clear]
    · intro index
      have start : 4 * (address.toNat / 4) = address.toNat := by omega
      have cleared := @NorMemory.wordAt_clear flash.driver (address.toNat / 4) count.toNat (by omega) index
      rw [start] at cleared
      exact cleared

end NorWords

end TwinLog
