import TwinLog.Medium.Simulated
import TwinLog.Proofs.LawfulNor

set_option autoImplicit false

namespace TwinLog

/-- What a call leaves of a driver: one that works on, with the same granularities, and that holds `content`. -/
structure NorDriver.Leaves {δ : Type} [NorDriver δ] (Ready : δ → Prop) (bytes : δ → Array UInt8) (before : δ)
    (content : Array UInt8) (after : δ) : Prop where
  ready : Ready after
  readSize : NorDriver.readSize after = NorDriver.readSize before
  writeSize : NorDriver.writeSize after = NorDriver.writeSize before
  eraseSize : NorDriver.eraseSize after = NorDriver.eraseSize before
  content : bytes after = content

/-- A driver of NOR flash that does not fail as long as it is ready. A call that is aligned to its granularities and
stays inside of it succeeds: what is programmed becomes the conjunction of the old and the new bytes, and what is erased
is filled with `0xFF`. -/
class LawfulDriver (δ : Type) [NorDriver δ] where
  Ready : δ → Prop
  bytes : δ → Array UInt8
  read_inside : ∀ {driver : δ} {offset : Address} {count : Nat}, Ready driver →
    offset.toNat % NorDriver.readSize driver = 0 → count % NorDriver.readSize driver = 0 →
    offset.toNat + count ≤ (bytes driver).size →
    ∃ after, NorDriver.read driver offset count =
        (.ok ((List.range count).map fun position => (bytes driver).getD (offset.toNat + position) 0), after) ∧
      NorDriver.Leaves Ready bytes driver (bytes driver) after
  write_inside : ∀ {driver : δ} {offset : Address} {values : List UInt8}, Ready driver →
    offset.toNat % NorDriver.writeSize driver = 0 → values.length % NorDriver.writeSize driver = 0 →
    offset.toNat + values.length ≤ (bytes driver).size →
    ∃ after, NorDriver.write driver offset values = (.ok (), after) ∧
      NorDriver.Leaves Ready bytes driver (NorMemory.program (bytes driver) offset.toNat values) after
  erase_inside : ∀ {driver : δ} {start stop : Address}, Ready driver →
    start.toNat % NorDriver.eraseSize driver = 0 → stop.toNat % NorDriver.eraseSize driver = 0 →
    start.toNat ≤ stop.toNat → stop.toNat ≤ (bytes driver).size →
    ∃ after, NorDriver.erase driver start stop = (.ok (), after) ∧
      NorDriver.Leaves Ready bytes driver (NorMemory.clear (bytes driver) start.toNat (stop.toNat - start.toNat)) after

instance : LawfulDriver NorMemory where
  Ready := fun memory => memory.fault = none
  bytes := NorMemory.bytes
  read_inside := by
    intro memory offset count ready _ _ inside
    exact ⟨memory, NorMemory.read_steady ready inside, ready, rfl, rfl, rfl, rfl⟩
  write_inside := by
    intro memory offset values ready start whole inside
    exact ⟨_, NorMemory.write_steady ready start whole inside, ready, rfl, rfl, rfl, rfl⟩
  erase_inside := by
    intro memory start stop ready first last forward inside
    exact ⟨_, NorMemory.erase_steady ready first last forward inside, ready, rfl, rfl, rfl, rfl⟩

namespace NorWords

variable {δ : Type} [NorDriver δ] [LawfulDriver δ]

def image (flash : NorWords δ) : NorMemory :=
  ⟨NorDriver.readSize flash.driver, NorDriver.writeSize flash.driver, NorDriver.eraseSize flash.driver,
    LawfulDriver.bytes flash.driver, none⟩

/-- Whether NOR flash over a driver that is ready holds the words of a medium in memory, each of them little-endian, with
pages of the same size, which fill it up exactly. Single words can be read and programmed, and addresses reach every
byte. -/
structure Mirrors (medium : Simulated) (flash : NorWords δ) : Prop where
  ready : LawfulDriver.Ready flash.driver
  readable : 4 % NorDriver.readSize flash.driver = 0
  writable : 4 % NorDriver.writeSize flash.driver = 0
  page : NorDriver.eraseSize flash.driver = medium.pageSize.toNat
  polarity : medium.polarity = .ones
  page_words : medium.pageSize.toNat % 4 = 0
  pages : 4 * medium.words.size % medium.pageSize.toNat = 0
  addressed : 4 * medium.words.size < 4294967296
  size : (LawfulDriver.bytes flash.driver).size = 4 * medium.words.size
  words : flash.image.words = medium.words.toList

def holding (readSize writeSize : Nat) (medium : Simulated) : NorWords NorMemory :=
  ⟨⟨readSize, writeSize, medium.pageSize.toNat, (Word.unpack medium.words.toList).toArray, none⟩⟩

/-- Every medium in memory that erases to ones and that addresses reach is mirrored by flash. -/
theorem mirrors_holding {readSize writeSize : Nat} {medium : Simulated} (readable : 4 % readSize = 0)
    (writable : 4 % writeSize = 0) (polarity : medium.polarity = .ones) (page_words : medium.pageSize.toNat % 4 = 0)
    (pages : 4 * medium.words.size % medium.pageSize.toNat = 0) (addressed : 4 * medium.words.size < 4294967296) :
    Mirrors medium (holding readSize writeSize medium) := by
  have size : (Word.unpack medium.words.toList).toArray.size = 4 * medium.words.size := by
    rw [List.size_toArray, Word.length_unpack, Array.length_toList]
  refine ⟨rfl, readable, writable, rfl, polarity, page_words, pages, addressed, size, ?_⟩
  have packed := NorMemory.pack_range (holding readSize writeSize medium).image 0 medium.words.size
  have bytes : (List.range (4 * medium.words.size)).map (fun position =>
      (Word.unpack medium.words.toList).toArray.getD (0 + position) 0) = Word.unpack medium.words.toList := by
    apply List.ext_getElem
    · rw [List.length_map, List.length_range, Word.length_unpack, Array.length_toList]
    · intro index _ inside
      simp [List.getElem?_eq_getElem inside]
  change Word.pack medium.words.size ((List.range (4 * medium.words.size)).map fun position =>
    (Word.unpack medium.words.toList).toArray.getD (0 + position) 0) = _ at packed
  rw [bytes, ← Array.length_toList, Word.pack_unpack] at packed
  rw [packed, NorMemory.words]
  change (List.range ((Word.unpack medium.words.toList).toArray.size / 4)).map _ = _
  rw [size, Nat.mul_div_cancel_left _ (by omega), Array.length_toList]
  simp only [Nat.zero_add]

variable {medium : Simulated} {flash after : NorWords δ} {address : Address} {word : Word}

theorem Mirrors.cell (mirrors : Mirrors medium flash) {index : Nat} (inside : index < medium.words.size) :
    flash.image.wordAt (4 * index) = medium.words.getD index 0 := by
  have same := congrArg (fun words => words[index]?) mirrors.words
  have within : index < flash.image.bytes.size / 4 := by
    change index < (LawfulDriver.bytes flash.driver).size / 4
    rw [mirrors.size]
    omega
  simp only [NorMemory.words, List.getElem?_map, List.getElem?_range within, Option.map_some, Array.getElem?_toList,
    Array.getElem?_eq_getElem inside, Option.some.injEq] at same
  rw [same, Array.getD_eq_getD_getElem?, Array.getElem?_eq_getElem inside]
  rfl

/-- What a call of the driver leaves mirrors a medium that holds the same words. -/
theorem Mirrors.leaves (mirrors : Mirrors medium flash) {content : Array UInt8}
    (left : NorDriver.Leaves LawfulDriver.Ready LawfulDriver.bytes flash.driver content after.driver)
    {words : Array Word} (count : words.size = medium.words.size)
    (size : content.size = (LawfulDriver.bytes flash.driver).size)
    (cells : ∀ index, index < medium.words.size →
      NorMemory.wordAt { flash.image with bytes := content } (4 * index) = words.getD index 0) :
    Mirrors { medium with words } after := by
  have whole : (LawfulDriver.bytes after.driver).size = 4 * words.size := by
    rw [left.content, size, mirrors.size, count]
  refine ⟨left.ready, ?_, ?_, ?_, mirrors.polarity, mirrors.page_words, ?_, ?_, whole, ?_⟩
  · rw [left.readSize]
    exact mirrors.readable
  · rw [left.writeSize]
    exact mirrors.writable
  · rw [left.eraseSize]
    exact mirrors.page
  · rw [count]
    exact mirrors.pages
  · rw [count]
    exact mirrors.addressed
  · have number : after.image.bytes.size / 4 = words.size := by
      change (LawfulDriver.bytes after.driver).size / 4 = _
      omega
    rw [NorMemory.words, number]
    apply List.ext_getElem?
    intro index
    by_cases inside : index < words.size
    · have here := cells index (by rw [← count]; exact inside)
      rw [← left.content] at here
      rw [List.getElem?_map, List.getElem?_range inside, Array.getElem?_toList, Array.getElem?_eq_getElem inside]
      rw [Array.getD_eq_getD_getElem?, Array.getElem?_eq_getElem inside] at here
      exact congrArg some here
    · rw [List.getElem?_eq_none (by simpa using inside), List.getElem?_eq_none (by simpa using inside)]

theorem Mirrors.inside (mirrors : Mirrors medium flash) {count : Nat} (aligned : address.toNat % 4 = 0)
    (inside : address.toNat / 4 + count ≤ medium.words.size) :
    address.toNat + 4 * count ≤ (LawfulDriver.bytes flash.driver).size := by
  rw [mirrors.size]
  omega

theorem Mirrors.toNat_add (mirrors : Mirrors medium flash) {distance : Nat}
    (inside : address.toNat + distance ≤ (LawfulDriver.bytes flash.driver).size) :
    (address + UInt32.ofNat distance).toNat = address.toNat + distance := by
  have addressed := mirrors.addressed
  rw [mirrors.size] at inside
  exact NorWords.toNat_add (by omega)

theorem Mirrors.readPortions (mirrors : Mirrors medium flash) (counts : List Nat) (copied : List Word)
    (aligned : address.toNat % 4 = 0) (inside : address.toNat / 4 + counts.sum ≤ medium.words.size) :
    ∃ after, readPortions flash.driver address copied counts =
        (⟨copied ++ (List.range counts.sum).map fun offset => medium.words.getD (address.toNat / 4 + offset) 0, none⟩,
          after) ∧
      Mirrors medium after := by
  induction counts generalizing flash address copied with
  | nil =>
      refine ⟨flash, ?_, mirrors⟩
      rw [NorWords.readPortions, List.sum_nil, List.range_zero, List.map_nil, List.append_nil]
  | cons count rest ih =>
      rw [List.sum_cons] at inside ⊢
      have room := mirrors.inside aligned (show address.toNat / 4 + count ≤ medium.words.size by omega)
      have divides : NorDriver.readSize flash.driver ∣ 4 := Nat.dvd_of_mod_eq_zero mirrors.readable
      obtain ⟨between, ran, left⟩ := LawfulDriver.read_inside mirrors.ready
        (Nat.mod_eq_zero_of_dvd (Nat.dvd_trans divides (Nat.dvd_of_mod_eq_zero aligned)))
        (Nat.mod_eq_zero_of_dvd (Nat.dvd_trans divides (Nat.dvd_mul_right 4 count))) room
      have mirrors' : Mirrors medium (⟨between⟩ : NorWords δ) :=
        mirrors.leaves left rfl rfl (fun index within => mirrors.cell within)
      have delivered : Word.pack count ((List.range (4 * count)).map fun position =>
          (LawfulDriver.bytes flash.driver).getD (address.toNat + position) 0) =
            (List.range count).map fun offset => medium.words.getD (address.toNat / 4 + offset) 0 := by
        rw [show LawfulDriver.bytes flash.driver = flash.image.bytes from rfl, NorMemory.pack_range]
        apply List.map_congr_left
        intro offset member
        have early := List.mem_range.mp member
        rw [← mirrors.cell (by omega), show 4 * (address.toNat / 4 + offset) = address.toNat + 4 * offset by omega]
      have moved := mirrors.toNat_add room
      have later : (address + UInt32.ofNat (4 * count)).toNat / 4 = address.toNat / 4 + count := by omega
      obtain ⟨after, ran', mirrors''⟩ :=
        @ih _ (address + UInt32.ofNat (4 * count)) mirrors'
          (copied ++ (List.range count).map fun offset => medium.words.getD (address.toNat / 4 + offset) 0) (by omega)
          (by rw [later]; omega)
      refine ⟨after, ?_, mirrors''⟩
      rw [NorWords.readPortions, ran]
      simp only
      rw [delivered, ran', later, List.range_add, List.map_append, List.map_map, List.append_assoc]
      simp only [Function.comp_def, Nat.add_assoc]

/-- Programming a word that the medium in memory takes. -/
theorem Mirrors.program (mirrors : Mirrors medium flash) (aligned : address.toNat % 4 = 0)
    (inside : address.toNat / 4 < medium.words.size)
    (taken : medium.polarity.canProgram (medium.words.getD (address.toNat / 4) 0) word = true) :
    ∃ after, NorDriver.write flash.driver address word.bytes = (.ok (), after) ∧
      Mirrors { medium with words := medium.words.setIfInBounds (address.toNat / 4) word } (⟨after⟩ : NorWords δ) := by
  have room : address.toNat + word.bytes.length ≤ (LawfulDriver.bytes flash.driver).size := by
    rw [mirrors.size, Word.length_bytes]
    omega
  have divides : NorDriver.writeSize flash.driver ∣ 4 := Nat.dvd_of_mod_eq_zero mirrors.writable
  obtain ⟨after, ran, left⟩ := @LawfulDriver.write_inside δ _ _ flash.driver address word.bytes mirrors.ready
    (Nat.mod_eq_zero_of_dvd (Nat.dvd_trans divides (Nat.dvd_of_mod_eq_zero aligned))) mirrors.writable room
  refine ⟨after, ran, mirrors.leaves left Array.size_setIfInBounds (NorMemory.size_program _ _ _) ?_⟩
  intro index within
  have start : 4 * (address.toNat / 4) = address.toNat := by omega
  have programmed := @NorMemory.wordAt_program flash.image word (address.toNat / 4) (by rw [start]; exact room) index
  rw [mirrors.polarity, ← mirrors.cell inside] at taken
  rw [start] at programmed taken
  rw [Simulated.getD_set _ _ _ _ inside, ← mirrors.cell within]
  rw [Word.and_of_canProgram taken] at programmed
  exact programmed

theorem Mirrors.clear (mirrors : Mirrors medium flash) {stop : Address}
    (first : address.toNat % medium.pageSize.toNat = 0) (last : stop.toNat % medium.pageSize.toNat = 0)
    (forward : address.toNat ≤ stop.toNat) (inside : stop.toNat ≤ 4 * medium.words.size) :
    ∃ after, NorDriver.erase flash.driver address stop = (.ok (), after) ∧
      Mirrors (medium.eraseFrom (address.toNat / 4) ((stop.toNat - address.toNat) / 4)) (⟨after⟩ : NorWords δ) := by
  have divides : 4 ∣ medium.pageSize.toNat := Nat.dvd_of_mod_eq_zero mirrors.page_words
  have aligned : address.toNat % 4 = 0 :=
    Nat.mod_eq_zero_of_dvd (Nat.dvd_trans divides (Nat.dvd_of_mod_eq_zero first))
  have aligned' : stop.toNat % 4 = 0 :=
    Nat.mod_eq_zero_of_dvd (Nat.dvd_trans divides (Nat.dvd_of_mod_eq_zero last))
  obtain ⟨after, ran, left⟩ := LawfulDriver.erase_inside mirrors.ready (by rw [mirrors.page]; exact first)
    (by rw [mirrors.page]; exact last) forward (by rw [mirrors.size]; exact inside)
  refine ⟨after, ran, mirrors.leaves left (Simulated.size_fill _ _ _ _) (NorMemory.size_clear _ _ _) ?_⟩
  intro index within
  have start : 4 * (address.toNat / 4) = address.toNat := by omega
  have length : 4 * ((stop.toNat - address.toNat) / 4) = stop.toNat - address.toNat := by omega
  have cleared := @NorMemory.wordAt_clear flash.image (address.toNat / 4) ((stop.toNat - address.toNat) / 4)
    (by
      change _ ≤ (LawfulDriver.bytes flash.driver).size
      rw [mirrors.size]
      omega) index
  rw [start, length, mirrors.cell within] at cleared
  rw [Simulated.getD_fill _ _ _ _ _ (by omega), mirrors.polarity]
  exact cleared

theorem Mirrors.pageSize (mirrors : Mirrors medium flash) : flash.pageSize = medium.pageSize := by
  rw [NorWords.pageSize, mirrors.page]
  exact UInt32.ofNat_toNat

theorem Mirrors.starts_page (mirrors : Mirrors medium flash) (aligned : address.toNat % 4 = 0) :
    address % medium.pageSize = 0 ↔ address.toNat / 4 % medium.pageWords = 0 := by
  have page : 4 * medium.pageWords = medium.pageSize.toNat := by
    have whole := mirrors.page_words
    rw [Simulated.pageWords]
    omega
  have start : 4 * (address.toNat / 4) = address.toNat := by omega
  have offset : (address % medium.pageSize).toNat = 4 * (address.toNat / 4 % medium.pageWords) := by
    rw [UInt32.toNat_mod, ← Nat.mul_mod_mul_left, page, start]
  rw [← UInt32.toNat_inj, offset]
  change 4 * (address.toNat / 4 % medium.pageWords) = 0 ↔ _
  omega

/-- What a write with the flag set does to the page before it programs the first word in it. -/
theorem Mirrors.ready_page (mirrors : Mirrors medium flash) (aligned : address.toNat % 4 = 0)
    (inside : address.toNat / 4 < medium.words.size) (eraseFirst : Bool) :
    ∃ between, (if eraseFirst ∧ address % medium.pageSize = 0 then
          NorDriver.erase flash.driver address (address + medium.pageSize)
        else (.ok (), flash.driver)) = (.ok (), between) ∧
      Mirrors (if eraseFirst ∧ address.toNat / 4 % medium.pageWords = 0 then
          medium.eraseFrom (address.toNat / 4) medium.pageWords
        else medium) (⟨between⟩ : NorWords δ) := by
  by_cases starts : eraseFirst ∧ address % medium.pageSize = 0
  · have starts' : eraseFirst ∧ address.toNat / 4 % medium.pageWords = 0 :=
      ⟨starts.1, (mirrors.starts_page aligned).mp starts.2⟩
    rw [if_pos starts, if_pos starts']
    have first : address.toNat % medium.pageSize.toNat = 0 := by rw [← UInt32.toNat_mod, starts.2]; rfl
    -- the last page of the medium is a whole one
    have rest : medium.pageSize.toNat ∣ 4 * medium.words.size - address.toNat :=
      Nat.dvd_sub (Nat.dvd_of_mod_eq_zero mirrors.pages) (Nat.dvd_of_mod_eq_zero first)
    have room : medium.pageSize.toNat ≤ 4 * medium.words.size - address.toNat := Nat.le_of_dvd (by omega) rest
    have addressed := mirrors.addressed
    have stop : (address + medium.pageSize).toNat = address.toNat + medium.pageSize.toNat := by
      rw [UInt32.toNat_add, Nat.mod_eq_of_lt (by omega)]
    obtain ⟨between, erased, mirrors'⟩ := @Mirrors.clear δ _ _ medium flash address mirrors
      (address + medium.pageSize) first (by rw [stop, Nat.add_mod_right]; exact first) (by omega) (by omega)
    rw [stop, Nat.add_sub_cancel_left] at mirrors'
    exact ⟨between, erased, mirrors'⟩
  · have stays : ¬ (eraseFirst ∧ address.toNat / 4 % medium.pageWords = 0) :=
      fun starts' => starts ⟨starts'.1, (mirrors.starts_page aligned).mpr starts'.2⟩
    rw [if_neg starts, if_neg stays]
    exact ⟨flash.driver, rfl, mirrors⟩

/-- Words that the medium in memory programs are programmed alike. -/
theorem Mirrors.writeWords (eraseFirst : Bool) (words : List Word) (mirrors : Mirrors medium flash)
    (aligned : address.toNat % 4 = 0) (inside : address.toNat / 4 + words.length ≤ medium.words.size)
    (completes : ∀ violation,
      (Simulated.programFrom eraseFirst medium (address.toNat / 4) words).1 ≠ .error (.halt violation)) :
    ∃ after, writeWords medium.pageSize eraseFirst flash.driver address words =
        ((Simulated.programFrom eraseFirst medium (address.toNat / 4) words).1, after) ∧
      Mirrors (Simulated.programFrom eraseFirst medium (address.toNat / 4) words).2 after := by
  induction words generalizing medium flash address with
  | nil => exact ⟨flash, rfl, mirrors⟩
  | cons word rest ih =>
      simp only [List.length_cons] at inside
      obtain ⟨between, erased, mirrors'⟩ := mirrors.ready_page aligned (by omega) eraseFirst
      rw [Simulated.programFrom] at completes ⊢
      -- without pages neither medium can tell where one starts
      by_cases pageless : eraseFirst ∧ medium.pageWords = 0
      · rw [if_pos pageless] at completes
        exact absurd rfl (completes _)
      have paged : ¬ (eraseFirst ∧ medium.pageSize = 0) := by
        rintro ⟨first, zero⟩
        exact pageless ⟨first, by rw [Simulated.pageWords, zero]; rfl⟩
      rw [NorWords.writeWords, if_neg paged, erased]
      rw [if_neg pageless] at completes ⊢
      simp only at completes ⊢
      have size : (if eraseFirst ∧ address.toNat / 4 % medium.pageWords = 0 then
          medium.eraseFrom (address.toNat / 4) medium.pageWords else medium).words.size = medium.words.size := by
        split
        · exact Simulated.size_fill _ _ _ _
        · rfl
      have page : (if eraseFirst ∧ address.toNat / 4 % medium.pageWords = 0 then
          medium.eraseFrom (address.toNat / 4) medium.pageWords else medium).pageSize = medium.pageSize := by
        split <;> rfl
      generalize (if eraseFirst ∧ address.toNat / 4 % medium.pageWords = 0 then
          medium.eraseFrom (address.toNat / 4) medium.pageWords else medium) = ready at completes mirrors' size page ⊢
      by_cases taken : ready.polarity.canProgram (ready.words.getD (address.toNat / 4) 0) word = true
      · rw [if_pos taken] at completes ⊢
        obtain ⟨next, wrote, mirrors''⟩ := mirrors'.program aligned (by omega) taken
        have moved : (address + 4).toNat = address.toNat + 4 :=
          mirrors.toNat_add (mirrors.inside aligned (show address.toNat / 4 + 1 ≤ medium.words.size by omega))
        have later : (address + 4).toNat / 4 = address.toNat / 4 + 1 := by omega
        rw [wrote, ← page]
        rw [← later] at completes ⊢
        exact ih mirrors'' (by omega) (by rw [Array.size_setIfInBounds, size, later]; omega) completes
      · rw [if_neg taken] at completes
        exact absurd rfl (completes _)

end NorWords

namespace Simulated

theorem locate_ok {medium : Simulated} {address : Address} {count start : Nat}
    (located : medium.locate address count = .ok start) :
    address.toNat % 4 = 0 ∧ address.toNat / 4 + count ≤ medium.words.size ∧ start = address.toNat / 4 := by
  rw [locate] at located
  split at located
  · cases located
  · split at located
    · cases located
    · cases located
      omega

end Simulated

namespace NorWords

variable {δ : Type} [NorDriver δ] [LawfulDriver δ] {medium : Simulated} {flash : NorWords δ} {address : Address}

theorem Mirrors.read (mirrors : Mirrors medium flash) {count : Nat}
    (completes : ∀ violation, (Medium.read medium address count).1.stop ≠ some (.halt violation)) :
    ∃ after, Medium.read flash address count = ((Medium.read medium address count).1, after) ∧
      Mirrors (Medium.read medium address count).2 after := by
  change ∀ violation, (Simulated.read medium address count).1.stop ≠ some (.halt violation) at completes
  change ∃ after, NorWords.read flash address count = ((Simulated.read medium address count).1, after) ∧
    Mirrors (Simulated.read medium address count).2 after
  rw [Simulated.read] at completes ⊢
  cases located : medium.locate address count with
  | error violation =>
      rw [located] at completes
      exact absurd rfl (completes violation)
  | ok start =>
      obtain ⟨aligned, inside, rfl⟩ := Simulated.locate_ok located
      obtain ⟨after, ran, mirrors'⟩ :=
        mirrors.readPortions (portions count) [] aligned (by rw [sum_portions]; exact inside)
      refine ⟨after, ?_, mirrors'⟩
      rw [NorWords.read, if_neg (by rw [word_aligned aligned]; simp), ran, sum_portions, List.nil_append]

theorem Mirrors.write (mirrors : Mirrors medium flash) {words : List Word} {eraseFirst : Bool}
    (completes : ∀ violation, (Medium.write medium address words eraseFirst).1 ≠ .error (.halt violation)) :
    ∃ after, Medium.write flash address words eraseFirst = ((Medium.write medium address words eraseFirst).1, after) ∧
      Mirrors (Medium.write medium address words eraseFirst).2 after := by
  change ∀ violation, (Simulated.write medium address words eraseFirst).1 ≠ .error (.halt violation) at completes
  change ∃ after, NorWords.write flash address words eraseFirst =
    ((Simulated.write medium address words eraseFirst).1, after) ∧
    Mirrors (Simulated.write medium address words eraseFirst).2 after
  rw [Simulated.write] at completes ⊢
  cases located : medium.locate address words.length with
  | error violation =>
      rw [located] at completes
      exact absurd rfl (completes violation)
  | ok start =>
      obtain ⟨aligned, inside, rfl⟩ := Simulated.locate_ok located
      rw [located] at completes
      rw [NorWords.write, if_neg (by rw [word_aligned aligned]; simp), mirrors.pageSize]
      exact mirrors.writeWords eraseFirst words aligned inside completes

/-- An erase that the medium in memory completes, or refuses because it is not one of whole pages. -/
theorem Mirrors.erase (mirrors : Mirrors medium flash) {count : Word}
    (completes : ∀ violation, (Medium.erase medium address count).1 ≠ .error (.halt violation)) :
    ∃ after, Medium.erase flash address count = ((Medium.erase medium address count).1, after) ∧
      Mirrors (Medium.erase medium address count).2 after := by
  change ∀ violation, (Simulated.erase medium address count).1 ≠ .error (.halt violation) at completes
  change ∃ after, NorWords.erase flash address count = ((Simulated.erase medium address count).1, after) ∧
    Mirrors (Simulated.erase medium address count).2 after
  rw [Simulated.erase] at completes ⊢
  rw [NorWords.erase, mirrors.pageSize]
  by_cases pageless : medium.pageSize = 0
  · rw [if_pos pageless] at completes
    exact absurd rfl (completes _)
  rw [if_neg pageless] at completes ⊢
  rw [if_neg pageless]
  by_cases crooked : address % medium.pageSize ≠ 0 ∨ 4 * count % medium.pageSize ≠ 0
  · rw [if_pos crooked, if_pos crooked]
    exact ⟨flash, rfl, mirrors⟩
  · rw [if_neg crooked] at completes ⊢
    rw [if_neg crooked]
    cases located : medium.locate address count.toNat with
    | error violation =>
        rw [located] at completes
        exact absurd rfl (completes violation)
    | ok start =>
        obtain ⟨aligned, inside, rfl⟩ := Simulated.locate_ok located
        have addressed := mirrors.addressed
        have length : (4 * count).toNat = 4 * count.toNat := by
          rw [UInt32.toNat_mul]
          exact Nat.mod_eq_of_lt (show 4 * count.toNat < 4294967296 by omega)
        have stop : (address + 4 * count).toNat = address.toNat + 4 * count.toNat := by
          rw [UInt32.toNat_add, length, Nat.mod_eq_of_lt (by omega)]
        obtain ⟨start, whole⟩ : address % medium.pageSize = 0 ∧ 4 * count % medium.pageSize = 0 := by
          simpa only [ne_eq, not_or, not_not] using crooked
        have first : address.toNat % medium.pageSize.toNat = 0 := by rw [← UInt32.toNat_mod, start]; rfl
        have last : (address + 4 * count).toNat % medium.pageSize.toNat = 0 := by
          have rest : (4 * count).toNat % medium.pageSize.toNat = 0 := by rw [← UInt32.toNat_mod, whole]; rfl
          rw [stop, ← length]
          exact Nat.mod_eq_zero_of_dvd (Nat.dvd_add (Nat.dvd_of_mod_eq_zero first) (Nat.dvd_of_mod_eq_zero rest))
        obtain ⟨after, erased, mirrors'⟩ := mirrors.clear first last (by omega) (by omega)
        rw [stop, Nat.add_sub_cancel_left, Nat.mul_div_cancel_left _ (by omega)] at mirrors'
        refine ⟨⟨after⟩, ?_, mirrors'⟩
        rw [erased]

end NorWords

end TwinLog
