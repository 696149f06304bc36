import TwinLog.Proofs.LawfulNor

set_option autoImplicit false

namespace TwinLog

/-- A driver of NOR flash whose reads and writes inside of the flash are atomic: one that fails changes no byte, a read
that succeeds delivers what is there, and a write that succeeds leaves the conjunction of the old and the new bytes. -/
class AtomicDriver (δ : Type) [NorDriver δ] where
  bytes : δ → Array UInt8
  read_inside : ∀ {driver : δ} {offset : Address} {count : Nat}, offset.toNat + count ≤ (bytes driver).size →
    bytes (NorDriver.read driver offset count).2 = bytes driver ∧
      ∀ delivered, (NorDriver.read driver offset count).1 = .ok delivered →
        delivered = (List.range count).map fun position => (bytes driver).getD (offset.toNat + position) 0
  write_inside : ∀ {driver : δ} {offset : Address} {values : List UInt8},
    offset.toNat + values.length ≤ (bytes driver).size →
    bytes (NorDriver.write driver offset values).2 =
      match (NorDriver.write driver offset values).1 with
      | .ok () => NorMemory.program (bytes driver) offset.toNat values
      | .error _ => bytes driver

namespace AtomicDriver

def image {δ : Type} [NorDriver δ] [AtomicDriver δ] (driver : δ) : NorMemory :=
  ⟨NorDriver.readSize driver, NorDriver.writeSize driver, NorDriver.eraseSize driver, bytes driver, none⟩

end AtomicDriver

namespace NorMemory

theorem tick_bytes (memory : NorMemory) : memory.tick.2.bytes = memory.bytes := by
  rw [tick]
  split <;> rfl

theorem read_atomic {memory : NorMemory} {offset : Address} {count : Nat}
    (inside : offset.toNat + count ≤ memory.bytes.size) :
    (memory.read offset count).2.bytes = memory.bytes ∧
      ∀ delivered, (memory.read offset count).1 = .ok delivered →
        delivered = (List.range count).map fun position => memory.bytes.getD (offset.toNat + position) 0 := by
  have same := memory.tick_bytes
  rw [read]
  split
  · rename_i ticked
    rw [ticked] at same
    exact ⟨same, fun delivered read => by cases read⟩
  · rename_i after ticked
    rw [ticked] at same
    simp only at same
    rw [if_neg (by rw [same]; omega)]
    refine ⟨same, ?_⟩
    intro delivered read
    cases read
    rw [same]

theorem write_atomic {memory : NorMemory} {offset : Address} {values : List UInt8}
    (inside : offset.toNat + values.length ≤ memory.bytes.size) :
    (memory.write offset values).2.bytes =
      match (memory.write offset values).1 with
      | .ok () => program memory.bytes offset.toNat values
      | .error _ => memory.bytes := by
  have same := memory.tick_bytes
  rw [write]
  split
  · rename_i ticked
    rw [ticked] at same
    exact same
  · rename_i after ticked
    rw [ticked] at same
    simp only at same
    split
    · exact same
    · rw [if_neg (by rw [same]; omega)]
      simp only [same]

instance : AtomicDriver NorMemory where
  bytes := NorMemory.bytes
  read_inside := read_atomic
  write_inside := write_atomic

theorem program_append (before after : List UInt8) (bytes : Array UInt8) (start : Nat) :
    program bytes start (before ++ after) = program (program bytes start before) (start + before.length) after := by
  induction before generalizing bytes start with
  | nil => rfl
  | cons value rest ih =>
      rw [List.cons_append, program, program, ih, List.length_cons, Nat.add_assoc, Nat.add_comm 1]

theorem wordAt_program_before {memory : NorMemory} {start : Nat} {values : List UInt8}
    (inside : start + values.length ≤ memory.bytes.size) {place : Nat} (before : place + 4 ≤ start) :
    wordAt { memory with bytes := program memory.bytes start values } place = memory.wordAt place := by
  apply wordAt_congr
  intro position low
  rw [getD_program _ _ _ _ inside, if_neg (by omega)]

/-- Programming a run of words leaves in the place of each the conjunction of both words. -/
theorem wordAt_programAll (words : List Word) (memory : NorMemory) {index : Nat}
    (inside : 4 * index + 4 * words.length ≤ memory.bytes.size) {offset : Nat} (within : offset < words.length) :
    wordAt { memory with bytes := program memory.bytes (4 * index) (Word.unpack words) } (4 * (index + offset)) =
      memory.wordAt (4 * (index + offset)) &&& words.getD offset 0 := by
  induction words generalizing memory index offset with
  | nil => exact absurd within (Nat.not_lt_zero _)
  | cons word rest ih =>
      rw [List.length_cons] at inside within
      have first := memory.wordAt_program word (show 4 * index + 4 ≤ memory.bytes.size by omega)
      have split : program memory.bytes (4 * index) (Word.unpack (word :: rest)) =
          program (program memory.bytes (4 * index) word.bytes) (4 * (index + 1)) (Word.unpack rest) :=
        program_append word.bytes (Word.unpack rest) memory.bytes (4 * index)
      rw [split]
      cases offset with
      | zero =>
          have earlier := @wordAt_program_before { memory with bytes := program memory.bytes (4 * index) word.bytes }
            (4 * (index + 1)) (Word.unpack rest) (by rw [size_program, Word.length_unpack]; omega) (4 * index)
            (Nat.le_refl _)
          have here := first index
          rw [if_pos rfl] at here
          simp only at earlier
          exact earlier.trans here
      | succ offset =>
          have next := @ih { memory with bytes := program memory.bytes (4 * index) word.bytes } (index + 1)
            (by rw [size_program]; omega) offset (by omega)
          have there := first (index + 1 + offset)
          rw [if_neg (by omega)] at there
          rw [there, show index + 1 + offset = index + (offset + 1) by omega] at next
          rw [List.getD_cons_succ]
          simp only at next
          exact next

end NorMemory

/-- A driver with what its calls came to so far: nothing for one that succeeded, and its failure for one that did not. -/
structure Watched (δ : Type) where
  driver : δ
  outcomes : List (Option NorError)

namespace Watched

variable {δ α : Type}

def fresh (driver : δ) : Watched δ :=
  ⟨driver, []⟩

def outcome : Except NorError α → Option NorError
  | .ok _ => none
  | .error kind => some kind

def note (outcomes : List (Option NorError)) (call : Except NorError α × δ) : Except NorError α × Watched δ :=
  (call.1, ⟨call.2, outcomes ++ [outcome call.1]⟩)

instance [NorDriver δ] : NorDriver (Watched δ) where
  readSize := fun watched => NorDriver.readSize watched.driver
  writeSize := fun watched => NorDriver.writeSize watched.driver
  eraseSize := fun watched => NorDriver.eraseSize watched.driver
  read := fun watched offset count => note watched.outcomes (NorDriver.read watched.driver offset count)
  write := fun watched offset values => note watched.outcomes (NorDriver.write watched.driver offset values)
  erase := fun watched start stop => note watched.outcomes (NorDriver.erase watched.driver start stop)

end Watched

/-- How an access of `count` calls went: `done` of them succeeded, and then there was a failure if not all did. -/
inductive Progress (count : Nat) : Nat → List (Option NorError) → Option NorError → Prop
  | whole : Progress count count (List.replicate count none) none
  | broken {done : Nat} (early : done < count) (kind : NorError) :
      Progress count done (List.replicate done none ++ [some kind]) (some kind)

namespace Progress

variable {count done place : Nat} {outcomes : List (Option NorError)} {failure : Option NorError} {kind : NorError}

theorem first (count : Nat) (kind : NorError) : Progress (count + 1) 0 [some kind] (some kind) :=
  broken (Nat.succ_pos count) kind

theorem next (progress : Progress count done outcomes failure) :
    Progress (count + 1) (done + 1) (none :: outcomes) failure := by
  cases progress with
  | whole => exact whole
  | broken early kind => exact broken (Nat.succ_lt_succ early) kind

theorem failed (progress : Progress count done outcomes failure) (there : outcomes[place]? = some (some kind)) :
    place = done ∧ done < count ∧ failure = some kind := by
  cases progress with
  | whole =>
      rw [List.getElem?_replicate] at there
      split at there <;> cases there
  | broken early cause =>
      rcases Nat.lt_trichotomy place done with before | rfl | after
      · rw [List.getElem?_append_left (by simpa using before), List.getElem?_replicate, if_pos before] at there
        cases there
      · rw [List.getElem?_append_right (by simp), List.length_replicate, Nat.sub_self] at there
        cases there
        exact ⟨rfl, early, rfl⟩
      · rw [List.getElem?_eq_none (by simp; omega)] at there
        cases there

end Progress

/-- The words of a buffer after a read into it: those that were delivered, and after them those that were there. -/
def Fetch.into (reply : Fetch) (buffer : List Word) : List Word :=
  reply.words ++ buffer.drop reply.words.length

namespace NorWords

open AtomicDriver

variable {δ : Type} [NorDriver δ] [AtomicDriver δ]

def settled : Option NorError → Except (Stop MediumError) Unit
  | none => .ok ()
  | some kind => .error (.error kind.toMediumError)

/-- How far a write gets. Its calls program one word each, in order, and the first that fails ends it. -/
theorem writeWords_progress (page : Word) (words : List Word) (driver : δ) (offset : Address)
    (outcomes : List (Option NorError)) (inside : offset.toNat + 4 * words.length ≤ (bytes driver).size)
    (addressed : offset.toNat + 4 * words.length ≤ 4294967296) :
    ∃ done calls failure after, Progress words.length done calls failure ∧
      writeWords page false driver offset words = (settled failure, ⟨after⟩) ∧
      writeWords page false (⟨driver, outcomes⟩ : Watched δ) offset words =
        (settled failure, ⟨⟨after, outcomes ++ calls⟩⟩) ∧
      bytes after = NorMemory.program (bytes driver) offset.toNat (Word.unpack (words.take done)) := by
  induction words generalizing driver offset outcomes with
  | nil => exact ⟨0, [], none, driver, .whole, rfl, by rw [List.append_nil]; rfl, rfl⟩
  | cons word rest ih =>
      rw [List.length_cons] at inside addressed
      have wrote := @AtomicDriver.write_inside δ _ _ driver offset word.bytes (by rw [Word.length_bytes]; omega)
      have watched : NorDriver.write (⟨driver, outcomes⟩ : Watched δ) offset word.bytes =
        Watched.note outcomes (NorDriver.write driver offset word.bytes) := rfl
      simp only [writeWords, Bool.false_eq_true, false_and, ↓reduceIte, watched]
      cases call : NorDriver.write driver offset word.bytes with
      | mk result between =>
          rw [call] at wrote
          cases result with
          | error kind =>
              exact ⟨0, [some kind], some kind, between, .first _ _, rfl, rfl, wrote⟩
          | ok =>
              -- the offset wraps behind the very last word only
              have moved : (offset + 4).toNat = (offset.toNat + 4) % 4294967296 := UInt32.toNat_add _ _
              obtain ⟨done, calls, failure, after, progress, ran, seen, left⟩ :=
                ih between (offset + 4) (outcomes ++ [none])
                  (by rw [wrote, NorMemory.size_program]; omega) (by omega)
              refine ⟨done + 1, none :: calls, failure, after, progress.next, ran, ?_, ?_⟩
              · rw [List.append_assoc, List.singleton_append] at seen
                exact seen
              · rw [left, wrote, List.take_succ_cons]
                change _ = NorMemory.program _ _ (word.bytes ++ Word.unpack (rest.take done))
                rw [NorMemory.program_append, Word.length_bytes]
                cases rest with
                | nil => rw [List.take_nil]; rfl
                | cons _ _ =>
                    rw [List.length_cons] at addressed
                    rw [moved, Nat.mod_eq_of_lt (by omega)]

theorem wordAt_image {first second : δ} (same : bytes first = bytes second) (place : Nat) :
    (image first).wordAt place = (image second).wordAt place := by
  apply NorMemory.wordAt_congr
  intro position _
  change (bytes first).getD _ 0 = (bytes second).getD _ 0
  rw [same]

/-- How far a read gets. Its calls deliver the portions in order, and the first that fails ends it. -/
theorem readPortions_progress (counts : List Nat) (driver : δ) (offset : Address) (copied : List Word)
    (outcomes : List (Option NorError)) (inside : offset.toNat + 4 * counts.sum ≤ (bytes driver).size)
    (addressed : offset.toNat + 4 * counts.sum ≤ 4294967296) :
    ∃ done calls failure reply after, Progress counts.length done calls failure ∧
      readPortions driver offset copied counts = (reply, ⟨after⟩) ∧
      readPortions (⟨driver, outcomes⟩ : Watched δ) offset copied counts = (reply, ⟨⟨after, outcomes ++ calls⟩⟩) ∧
      reply.words = copied ++
        (List.range (counts.take done).sum).map (fun index => (image driver).wordAt (offset.toNat + 4 * index)) ∧
      reply.stop = failure.map (fun kind => .error kind.toMediumError) ∧
      bytes after = bytes driver := by
  induction counts generalizing driver offset copied outcomes with
  | nil =>
      refine ⟨0, [], none, ⟨copied, none⟩, driver, .whole, rfl, by rw [List.append_nil]; rfl, ?_, rfl, rfl⟩
      rw [List.take_nil, List.sum_nil, List.range_zero, List.map_nil, List.append_nil]
  | cons count rest ih =>
      rw [List.sum_cons] at inside addressed
      obtain ⟨kept, delivers⟩ := @AtomicDriver.read_inside δ _ _ driver offset (4 * count) (by omega)
      have watched : NorDriver.read (⟨driver, outcomes⟩ : Watched δ) offset (4 * count) =
        Watched.note outcomes (NorDriver.read driver offset (4 * count)) := rfl
      simp only [readPortions, watched]
      cases call : NorDriver.read driver offset (4 * count) with
      | mk result between =>
          rw [call] at kept delivers
          cases result with
          | error kind =>
              refine ⟨0, [some kind], some kind, _, between, .first _ _, rfl, rfl, ?_, rfl, kept⟩
              rw [List.take_zero, List.sum_nil, List.range_zero, List.map_nil, List.append_nil]
          | ok delivered =>
              have moved : (offset + UInt32.ofNat (4 * count)).toNat =
                  (offset.toNat + 4 * count % 4294967296) % 4294967296 := by
                rw [UInt32.toNat_add, UInt32.toNat_ofNat']
              have words : Word.pack count delivered =
                  (List.range count).map fun index => (image driver).wordAt (offset.toNat + 4 * index) := by
                rw [delivers delivered rfl]
                exact NorMemory.pack_range (image driver) offset.toNat count
              obtain ⟨done, calls, failure, reply, after, progress, ran, seen, read, stop, left⟩ :=
                ih between (offset + UInt32.ofNat (4 * count)) (copied ++ Word.pack count delivered)
                  (outcomes ++ [none]) (by rw [kept]; omega) (by omega)
              refine ⟨done + 1, none :: calls, failure, reply, after, progress.next, ran, ?_, ?_, stop,
                left.trans kept⟩
              · rw [List.append_assoc, List.singleton_append] at seen
                exact seen
              · rw [read, words, List.take_succ_cons, List.sum_cons, List.range_add, List.map_append, List.map_map,
                  List.append_assoc]
                congr 2
                apply List.map_congr_left
                intro index member
                have early := List.mem_range.mp member
                have total := congrArg List.sum (List.take_append_drop done rest)
                rw [List.sum_append_nat] at total
                rw [wordAt_image kept, moved]
                simp only [Function.comp_apply]
                congr 1
                omega

theorem sum_take_portions {count done : Nat} (early : done < (portions count).length) :
    ((portions count).take done).sum = 8 * done ∧ 8 * done < count := by
  have parts := Nat.div_add_mod count 8
  rw [portions, List.length_append, List.length_replicate] at early
  have whole : done ≤ count / 8 := by
    split at early
    · rw [List.length_nil] at early
      omega
    · rw [List.length_singleton] at early
      omega
  constructor
  · rw [portions, List.take_append_of_le_length (by rw [List.length_replicate]; exact whole), List.take_replicate,
      List.sum_replicate_nat, Nat.min_eq_left whole, Nat.mul_comm]
  · split at early
    · rw [List.length_nil] at early
      omega
    · omega

def InRange (driver : δ) (address : Address) (count : Nat) : Prop :=
  address.toNat + 4 * count ≤ (bytes driver).size ∧ address.toNat + 4 * count ≤ 4294967296

/-- What programming `words` from the byte `start` on does to what a driver holds. -/
structure Programmed (before after : δ) (start : Nat) (words : List Word) : Prop where
  size : (bytes after).size = (bytes before).size
  word : ∀ index < words.length,
    (image after).wordAt (start + 4 * index) = (image before).wordAt (start + 4 * index) &&& words.getD index 0
  other : ∀ position, position < start ∨ start + 4 * words.length ≤ position →
    (bytes after).getD position 0 = (bytes before).getD position 0

theorem programmed_of_program {before after : δ} {start : Nat} (aligned : start % 4 = 0) {words : List Word}
    (inside : start + 4 * words.length ≤ (bytes before).size)
    (left : bytes after = NorMemory.program (bytes before) start (Word.unpack words)) :
    Programmed before after start words where
  size := by rw [left, NorMemory.size_program]
  word := by
    intro index within
    obtain ⟨first, rfl⟩ := Nat.dvd_of_mod_eq_zero aligned
    rw [← Nat.mul_add]
    refine Eq.trans ?_ (NorMemory.wordAt_programAll words (image before) inside within)
    apply NorMemory.wordAt_congr
    intro position _
    change (bytes after).getD _ 0 = _
    rw [left]
    rfl
  other := by
    intro position outside
    rw [left, NorMemory.getD_program _ _ _ _ (by rw [Word.length_unpack]; exact inside), Word.length_unpack,
      if_neg (by omega)]

/-- **Failures in word order.** A write without an erase of which a call of the driver failed has programmed exactly the
words of the calls before it, and a read has delivered exactly their eight words each and changed nothing. Both report what
the driver's failure stands for. -/
theorem failsInOrder (driver : δ) {address : Address} (aligned : address.toNat % 4 = 0) :
    (∀ {words : List Word} {done : Nat} {kind : NorError}, InRange driver address words.length →
      (write ⟨Watched.fresh driver⟩ address words false).2.driver.outcomes[done]? = some (some kind) →
      ∃ after, write ⟨driver⟩ address words false = (.error (.error kind.toMediumError), ⟨after⟩) ∧
        done < words.length ∧ Programmed driver after address.toNat (words.take done)) ∧
    (∀ {destination : List Word} {done : Nat} {kind : NorError}, InRange driver address destination.length →
      (read ⟨Watched.fresh driver⟩ address destination.length).2.driver.outcomes[done]? = some (some kind) →
      ∃ reply after, read ⟨driver⟩ address destination.length = (reply, ⟨after⟩) ∧
        reply.stop = some (.error kind.toMediumError) ∧
        8 * done < destination.length ∧
        reply.into destination =
          (List.range (8 * done)).map (fun index => (image driver).wordAt (address.toNat + 4 * index)) ++
            destination.drop (8 * done) ∧
        bytes after = bytes driver) := by
  have passes : ¬ address % 4 ≠ 0 := by rw [word_aligned aligned]; simp
  constructor
  · intro words place kind range broke
    obtain ⟨done, calls, failure, after, progress, ran, seen, left⟩ :=
      writeWords_progress (pageSize ⟨driver⟩) words driver address [] range.1 range.2
    have watched : write ⟨Watched.fresh driver⟩ address words false = (settled failure, ⟨⟨after, [] ++ calls⟩⟩) :=
      (if_neg passes).trans seen
    rw [watched] at broke
    obtain ⟨rfl, early, rfl⟩ := progress.failed broke
    refine ⟨after, (if_neg passes).trans ran, early, programmed_of_program aligned ?_ left⟩
    have fewer := List.length_take_le place words
    have inside := range.1
    omega
  · intro destination place kind range broke
    obtain ⟨done, calls, failure, reply, after, progress, ran, seen, delivered, stop, kept⟩ :=
      readPortions_progress (portions destination.length) driver address [] [] (by rw [sum_portions]; exact range.1)
        (by rw [sum_portions]; exact range.2)
    have watched : read ⟨Watched.fresh driver⟩ address destination.length = (reply, ⟨⟨after, [] ++ calls⟩⟩) :=
      (if_neg passes).trans seen
    rw [watched] at broke
    obtain ⟨rfl, early, rfl⟩ := progress.failed broke
    obtain ⟨moved, fewer⟩ := sum_take_portions early
    refine ⟨reply, after, (if_neg passes).trans ran, stop, fewer, ?_, kept⟩
    rw [Fetch.into, delivered, moved, List.nil_append, List.length_map, List.length_range]

def thirdFails : NorMemory :=
  ⟨1, 4, 64, ((List.range 128).map UInt8.ofNat).toArray, some ⟨2, .other⟩⟩

/-- The third call of a write is the one for the third word, and that of a read of twenty words is for the last four. -/
theorem failsInOrder_thirdFails :
    (∃ after, write ⟨thirdFails⟩ 8 [0x0F0F0F0F, 0, 0xF0F0F0F0] false = (.error (.error .device), ⟨after⟩) ∧
      Programmed thirdFails after 8 [0x0F0F0F0F, 0]) ∧
    ∃ reply after, read ⟨thirdFails⟩ 8 20 = (reply, ⟨after⟩) ∧ reply.stop = some (.error .device) ∧
      reply.into (List.replicate 20 7) =
        (List.range 16).map (fun index => thirdFails.wordAt (8 + 4 * index)) ++ List.replicate 4 7 := by
  obtain ⟨writes, reads⟩ := @failsInOrder _ _ _ thirdFails 8 rfl
  obtain ⟨after, failed, _, left⟩ :=
    @writes [0x0F0F0F0F, 0, 0xF0F0F0F0] 2 .other ⟨by decide +kernel, by decide⟩ (by decide +kernel)
  obtain ⟨reply, kept, read, stop, _, delivered, _⟩ :=
    @reads (List.replicate 20 7) 2 .other ⟨by decide +kernel, by decide⟩ (by decide +kernel)
  exact ⟨⟨after, failed, left⟩, reply, kept, read, stop, delivered⟩

end NorWords

end TwinLog
