import TwinLog.Medium.Simulated
import TwinLog.Proofs.Saving

set_option autoImplicit false

namespace TwinLog

variable {μ : Type} [Medium μ] [LawfulMedium μ]

namespace Partition

variable {σ α : Type}

/-- Whether an operation ends well, with `value` and the state `left`, and changes no block of the logs. -/
def Delivers (partition : Partition) (script : Script σ α) (state : σ) (medium : μ) (value : α) (left : σ) : Prop :=
  ∃ after, script.run state medium = ⟨.ok value, left, after⟩ ∧ partition.Fits after ∧
    partition.contents after = partition.contents medium

end Partition

/-- Whether a journal takes `chain` for a sound one and reads `data` from it, into buffers of any length. -/
structure Journal.Returns (journal : Journal) (chain : Chain) (data : List UInt8) (medium : μ) : Prop where
  accepted : journal.partition.Delivers
    (journal.accepts chain (journal.partition.contents medium journal.log chain.start)) () medium true ()
  found : journal.partition.Delivers (journal.chainAt chain.head.id chain.start) () medium (some chain) ()
  copied : ∀ buffer : List UInt8, journal.partition.Delivers
    (journal.read chain buffer.length fun copied => Script.leave (copied ++ buffer.drop copied.length)) buffer medium
    (data.take buffer.length) (data.take buffer.length ++ buffer.drop data.length)

theorem Journal.returns_of_chainAt? {journal : Journal} {chain : Chain} {medium : μ}
    (fits : journal.partition.Fits medium) (inside : journal.stop ≤ journal.partition.blocks)
    (sound : (journal.tape (journal.partition.contents medium)).chainAt? chain.start = some chain) :
    journal.Returns chain (chain.content (journal.partition.contents medium journal.log)) medium := by
  obtain ⟨-, -, ended, passed⟩ := Tape.chainAt?_some.mp sound
  have stop : chain.stop ≤ journal.stop := ended
  have counted := chain.one_le_count
  have early : chain.start < journal.stop := by
    have last : chain.stop = chain.start + chain.count := rfl
    omega
  refine ⟨?_, ?_, ?_⟩
  · apply Partition.Achieves.ran fits
    apply (Partition.observes_accepts chain inside).achieves trivial
    refine ⟨?_, rfl, rfl⟩
    rw [decide_eq_true stop, Bool.true_and]
    exact congrArg Except.ok passed
  · apply Partition.Achieves.ran fits
    apply (Partition.observes_chainAt inside (by omega)).achieves trivial
    exact ⟨congrArg Except.ok (Tape.chainFor?_some.mpr ⟨sound, rfl⟩), rfl, rfl⟩
  · intro buffer
    apply Partition.Achieves.ran fits
    apply Partition.achieves_copy journal buffer (Nat.le_trans stop inside) (fun _ => trivial)
    exact ⟨rfl, rfl, rfl⟩

theorem Journal.returns_fresh {journal : Journal} {medium : μ} {start : Nat} {id : FileId} {data : List UInt8}
    (fits : journal.partition.Fits medium) (inside : journal.stop ≤ journal.partition.blocks)
    (small : data.length ≤ maxFileSize) (room : start + blocksNeeded data.length ≤ journal.stop)
    (holds : (List.range' start (blocksNeeded data.length)).map (journal.partition.contents medium journal.log) =
      Chain.fresh journal.polarity id data) :
    journal.Returns ⟨start, Chain.headOf id data⟩ data medium := by
  have count : (Chain.mk start (Chain.headOf id data)).count = blocksNeeded data.length := by
    rw [Chain.count, Chain.size, Chain.headOf_size small]
  obtain ⟨sound, content⟩ :=
    @Tape.chainAt?_fresh (journal.tape (journal.partition.contents medium)) start id data small
      (by rw [Chain.extent, count]; exact holds) (by rw [Chain.stop, count]; exact room)
  have returns : journal.Returns ⟨start, Chain.headOf id data⟩ _ medium :=
    Journal.returns_of_chainAt? fits inside sound
  have read : (Chain.mk start (Chain.headOf id data)).content (journal.partition.contents medium journal.log) = data :=
    content
  rwa [read] at returns

/-- Of the blocks of a new chain in a log the first one declares it and all further ones continue it. -/
theorem Contents.kind_lay_fresh (contents : Contents) (log : Log) (free : Nat) (polarity : Polarity) (id : FileId)
    {data : List UInt8} (small : data.length ≤ maxFileSize) :
    polarity.kind (contents.lay log free (Chain.fresh polarity id data) log free).info =
        .start (Chain.headOf id data) ∧
      ∀ position, free < position → position < free + blocksNeeded data.length →
        polarity.kind (contents.lay log free (Chain.fresh polarity id data) log position).info = .cont := by
  have length := Chain.length_fresh polarity id data
  obtain ⟨first, rest, fresh, info, further⟩ :=
    Chain.encode_cons polarity (polarity.startWord (Chain.headOf id data)) (Chain.one_le_of_small small)
  have split : Chain.fresh polarity id data = first :: rest := fresh
  constructor
  · rw [split, Contents.lay_first, info, Polarity.kind_startWord]
  · intro position after before
    have inside : position - free < (Chain.fresh polarity id data).length := by omega
    have block := @Contents.lay_inside contents log free _ _ inside
    rw [Nat.add_sub_cancel' (Nat.le_of_lt after)] at block
    rw [block]
    apply further
    simp only [split, List.getElem_cons]
    rw [dif_neg (by omega)]
    exact List.getElem_mem _

namespace Store

variable {store : Store} {medium : μ} {data : List UInt8}

/-- The chain that is appended is laid out from the free block on. -/
theorem appendContent_ran (fits : store.partition.Fits medium) (id : FileId) (small : data.length ≤ maxFileSize)
    (room : store.free + blocksNeeded data.length ≤ store.partition.blocks)
    (taken : ∀ offset block, (Chain.fresh store.partition.polarity id data)[offset]? = some block →
      Block.Takes store.partition.polarity (store.partition.contents medium store.active (store.free + offset))
        block) :
    ∃ written, (store.appendContent id data).run store medium =
        ⟨.ok (store.grown (blocksNeeded data.length)), store.grown (blocksNeeded data.length), written⟩ ∧
      store.partition.Fits written ∧
      store.partition.contents written = (store.partition.contents medium).lay store.active store.free
        (Chain.fresh store.partition.polarity id data) := by
  have length := Chain.length_fresh store.partition.polarity id data
  rw [appendContent_eq store id small]
  apply Partition.Achieves.ran fits
  apply Partition.achieves_appendAll
  · rw [length]
    exact room
  · exact taken
  · exact fun _ _ _ _ => trivial
  · rw [length]
    exact ⟨rfl, rfl, rfl⟩

/-- Content that is appended is returned. In a log that holds anything, as long as the chain can be programmed where it
goes, as over erased blocks, the chain of at most the largest content takes as many blocks as the content needs, and no
other block changes. Its first block declares the file and the size, all further ones carry the continuation tag. Every
medium that holds these blocks in that place, with anything before and after them, returns the content: up to any end of
the log behind the chain it is accepted as a chain of that size, and reading it fills a buffer of any length with the
first bytes of the content and leaves the bytes of the buffer after the content as they are. -/
theorem appendContent_returns (fits : store.partition.Fits medium) (id : FileId) (small : data.length ≤ maxFileSize)
    (room : store.free + blocksNeeded data.length ≤ store.partition.blocks)
    (taken : ∀ offset block, (Chain.fresh store.partition.polarity id data)[offset]? = some block →
      Block.Takes store.partition.polarity (store.partition.contents medium store.active (store.free + offset))
        block) :
    ∃ written left head, (store.appendContent id data).run store medium = ⟨.ok left, left, written⟩ ∧
      store.partition.Fits written ∧ left.free = store.free + blocksNeeded data.length ∧
      (∀ log position, ¬ (log = store.active ∧ store.free ≤ position ∧ position < left.free) →
        store.partition.contents written log position = store.partition.contents medium log position) ∧
      head.id = id ∧ head.size.val = data.length ∧
      store.partition.polarity.kind (store.partition.contents written store.active store.free).info = .start head ∧
      (∀ position, store.free < position → position < left.free →
        store.partition.polarity.kind (store.partition.contents written store.active position).info = .cont) ∧
      ∀ (later : μ) (stop : Nat), store.partition.Fits later → left.free ≤ stop → stop ≤ store.partition.blocks →
        (∀ position, store.free ≤ position → position < left.free →
          store.partition.contents later store.active position =
            store.partition.contents written store.active position) →
        Journal.Returns ⟨store.partition, store.active, stop⟩ ⟨store.free, head⟩ data later := by
  obtain ⟨written, ran, fits', laid⟩ := appendContent_ran fits id small room taken
  have length := Chain.length_fresh store.partition.polarity id data
  have size : (Chain.headOf id data).size.val = data.length := Chain.headOf_size small
  obtain ⟨started, continued⟩ := Contents.kind_lay_fresh (store.partition.contents medium) store.active store.free
    store.partition.polarity id small
  rw [← laid] at started continued
  refine ⟨written, _, Chain.headOf id data, ran, fits', rfl, ?_, rfl, size, started, continued, ?_⟩
  · intro log position apart
    change ¬ (log = store.active ∧ store.free ≤ position ∧ position < store.free + blocksNeeded data.length) at apart
    rw [laid]
    apply Contents.lay_apart
    rw [length]
    by_cases same : log = store.active
    · have outside : ¬ (store.free ≤ position ∧ position < store.free + blocksNeeded data.length) :=
        fun inside => apart ⟨same, inside⟩
      omega
    · exact .inl same
  · intro later stop fits'' enough inside same
    apply Journal.returns_fresh fits'' inside small enough
    change _ = Chain.fresh store.partition.polarity id data
    rw [← @Contents.map_lay (store.partition.contents medium) store.active store.free
      (Chain.fresh store.partition.polarity id data), ← laid, length]
    apply List.map_congr_left
    intro position member
    obtain ⟨late, early⟩ := List.mem_range'_1.mp member
    exact same position late early

section ClosingBlock

set_option maxRecDepth 8192

def partlyErased : Simulated :=
  ⟨.zeros, 64, (List.replicate 16 Simulated.garbage ++ List.replicate 48 0 ++
    List.replicate 64 Simulated.garbage).toArray⟩

theorem partlyErased_fits : Partition.Fits ⟨.zeros, ⟨0, 256, 256⟩⟩ partlyErased := by
  refine Partition.Fits.simulated rfl rfl (by decide) ?_
  intro log
  cases log <;> decide

theorem partlyErased_takes {blocks : List Block} (few : blocks.length ≤ 3) (offset : Nat) (block : Block)
    (found : blocks[offset]? = some block) :
    Block.Takes .zeros (Partition.contents ⟨.zeros, ⟨0, 256, 256⟩⟩ partlyErased .a (2 + offset)) block := by
  have clear : ∀ offset < 3, Partition.contents ⟨.zeros, ⟨0, 256, 256⟩⟩ partlyErased .a (2 + offset) =
      Block.blank .zeros := by
    decide
  obtain ⟨inside, -⟩ := List.getElem?_eq_some_iff.mp found
  exact Block.takes_of_blank (clear offset (Nat.lt_of_lt_of_le inside few)) block

/-- There, the second block of a chain of 26 bytes holds nothing of them but is written all the same. -/
theorem appendContent_returns_closingBlock :
    ∃ written left head, (appendContent ⟨⟨.zeros, ⟨0, 256, 256⟩⟩, .a, 2⟩ 3 (List.replicate 26 5)).run
        ⟨⟨.zeros, ⟨0, 256, 256⟩⟩, .a, 2⟩ partlyErased = ⟨.ok left, left, written⟩ ∧
      left.free = 4 ∧ head.id = 3 ∧ head.size.val = 26 ∧
      Journal.Returns ⟨⟨.zeros, ⟨0, 256, 256⟩⟩, .a, 4⟩ ⟨2, head⟩ (List.replicate 26 5) written := by
  obtain ⟨written, left, head, ran, fits, free, -, id, size, -, -, returned⟩ :=
    @appendContent_returns Simulated _ _ ⟨⟨.zeros, ⟨0, 256, 256⟩⟩, .a, 2⟩ partlyErased (List.replicate 26 5)
      partlyErased_fits 3 (by decide) (by decide) (partlyErased_takes (by decide))
  have end_of_log : left.free = 4 := free
  refine ⟨written, left, head, ran, end_of_log, id, size, ?_⟩
  exact returned written 4 fits (by omega) (by decide) (fun _ _ _ => rfl)

end ClosingBlock

end Store

end TwinLog
