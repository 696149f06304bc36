import TwinLog.Proofs.ChainRoundTrip
import TwinLog.Proofs.Corruption
import TwinLog.Proofs.Trace

set_option autoImplicit false

namespace TwinLog

open Checksum

theorem Checksum.closed_iff {seed : Word} {words : List Word} :
    closed seed words = true ↔ ∃ body, words = body ++ [crc32 seed body] := by
  constructor
  · intro checked
    obtain rfl | ⟨body, last, whole⟩ := List.eq_nil_or_concat words
    · cases checked
    rw [List.concat_eq_append] at whole
    subst whole
    rw [closed_concat, beq_iff_eq] at checked
    exact ⟨body, by rw [checked]⟩
  · rintro ⟨body, rfl⟩
    rw [closed_concat, beq_self_eq_true]

namespace Chain

def further (chain : Chain) (blocks : Nat → Block) : List Block :=
  (List.range' (chain.start + 1) (chain.count - 1)).map blocks

/-- A chain that is laid out ends with the checksum of all its words before. -/
theorem closed_fresh (polarity : Polarity) (id : FileId) {data : List UInt8} (small : data.length ≤ maxFileSize) :
    closed 0 (Block.wordsOf (fresh polarity id data)) = true :=
  sound_closed (sound_encode polarity (polarity.startWord (headOf id data)) id data small)

end Chain

/-- The check of a chain inside of a log reads its blocks, and asks for the continuation tags and for the checksum. -/
theorem Partition.observes_accepts_inside {σ : Type} {journal : Journal} {contents : Contents} {chain : Chain}
    (small : chain.size ≤ maxFileSize) (early : chain.stop ≤ journal.stop)
    (inside : chain.stop ≤ journal.partition.blocks) (first : Block) :
    journal.partition.Observes contents (journal.accepts chain first : Script σ Bool)
      ((chain.further (contents journal.log)).all (fun block => journal.polarity.kind block.info == .cont) &&
        closed 0 (Block.wordsOf (first :: chain.further (contents journal.log)))) := by
  rw [Journal.accepts, if_neg (Nat.not_lt.mpr small), if_neg (Nat.not_lt.mpr early), ← Chain.closes_eq]
  exact observes_further inside first

def Call.words : Call → List Word
  | write _ words => words
  | read _ _ | erase _ _ => []

/-- All words that an operation hands to the medium, in order. -/
def Script.sent {σ α μ : Type} [Medium μ] (script : Script σ α) (medium : μ) : List Word :=
  (script.trace medium).flatMap Call.words

namespace Store

variable {μ : Type} [Medium μ]

/-- To append blocks is one write for each, up to the first that fails; the words of that one are handed over too. -/
theorem appendAll_sent (blocks : List Block) (store : Store) (medium : μ) :
    (store.appendAll blocks).sent medium = Block.wordsOf (blocks.take ((store.appendAll blocks).calls medium)) := by
  induction blocks generalizing store medium with
  | nil => rfl
  | cons block rest ih =>
      rw [appendAll, append_bind, Partition.append]
      cases store.partition.address store.active store.free with
      | error violation => rfl
      | ok address =>
          simp only [Script.require, Script.program, Script.done_bind, Script.write_bind, Script.sent, Script.trace,
            Script.calls, Pure.pure, List.flatMap_cons, Call.words]
          rcases Medium.write medium address block.toList false with ⟨_ | _, after⟩
          · simp [Block.wordsOf]
          · simpa [Block.wordsOf, Script.sent] using ih { store with free := store.free + 1 } after

theorem appendAll_calls {blocks : List Block} {store state left : Store} {medium : μ}
    (ran : ((store.appendAll blocks).run state medium).result = .ok left) :
    (store.appendAll blocks).calls medium = blocks.length := by
  induction blocks generalizing store state medium with
  | nil => rfl
  | cons block rest ih =>
      rw [appendAll, append_bind, Partition.append] at ran ⊢
      cases located : store.partition.address store.active store.free with
      | error violation =>
          rw [located] at ran
          cases ran
      | ok address =>
          rw [located] at ran
          simp only [Script.require, Script.program, Script.done_bind, Script.write_bind, Script.run, Script.calls,
            Pure.pure] at ran ⊢
          rcases wrote : Medium.write medium address block.toList false with ⟨_ | _, after⟩
          · rw [wrote] at ran
            cases ran
          · rw [wrote] at ran
            simpa using ih ran

end Store

namespace Chain

variable {σ μ : Type} [Medium μ]

/-- Whatever the medium does, a chain whose last block is handed to it ends with the checksum of all words that were
handed to it before. -/
theorem appendContent_sent (store : Store) (medium : μ) (id : FileId) {data : List UInt8}
    (small : data.length ≤ maxFileSize)
    (whole : (store.appendContent id data).calls medium = blocksNeeded data.length) :
    ∃ words, (store.appendContent id data).sent medium = words ++ [crc32 0 words] := by
  rw [Store.appendContent_eq store id small] at whole ⊢
  rw [Store.appendAll_sent, whole, ← length_fresh store.partition.polarity id data, List.take_length]
  exact closed_iff.mp (closed_fresh _ id small)

variable [LawfulMedium μ]

/-- The checksum that is carried on from block to block is that of the whole chain. A checksum that continues the one of
a run is that of the joined run, and it is the CRC-32 of the bytes of the words. So, for any content, the last word that
is handed to the medium is the checksum of all words handed to it before, once the last block is reached; and where the
blocks can be programmed it is reached, and the log then holds a chain that ends with the checksum of all its words
before. A chain that declares a legal size and lies inside of its log is accepted exactly if all blocks after its first
carry the continuation tag and its last word is the checksum of all its words before it. -/
theorem running_checksum :
    (∀ seed before after, crc32 (crc32 seed before) after = crc32 seed (before ++ after)) ∧
      (∀ seed words, crc32 seed words = ~~~ ((Word.unpack words).foldl absorbByte (~~~ seed))) ∧
      (∀ (store : Store) (medium : μ) (id : FileId) (data : List UInt8), data.length ≤ maxFileSize →
        (store.appendContent id data).calls medium = blocksNeeded data.length →
        ∃ words, (store.appendContent id data).sent medium = words ++ [crc32 0 words]) ∧
      (∀ (store : Store) (medium : μ) (id : FileId) (data : List UInt8), store.partition.Fits medium →
        data.length ≤ maxFileSize → store.free + blocksNeeded data.length ≤ store.partition.blocks →
        (∀ offset block, (fresh store.partition.polarity id data)[offset]? = some block →
          Block.Takes store.partition.polarity (store.partition.contents medium store.active (store.free + offset))
            block) →
        ∃ written left words, (store.appendContent id data).run store medium = ⟨.ok left, left, written⟩ ∧
          left.free = store.free + blocksNeeded data.length ∧
          (store.appendContent id data).sent medium = words ++ [crc32 0 words] ∧
          Block.wordsOf ((List.range' store.free (blocksNeeded data.length)).map
            (store.partition.contents written store.active)) = words ++ [crc32 0 words]) ∧
      ∀ (journal : Journal) (chain : Chain) (first : Block) (state : σ) (medium : μ), journal.partition.Fits medium →
        chain.size ≤ maxFileSize → chain.stop ≤ journal.stop → chain.stop ≤ journal.partition.blocks →
        ∃ verdict, (journal.accepts chain first).run state medium = ⟨.ok verdict, state, medium⟩ ∧
          (verdict = true ↔
            (∀ block ∈ chain.further (journal.partition.contents medium journal.log),
              journal.polarity.kind block.info = .cont) ∧
            ∃ words, Block.wordsOf (first :: chain.further (journal.partition.contents medium journal.log)) =
              words ++ [crc32 0 words]) := by
  refine ⟨crc32_append, crc32_bytes, ?_, ?_, ?_⟩
  · intro store medium id data small whole
    exact appendContent_sent store medium id small whole
  · intro store medium id data fits small room taken
    obtain ⟨written, ran, -, laid⟩ := Store.appendContent_ran fits id small room taken
    obtain ⟨words, closes⟩ := closed_iff.mp (closed_fresh store.partition.polarity id small)
    have length := length_fresh store.partition.polarity id data
    refine ⟨written, _, words, ran, rfl, ?_, ?_⟩
    · rw [Store.appendContent_eq store id small] at ran ⊢
      rw [Store.appendAll_sent, Store.appendAll_calls (congrArg Outcome.result ran), List.take_length, closes]
    · rw [laid, ← length, Contents.map_lay, closes]
  · intro journal chain first state medium fits small early inside
    have observed : journal.partition.Observes (journal.partition.contents medium)
        (journal.accepts chain first : Script σ Bool) _ := Partition.observes_accepts_inside small early inside first
    refine ⟨_, (observed μ medium fits rfl).run state, ?_⟩
    simp only [Bool.and_eq_true, List.all_eq_true, beq_iff_eq, closed_iff]

section ThreeBlocks

set_option maxRecDepth 32768

/-- A chain of three blocks, appended to a log among garbage and found in one, ends with the checksum of the 23 words
before. -/
theorem running_checksum_threeBlocks :
    (∃ written left words, (Store.appendContent ⟨⟨.zeros, ⟨0, 256, 256⟩⟩, .a, 2⟩ 5 (List.replicate 70 9)).run
          ⟨⟨.zeros, ⟨0, 256, 256⟩⟩, .a, 2⟩ Store.partlyErased = ⟨.ok left, left, written⟩ ∧ left.free = 5 ∧
        Block.wordsOf ((List.range' 2 3).map (Partition.contents ⟨.zeros, ⟨0, 256, 256⟩⟩ written .a)) =
          words ++ [crc32 0 words] ∧
        (Store.appendContent ⟨⟨.zeros, ⟨0, 256, 256⟩⟩, .a, 2⟩ 5 (List.replicate 70 9)).sent Store.partlyErased =
          words ++ [crc32 0 words] ∧ words.length = 23) ∧
      (Journal.accepts ⟨⟨.zeros, ⟨0, 192, 192⟩⟩, .a, 5⟩ ⟨2, headOf 5 (List.replicate 70 9)⟩
          (Partition.contents ⟨.zeros, ⟨0, 192, 192⟩⟩ Simulated.written .a 2)).run () Simulated.written =
        ⟨.ok true, (), Simulated.written⟩ ∧
      ∃ words, Block.wordsOf (Partition.contents ⟨.zeros, ⟨0, 192, 192⟩⟩ Simulated.written .a 2 ::
          further ⟨2, headOf 5 (List.replicate 70 9)⟩ (Partition.contents ⟨.zeros, ⟨0, 192, 192⟩⟩ Simulated.written .a)) =
        words ++ [crc32 0 words] := by
  obtain ⟨-, -, -, appended, checked⟩ := @running_checksum Unit Simulated _ _
  have accepted : (Journal.accepts ⟨⟨.zeros, ⟨0, 192, 192⟩⟩, .a, 5⟩ ⟨2, headOf 5 (List.replicate 70 9)⟩
      (Partition.contents ⟨.zeros, ⟨0, 192, 192⟩⟩ Simulated.written .a 2)).run () Simulated.written =
        ⟨.ok true, (), Simulated.written⟩ := by rfl
  refine ⟨?_, accepted, ?_⟩
  · obtain ⟨written, left, words, ran, free, sent, holds⟩ := appended ⟨⟨.zeros, ⟨0, 256, 256⟩⟩, .a, 2⟩
      Store.partlyErased 5 (List.replicate 70 9) Store.partlyErased_fits (by decide) (by decide)
      (Store.partlyErased_takes (by decide))
    have length := congrArg List.length holds
    rw [List.length_append, List.length_singleton] at length
    exact ⟨written, left, words, ran, free, holds, sent, Nat.succ.inj length.symm⟩
  · obtain ⟨verdict, ran, exactly⟩ := checked ⟨⟨.zeros, ⟨0, 192, 192⟩⟩, .a, 5⟩ ⟨2, headOf 5 (List.replicate 70 9)⟩
      (Partition.contents ⟨.zeros, ⟨0, 192, 192⟩⟩ Simulated.written .a 2) () Simulated.written Simulated.written_fits
      (by decide) (by decide) (by decide)
    rw [accepted, Outcome.mk.injEq, Except.ok.injEq] at ran
    exact (exactly.mp ran.1.symm).2

end ThreeBlocks

end Chain

end TwinLog
