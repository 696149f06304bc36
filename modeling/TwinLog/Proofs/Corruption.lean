import TwinLog.Medium.Simulated
import TwinLog.Proofs.Checksums
import TwinLog.Proofs.Reading

set_option autoImplicit false

namespace TwinLog

open LawfulMedium

namespace Block

theorem toList_overlay_take (block : Block) (word : Word) {position : Nat} (inside : position < 8) :
    (block.overlay (block.toList.take position ++ [word])).toList = block.toList.set position word := by
  have length := block.length_toList
  have taken : (block.toList.take position ++ [word]).length = position + 1 := by
    rw [List.length_append, List.length_take, List.length_singleton]
    omega
  have whole : (block.toList.take position ++ [word] ++ block.toList.drop (position + 1)).length = 8 := by
    rw [List.length_append, taken, List.length_drop]
    omega
  rw [overlay, taken, toList_ofList whole, List.append_assoc, List.singleton_append,
    List.set_eq_take_append_cons_drop, if_pos (by omega)]

theorem wordsOf_append (before after : List Block) : wordsOf (before ++ after) = wordsOf before ++ wordsOf after := by
  simp [wordsOf]

theorem wordsOf_cons (block : Block) (rest : List Block) : wordsOf (block :: rest) = block.toList ++ wordsOf rest := by
  simp [wordsOf]

/-- One word of one block of a run is one word of the run. -/
theorem wordsOf_set {block changed : Block} {position : Nat} {word : Word} (inside : position < 8)
    (set : changed.toList = block.toList.set position word) (before after : List Block) :
    wordsOf (before ++ changed :: after) =
      (wordsOf (before ++ block :: after)).set ((wordsOf before).length + position) word := by
  rw [wordsOf_append, wordsOf_append, wordsOf_cons, wordsOf_cons, set,
    List.set_append_right _ _ (Nat.le_add_right _ _), Nat.add_sub_cancel_left,
    List.set_append_left _ _ (by rw [length_toList]; exact inside)]

/-- A run of blocks that checks does not check any more when one of its words is replaced by another one. -/
theorem closed_corrupted {block changed : Block} {position : Nat} {word seed : Word} (inside : position < 8)
    (other : block.toList.getD position 0 ≠ word) (set : changed.toList = block.toList.set position word)
    (before after : List Block) (checked : Checksum.closed seed (wordsOf (before ++ block :: after)) = true) :
    Checksum.closed seed (wordsOf (before ++ changed :: after)) = false := by
  have length := block.length_toList
  have here : (wordsOf before).length + position < (wordsOf (before ++ block :: after)).length := by
    rw [wordsOf_append, wordsOf_cons, List.length_append, List.length_append]
    omega
  rw [wordsOf_set inside set]
  refine Checksum.closed_set here ?_ checked
  rw [List.getD_eq_getElem _ _ (by omega)] at other
  simpa only [wordsOf_append, wordsOf_cons, List.getElem_append_right (Nat.le_add_right _ position),
    Nat.add_sub_cancel_left, List.getElem_append_left (show position < block.toList.length by omega)] using other

/-- An entry block that rots in one word is none any more. -/
theorem binding?_corrupted {polarity : Polarity} {block changed : Block} {binding : FileId × Ufid} {position : Nat}
    {word : Word} (inside : position < 8) (other : block.toList.getD position 0 ≠ word)
    (set : changed.toList = block.toList.set position word) (bound : block.binding? polarity = some binding) :
    changed.binding? polarity = none := by
  have length := block.length_toList
  have checked : block.checks 0 = true := by
    rw [binding?] at bound
    split at bound
    · split at bound
      · assumption
      · cases bound
    · cases bound
  have broken : changed.checks 0 = false := by
    rw [List.getD_eq_getElem _ _ (by omega)] at other
    rw [checks_eq] at checked
    rw [checks_eq, set]
    exact Checksum.closed_set (by omega) other checked
  unfold binding?
  rw [broken]
  split <;> rfl

end Block

namespace Chain

theorem sound_closed {polarity : Polarity} {head : Start} {blocks : List Block}
    (passed : sound polarity head blocks = true) : Checksum.closed 0 (Block.wordsOf blocks) = true := by
  cases blocks with
  | nil => cases passed
  | cons first rest =>
      simp only [sound, closes_eq, Bool.and_eq_true] at passed
      exact passed.2.2

theorem extent_split (chain : Chain) (blocks : Nat → Block) {index : Nat} (late : chain.start ≤ index)
    (early : index < chain.stop) :
    chain.extent blocks = (List.range' chain.start (index - chain.start)).map blocks ++
      blocks index :: (List.range' (index + 1) (chain.stop - (index + 1))).map blocks := by
  have count : chain.count = chain.stop - chain.start := by simp only [stop]; omega
  rw [extent, count, Tape.range'_split late (Nat.le_of_lt early), List.map_append,
    show chain.stop - index = chain.stop - (index + 1) + 1 by omega, List.range'_succ, List.map_cons]

end Chain

namespace Tape

variable {tape tape' : Tape} {chain : Chain} {index position : Nat} {word : Word}

/-- A chain that rots in one word of one of its blocks is none any more, as long as the first block does not declare
another number of blocks. -/
theorem chainFor?_corrupted (found : tape.chainAt? chain.start = some chain) (late : chain.start ≤ index)
    (early : index < chain.stop) (inside : position < 8) (other : (tape.blocks index).toList.getD position 0 ≠ word)
    (polarity : tape'.polarity = tape.polarity)
    (set : (tape'.blocks index).toList = (tape.blocks index).toList.set position word)
    (same : ∀ place, place ≠ index → tape'.blocks place = tape.blocks place)
    (declared : index = chain.start → position = 0 → ∀ head, tape.polarity.kind word = .start head →
      blocksNeeded head.size.val = chain.count) (id : FileId) : tape'.chainFor? id chain.start = none := by
  obtain ⟨-, kind, room, passed⟩ := chainAt?_some.mp found
  have length := (tape.blocks index).length_toList
  rw [Option.eq_none_iff_forall_ne_some]
  intro newer there
  obtain ⟨first, kind', room', passed'⟩ := chainAt?_some.mp (chainFor?_some.mp there).1
  rw [polarity] at kind' passed'
  -- a first block that still declares a chain declares one of as many blocks
  have count : newer.count = chain.count := by
    by_cases first : index = chain.start ∧ position = 0
    · obtain ⟨here, zero⟩ := first
      subst zero
      have info : (tape'.blocks chain.start).info = word := by
        rw [← here, Block.info_eq, set, List.getD_eq_getElem _ _ (by rw [List.length_set]; omega),
          List.getElem_set_self]
      rw [info] at kind'
      exact declared here rfl newer.head kind'
    · have info : (tape'.blocks chain.start).info = (tape.blocks chain.start).info := by
        by_cases here : index = chain.start
        · rw [← here, Block.info_eq, Block.info_eq, set, List.getD_eq_getElem?_getD, List.getD_eq_getElem?_getD,
            List.getElem?_set_ne (fun zero => first ⟨here, zero⟩)]
        · rw [same _ (fun place => here place.symm)]
      rw [info, kind, Kind.start.injEq] at kind'
      rw [Chain.count, Chain.size, ← kind']
      rfl
  have stop : newer.stop = chain.stop := by rw [Chain.stop, Chain.stop, first, count]
  have checked := Chain.sound_closed passed
  have checked' := Chain.sound_closed passed'
  rw [chain.extent_split _ late early] at checked
  rw [newer.extent_split _ (show newer.start ≤ index by omega) (by omega), first, stop] at checked'
  have elsewhere (start count : Nat) (apart : index < start ∨ start + count ≤ index) :
      (List.range' start count).map tape'.blocks = (List.range' start count).map tape.blocks := by
    apply List.map_congr_left
    intro place member
    rw [List.mem_range'_1] at member
    exact same place (by omega)
  rw [elsewhere _ _ (by omega), elsewhere _ _ (by omega), Block.closed_corrupted inside other set _ _ checked]
    at checked'
  cases checked'

end Tape

theorem Journal.load_outside {σ μ α : Type} [Medium μ] {journal : Journal} {index : Nat}
    (outside : ¬ index < journal.partition.blocks) (next : Block → Script σ α) (state : σ) (medium : μ) :
    (journal.load index >>= next).run state medium = ⟨.error (.halt (.blockOutside index)), state, medium⟩ := by
  rw [Journal.load, Partition.load, Partition.address, if_neg outside]
  rfl

variable {μ : Type} [Medium μ] [LawfulMedium μ]

/-- What is left of a medium when one word of a block of a log is replaced by another one. -/
structure Partition.Rotted (partition : Partition) (log : Log) (index position : Nat) (word : Word)
    (medium after : μ) : Prop where
  fits : partition.Fits after
  changed : cell medium (partition.cellOf log index + position) ≠ word
  cells : ∀ place, cell after place =
    if place = partition.cellOf log index + position then word else cell medium place

namespace Partition.Rotted

variable {partition : Partition} {log : Log} {index position : Nat} {word : Word} {medium after : μ}

/-- One word of one block differs, and no other word of either log does. -/
theorem blocks (rotted : partition.Rotted log index position word medium after) (fits : partition.Fits medium)
    (within : index < partition.blocks) (inside : position < 8) :
    (partition.contents medium log index).toList.getD position 0 ≠ word ∧
      (partition.contents after log index).toList = (partition.contents medium log index).toList.set position word ∧
      ∀ place, place ≠ index → partition.contents after log place = partition.contents medium log place := by
  have length := (partition.contents medium log index).length_toList
  have taken : ((partition.contents medium log index).toList.take position).length = position := by
    rw [List.length_take]
    omega
  have put : partition.contents after = (partition.contents medium).put log index
      ((partition.contents medium log index).toList.take position ++ [word]) := by
    apply contents_programmed fits within
    · rw [List.length_append, taken, List.length_singleton]
      omega
    · intro place
      rw [rotted.cells, List.length_append, taken, List.length_singleton]
      by_cases here : place = partition.cellOf log index + position
      · rw [if_pos here, if_pos (by omega), here, Nat.add_sub_cancel_left,
          List.getD_append_right _ _ _ _ (Nat.le_of_eq taken), taken, Nat.sub_self, List.getD_cons_zero]
      · rw [if_neg here]
        split
        · have early : place - partition.cellOf log index < position := by omega
          have word := @contents_inside μ _ _ partition medium log index within (place - partition.cellOf log index)
            (by omega)
          rw [List.getD_append _ _ _ _ (by omega), List.getD_eq_getElem?_getD, List.getElem?_take_of_lt early,
            ← List.getD_eq_getElem?_getD, word, Nat.add_sub_cancel' (by omega)]
        · rfl
  refine ⟨?_, ?_, ?_⟩
  · rw [contents_inside log within inside]
    exact rotted.changed
  · rw [put, Contents.put_same, Block.toList_overlay_take _ _ inside]
  · intro place apart
    rw [put, Contents.put_apart _ _ (fun here => apart here.2)]

end Partition.Rotted

namespace Journal

variable {σ : Type} {journal : Journal} {medium after : μ} {index position : Nat} {word : Word}

/-- The binding that the scan for entries finds at `index`, if there is a sound entry. -/
def entryAt (journal : Journal) (index : Nat) : Script σ (Option (FileId × Ufid)) := do
  return (← journal.load index).binding? journal.polarity

theorem entryAt_run (fits : journal.partition.Fits medium) (within : index < journal.partition.blocks) (state : σ) :
    (journal.entryAt index).run state medium =
      ⟨.ok ((journal.partition.contents medium journal.log index).binding? journal.polarity), state, medium⟩ := by
  have observed : journal.partition.Observes (journal.partition.contents medium)
      (journal.entryAt index : Script σ (Option (FileId × Ufid)))
      ((journal.partition.contents medium journal.log index).binding? journal.polarity) :=
    Partition.Observes.bind (Partition.observes_load within) (Partition.observes_pure _)
  exact (observed μ medium fits rfl).run state

/-- Every word that rots is noticed. Let a log hold anything, and let one word of a block be replaced by another one. If
the block was an entry that the scan accepts, it is accepted no more and no lookup finds it. If the block is one of a
chain that the scan accepts, of any length and wherever in the chain, no chain is accepted at the chain's start any
more, for no file; but for a first word that declares a chain of another number of blocks instead. -/
theorem rot_detected (fits : journal.partition.Fits medium) (room : journal.stop ≤ journal.partition.blocks)
    (inside : position < 8) (rotted : journal.partition.Rotted journal.log index position word medium after) :
    (∀ binding, (journal.entryAt index).run () medium = ⟨.ok (some binding), (), medium⟩ →
      (journal.entryAt index).run () after = ⟨.ok none, (), after⟩ ∧
        ∀ ufid id, ((journal.lookup ufid).run () after).result ≠ .ok (.found id index)) ∧
      ∀ id chain, (journal.chainAt id chain.start).run () medium = ⟨.ok (some chain), (), medium⟩ →
        chain.start ≤ index → index < chain.stop →
        (index = chain.start → position = 0 → ∀ head, journal.polarity.kind word = .start head →
          blocksNeeded head.size.val = chain.count) →
        ∀ other, (journal.chainAt other chain.start).run () after = ⟨.ok none, (), after⟩ := by
  constructor
  · intro binding accepted
    have within : index < journal.partition.blocks := by
      by_contra outside
      rw [Journal.entryAt, load_outside outside] at accepted
      cases accepted
    obtain ⟨other, set, -⟩ := rotted.blocks fits within inside
    rw [entryAt_run fits within, Outcome.mk.injEq, Except.ok.injEq] at accepted
    have refused := Block.binding?_corrupted inside other set accepted.1
    refine ⟨by rw [entryAt_run rotted.fits within, refused], ?_⟩
    intro ufid id found
    have observed : journal.partition.Observes (journal.partition.contents after)
        (journal.lookup ufid : Script Unit Lookup) _ := Partition.observes_lookup room
    rw [(observed μ after rotted.fits rfl).run] at found
    have located := Tape.locates_lookup (journal.tape (journal.partition.contents after)) ufid
    rw [Except.ok.inj found] at located
    cases refused.symm.trans located.2.2.1
  · intro id chain accepted late early declared other
    have within : chain.start < journal.partition.blocks := by
      by_contra outside
      rw [Journal.chainAt, load_outside outside] at accepted
      cases accepted
    have chained (contents : Contents) (id : FileId) : journal.partition.Observes contents
        (journal.chainAt id chain.start : Script Unit (Option Chain)) _ := Partition.observes_chainAt room within
    rw [(chained _ id μ medium fits rfl).run, Outcome.mk.injEq, Except.ok.injEq] at accepted
    have found := (Tape.chainFor?_some.mp accepted.1).1
    have stop : chain.stop ≤ journal.stop := (Tape.chainAt?_some.mp found).2.2.1
    obtain ⟨apart, set, same⟩ := rotted.blocks fits (by omega) inside
    rw [(chained _ other μ after rotted.fits rfl).run]
    have refused : (journal.tape (journal.partition.contents after)).chainFor? other chain.start = none :=
      Tape.chainFor?_corrupted found late early inside apart (by rfl) set same declared other
    rw [refused]

end Journal

section Rotten

set_option maxRecDepth 32768

namespace Simulated

def rot (medium : Simulated) (place : Nat) (word : Word) : Simulated :=
  { medium with words := medium.words.setIfInBounds place word }

theorem rot_rotted {partition : Partition} {medium : Simulated} {log : Log} {index position : Nat} {word : Word}
    (fits : partition.Fits medium) (within : partition.cellOf log index + position < medium.words.size)
    (changed : medium.words.getD (partition.cellOf log index + position) 0 ≠ word) :
    partition.Rotted log index position word medium (medium.rot (partition.cellOf log index + position) word) where
  fits := fits.preserved fits.sound rfl rfl (Array.size_setIfInBounds ..)
  changed := changed
  cells := by
    intro place
    rw [show cell (medium.rot _ word) place = _ from getD_set medium.words _ place word within]
    by_cases here : partition.cellOf log index + position = place
    · rw [if_pos here, if_pos here.symm]
    · rw [if_neg here, if_neg (fun there => here there.symm)]
      rfl

def written : Simulated where
  polarity := .zeros
  pageSize := 64
  words := (List.replicate 8 0 ++ (Block.entry .zeros 5 (Vector.replicate 12 7)).toList ++
    Block.wordsOf (Chain.encode .zeros (Polarity.zeros.startWord (Chain.headOf 5 (List.replicate 70 9)))
      (List.replicate 70 9)) ++ List.replicate 56 0).toArray

theorem written_fits : Partition.Fits ⟨.zeros, ⟨0, 192, 192⟩⟩ written := by
  refine Partition.Fits.simulated rfl rfl (by decide +kernel) ?_
  intro log
  cases log <;> decide +kernel

end Simulated

open Simulated

/-- Rot in the identifier of the entry, and in the middle block of the chain, is noticed. -/
theorem Journal.rot_detected_written :
    (entryAt ⟨⟨.zeros, ⟨0, 192, 192⟩⟩, .a, 5⟩ 1).run () written =
        ⟨.ok (some (5, Vector.replicate 12 7)), (), written⟩ ∧
      (entryAt ⟨⟨.zeros, ⟨0, 192, 192⟩⟩, .a, 5⟩ 1).run () (written.rot 10 0) = ⟨.ok none, (), written.rot 10 0⟩ ∧
      (chainAt ⟨⟨.zeros, ⟨0, 192, 192⟩⟩, .a, 5⟩ 5 2).run () written =
        ⟨.ok (some ⟨2, Chain.headOf 5 (List.replicate 70 9)⟩), (), written⟩ ∧
      ∀ other, (chainAt ⟨⟨.zeros, ⟨0, 192, 192⟩⟩, .a, 5⟩ other 2).run () (written.rot 28 1) =
        ⟨.ok none, (), written.rot 28 1⟩ := by
  have bound : (entryAt ⟨⟨.zeros, ⟨0, 192, 192⟩⟩, .a, 5⟩ 1).run () written =
      ⟨.ok (some (5, Vector.replicate 12 7)), (), written⟩ := by rfl
  have chained : (chainAt ⟨⟨.zeros, ⟨0, 192, 192⟩⟩, .a, 5⟩ 5 2).run () written =
      ⟨.ok (some ⟨2, Chain.headOf 5 (List.replicate 70 9)⟩), (), written⟩ := by rfl
  refine ⟨bound, ?_, chained, ?_⟩
  · have rotted : Partition.Rotted ⟨.zeros, ⟨0, 192, 192⟩⟩ .a 1 2 0 written (written.rot 10 0) :=
      rot_rotted written_fits (by decide +kernel) (by decide +kernel)
    exact ((@rot_detected Simulated _ _ ⟨⟨.zeros, ⟨0, 192, 192⟩⟩, .a, 5⟩ _ _ _ _ _ written_fits (by decide) (by decide)
      rotted).1 _ bound).1
  · have rotted : Partition.Rotted ⟨.zeros, ⟨0, 192, 192⟩⟩ .a 3 4 1 written (written.rot 28 1) :=
      rot_rotted written_fits (by decide +kernel) (by decide +kernel)
    exact (@rot_detected Simulated _ _ ⟨⟨.zeros, ⟨0, 192, 192⟩⟩, .a, 5⟩ _ _ _ _ _ written_fits (by decide) (by decide)
      rotted).2 5 ⟨2, Chain.headOf 5 (List.replicate 70 9)⟩ chained (by decide) (by decide +kernel)
      (fun here => absurd here (by decide))

end Rotten

end TwinLog
