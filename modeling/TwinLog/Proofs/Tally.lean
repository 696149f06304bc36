import TwinLog.Proofs.Backing
import TwinLog.Proofs.FailedSave
import TwinLog.Proofs.Footprint
import TwinLog.Proofs.ReadYourWrites

set_option autoImplicit false

namespace TwinLog

/-- Of the blocks that are appended for a file none but the first is an entry. -/
theorem Record.additions_further {polarity : Polarity} {records : List Record} {ufid : Ufid} {data : List UInt8}
    {first : Block} {rest : List Block} (added : additions polarity records ufid data = some (first :: rest)) :
    ∀ block ∈ rest, ∀ id, polarity.kind block.info ≠ .entry id := by
  intro block member
  rw [additions] at added
  cases owner : owner? records ufid with
  | some id =>
      rw [owner, Option.some.injEq] at added
      exact Chain.kind_fresh (added ▸ List.mem_cons_of_mem first member)
  | none =>
      rw [owner, Option.map_eq_some_iff] at added
      obtain ⟨id, -, laid⟩ := added
      rw [List.cons.injEq] at laid
      exact Chain.kind_fresh (laid.2 ▸ member)

/-- A part of a block from the front is erased, or it is an entry only if the whole block is. -/
theorem Block.binding?_part {polarity : Polarity} {block : Block} (other : ∀ id, polarity.kind block.info ≠ .entry id)
    (count : Nat) : ((Block.blank polarity).overlay (block.toList.take count)).binding? polarity = none := by
  cases count with
  | zero => rw [List.take_zero, Block.overlay_nil, Block.binding?_blank]
  | succ count =>
      cases words : block.toList with
      | nil =>
          have eight := block.length_toList
          rw [words] at eight
          cases eight
      | cons word rest =>
          apply Block.binding?_none
          rw [List.take_succ_cons, Block.info_overlay, ← Block.info_of_toList words]
          exact other

theorem Contents.lay_unbound {contents : Contents} {log : Log} {free index : Nat} {polarity : Polarity}
    {before after rest : List Block} {first : Block} (split : before ++ after = first :: rest)
    (other : ∀ block ∈ rest, ∀ id, polarity.kind block.info ≠ .entry id) (late : free < index)
    (clear : contents log index = Block.blank polarity) :
    (contents.lay log free before log index).binding? polarity = none := by
  by_cases inside : index < free + before.length
  · cases before with
    | nil => exact absurd inside (by rw [List.length_nil]; omega)
    | cons head before =>
        rw [List.cons_append, List.cons.injEq] at split
        rw [List.length_cons] at inside
        have offset : index - (free + 1) < before.length := by omega
        have laid := @Contents.lay_inside (contents.put log free head.toList) log (free + 1) before _ offset
        rw [Nat.add_sub_cancel' (by omega)] at laid
        rw [Contents.lay, laid]
        apply Block.binding?_none
        exact other _ (split.2 ▸ List.mem_append_left after (List.getElem_mem offset))
  · rw [Contents.lay_apart _ _ (.inr (.inr (Nat.le_of_not_lt inside))), clear, Block.binding?_blank]

theorem Appending.unbound {store left : Store} {contents current : Contents} {torn : Bool} {first : Block}
    {rest : List Block} (appending : Appending store contents (first :: rest) torn left current)
    (clear : ∀ position, store.free ≤ position →
      contents store.active position = Block.blank store.partition.polarity)
    (other : ∀ block ∈ rest, ∀ id, store.partition.polarity.kind block.info ≠ .entry id) {index : Nat}
    (late : store.free < index) :
    (current store.active index).binding? store.partition.polarity = none := by
  have blank := clear index (Nat.le_of_lt late)
  cases appending with
  | whole before after split kept near => exact Contents.lay_unbound split.symm other late blank
  | torn before block after split count short =>
      by_cases here : index = store.free + before.length
      · subst here
        have member : block ∈ rest := by
          cases before with
          | nil => exact absurd late (Nat.lt_irrefl _)
          | cons head before =>
              rw [List.cons_append, List.cons.injEq] at split
              rw [split.2]
              exact List.mem_append_right _ List.mem_cons_self
        rw [Contents.put_same, Contents.lay_apart _ _ (.inr (.inr (Nat.le_refl _))), blank]
        exact Block.binding?_part (other block member) count
      · rw [Contents.put_apart _ _ (fun same => here same.2)]
        exact Contents.lay_unbound split.symm other late blank

namespace Store

variable {store left : Store} {contents current : Contents} {spare : Nat} {ufid : Ufid} {data : List UInt8}
  {torn : Bool}

/-- Whether a store is in charge of a log in which all but `spare` of the entries are those of different files that have
content. -/
structure Tallied (spare : Nat) (store : Store) (contents : Contents) : Prop extends store.InCharge contents where
  backed : Record.BackedBut spare ((store.tape contents).records [] 1)

def TalliedInUse (partition : Partition) (spare : Nat) (contents : Contents) : Prop :=
  ∃ log free, Tallied spare ⟨partition, log, free⟩ contents

theorem Tallied.mono {more : Nat} (tallied : store.Tallied spare contents) (enough : spare ≤ more) :
    store.Tallied more contents :=
  ⟨tallied.toInCharge, tallied.backed.mono enough⟩

theorem Tallied.inUse (tallied : store.Tallied spare contents) : TalliedInUse store.partition spare contents :=
  ⟨store.active, store.free, tallied⟩

theorem TalliedInUse.mono {partition : Partition} {more : Nat} (tallied : TalliedInUse partition spare contents)
    (enough : spare ≤ more) : TalliedInUse partition more contents := by
  obtain ⟨log, free, tallied⟩ := tallied
  exact ⟨log, free, tallied.mono enough⟩

theorem Tallied.congr (tallied : store.Tallied spare contents)
    (same : current store.active = contents store.active) (used : current.inUse = some store.active) :
    store.Tallied spare current := by
  refine ⟨tallied.toInCharge.congr same used, ?_⟩
  have tape : store.tape current = store.tape contents := by
    change Tape.mk _ (current store.active) _ = _
    rw [same]
    rfl
  rw [tape]
  exact tallied.backed

theorem records_void {index : Nat} {record : Record} (late : 1 ≤ index) (inside : index < store.free)
    (found : (store.tape contents).recordAt index = some record) :
    ∃ before, (store.tape contents).records [] 1 =
        before ++ record :: (store.tape contents).records [] (index + 1) ∧
      (before ++ (store.tape contents).records [] (index + 1)).Sublist
        ((store.tape (contents.put store.active index [store.partition.polarity.voidWord])).records [] 1) ∧
      Record.entries ((store.tape (contents.put store.active index [store.partition.polarity.voidWord])).records [] 1) =
        Record.entries (before ++ (store.tape contents).records [] (index + 1)) := by
  have apart (position : Nat) (differs : position ≠ index) :
      contents.put store.active index [store.partition.polarity.voidWord] store.active position =
        contents store.active position :=
    Contents.put_apart _ _ (fun same => differs same.2)
  exact Tape.records_void late inside found (by rfl) (by rfl) apart
    (Contents.kind_voided contents store.active index store.partition.polarity)

theorem Tallied.unbind (tallied : store.Tallied spare contents) {id : FileId} {index : Nat}
    (located : (store.tape contents).Locates ufid 1 [] (.found id index)) :
    store.Tallied spare (contents.put store.active index [store.partition.polarity.voidWord]) := by
  obtain ⟨late, inside, bound, -⟩ := located
  obtain ⟨before, split, more, same⟩ := records_void late inside (Tape.recordAt_entry bound)
  have backed := tallied.backed
  rw [split] at backed
  exact ⟨tallied.toInCharge.void late inside, backed.remove.widen more same⟩

/-- A reader makes no chain void that is needed. -/
theorem Tallied.supersede (tallied : store.Tallied spare contents) {id : FileId} {start : Nat} (positive : 1 ≤ start)
    {older newer : Chain} (behind : (store.tape contents).Holds id start older)
    (ahead : (store.tape contents).Holds id start newer) (order : older.start < newer.start) :
    store.Tallied spare (contents.put store.active older.start [store.partition.polarity.voidWord]) := by
  have late : 1 ≤ older.start := Nat.le_trans positive behind.from_start
  obtain ⟨before, split, more, same⟩ := records_void late behind.inside behind.record
  have later := Tape.latest_isSome (show older.start + 1 ≤ newer.start by omega) ahead.inside List.not_mem_nil
    ahead.record
  have backed := tallied.backed
  rw [split] at backed
  exact ⟨tallied.toInCharge.void late behind.inside, (backed.supersede later).widen more same⟩

theorem Tallied.readable (tallied : store.Tallied spare contents) :
    store.Readable contents ((store.tape contents).records [] 1) (store.Tallied spare) where
  positive := tallied.positive
  room := tallied.room
  listed := rfl
  now := tallied
  pruned := by
    intro id start current older newer positive tallied' same behind ahead before
    have behind' : (store.tape current).Holds id start older := behind.same (by rfl) (by rfl) same
    have ahead' : (store.tape current).Holds id start newer :=
      ahead.same (by rfl) (by rfl) (fun position late => same position (by omega))
    exact tallied'.supersede positive behind' ahead' before

/-- Where a log grows by blocks of which at most the first is an entry, its records come first, with no other entry. -/
theorem Tallied.grow (tallied : store.Tallied spare contents) {free : Nat} (grown : store.free ≤ free)
    (same : ∀ position < store.free, current store.active position = contents store.active position)
    (unbound : ∀ index, store.free < index →
      (current store.active index).binding? store.partition.polarity = none) :
    ∃ early late, Tape.records ⟨store.partition.polarity, current store.active, free⟩ [] 1 = early ++ late ∧
      Record.BackedBut spare early ∧ Record.entries early = Record.entries ((store.tape contents).records [] 1) ∧
      (Record.entries late).length ≤ 1 := by
  obtain ⟨early, split, more, entries⟩ :=
    @Tape.records_grow (store.tape contents) ⟨store.partition.polarity, current store.active, free⟩ rfl tallied.positive
      grown same
  exact ⟨early, _, split, tallied.backed.widen more entries, entries, Tape.entries_one unbound⟩

theorem Tallied.lay (tallied : store.Tallied spare contents) (small : data.length ≤ maxFileSize) {blocks : List Block}
    (added : store.additions contents ufid data = some blocks)
    (room : store.free + blocks.length ≤ store.partition.blocks) :
    (store.grown blocks.length).Tallied spare (contents.lay store.active store.free blocks) := by
  refine ⟨tallied.toInCharge.lay (Record.additions_written added) room, ?_⟩
  obtain ⟨chain, wrote⟩ := lastWrote_of_additions tallied.positive small added
  have present : (Record.files (((store.grown blocks.length).tape
      (contents.lay store.active store.free blocks)).records [] 1) ufid).isSome = true := by
    rw [wrote.files]
    rfl
  have unbound (index : Nat) (late : store.free < index) :
      (contents.lay store.active store.free blocks store.active index).binding? store.partition.polarity = none := by
    cases blocks with
    | nil => exact (additions_ne_nil small added).elim
    | cons first rest =>
        exact (Appending.finish store contents (first :: rest)).unbound tallied.clear
          (Record.additions_further added) late
  obtain ⟨early, late, split, backed, entries, one⟩ := tallied.grow (Nat.le_add_right _ blocks.length)
    (fun position before => Contents.lay_apart _ _ (.inr (.inl before))) unbound
  have listed : ((store.grown blocks.length).tape (contents.lay store.active store.free blocks)).records [] 1 =
      early ++ late := split
  rw [listed] at present ⊢
  rw [additions, Record.additions] at added
  cases owner : Record.owner? ((store.tape contents).records [] 1) ufid with
  | none =>
      -- The entry is new, and so is the file.
      refine backed.append_file one (Record.files_absent ?_) present
      rw [entries]
      exact Record.owner?_none owner
  | some id =>
      -- The file has an entry, so a chain is all that was appended.
      rw [owner, Option.some.injEq] at added
      have silent : blocks.filterMap (Block.binding? store.partition.polarity) = [] := by
        rw [List.filterMap_eq_nil_iff]
        exact fun block member => Block.binding?_none (Chain.kind_fresh (added ▸ member))
      have all : Record.entries (early ++ late) = Record.entries early ++ [] := by
        rw [← listed, entries, ← silent]
        exact Tape.entries_lay tallied.positive blocks
      rw [Record.entries_append, List.append_cancel_left_eq] at all
      have whole := backed.append late
      rw [all] at whole
      exact whole

/-- A file whose appending was interrupted leaves at most one entry over. -/
theorem Tallied.appending (tallied : store.Tallied spare contents) (small : data.length ≤ maxFileSize)
    {blocks : List Block} (added : store.additions contents ufid data = some blocks)
    (room : store.free + blocks.length ≤ store.partition.blocks)
    (appending : Appending store contents blocks torn left current) :
    TalliedInUse store.partition (spare + 1) current := by
  have positive := tallied.positive
  have used := (appending.stays positive).inUse.trans tallied.used
  have unbound (index : Nat) (late : store.free < index) :
      (current store.active index).binding? store.partition.polarity = none := by
    cases blocks with
    | nil => exact (additions_ne_nil small added).elim
    | cons first rest => exact appending.unbound tallied.clear (Record.additions_further added) late
  obtain ⟨before, after, rfl, reached, same, clear, last⟩ :=
    appending.parts tallied.clear (Record.additions_written added)
  rw [List.length_append, ← Nat.add_assoc] at room
  have ends := laid_ends positive tallied.ends
    (fun block member => Record.additions_written added block (List.mem_append_left _ member)) same
  have knows := knows_ended (Nat.le_add_right_of_le positive) (Tape.ended_le room last) clear ends
  -- The block that was torn is in use from now on, unless nothing of it was written.
  have grown : store.free ≤
      Tape.ended store.partition.polarity (current store.active) (store.free + before.length) := by
    rw [Tape.ended]
    split <;> omega
  have old (position : Nat) (early : position < store.free) :
      current store.active position = contents store.active position := by
    rw [same position (by omega)]
    exact Contents.lay_apart _ _ (.inr (.inl early))
  obtain ⟨early, late, split, backed, -, one⟩ := tallied.grow grown old unbound
  have counted := (backed.append late).mono (Nat.add_le_add_left one spare)
  rw [← split] at counted
  exact ⟨_, _, ⟨knows, used⟩, counted⟩

theorem Placed.tallied (tallied : store.Tallied spare contents) (small : data.length ≤ maxFileSize)
    {value : Except StoreError Unit} (placed : store.Placed contents ufid data value left current) :
    left.partition = store.partition ∧ left.Tallied spare current := by
  cases placed with
  | full added => exact ⟨rfl, tallied⟩
  | fits added room => exact ⟨rfl, tallied.lay small added room⟩
  | tight added short => exact ⟨rfl, tallied⟩

theorem Rotated.tallied (tallied : store.Tallied spare contents)
    (turn : store.Rotated ((store.tape contents).records [] 1) left current) : left.Tallied spare current := by
  refine ⟨turn.inCharge, ?_⟩
  rw [turn.settled.listed]
  exact tallied.backed.live

/-- However a save ends, it leaves no entry over. -/
theorem Saved.tallied (tallied : store.Tallied spare contents) {value : Except StoreError Unit}
    (saved : store.Saved contents ufid data value left current) :
    left.partition = store.partition ∧ left.Tallied spare current := by
  cases saved with
  | large size => exact ⟨rfl, tallied⟩
  | atOnce small placed enough => exact placed.tallied tallied small
  | turned small added short turn placed =>
      obtain ⟨same, tallied'⟩ := placed.tallied (turn.tallied tallied) small
      exact ⟨same.trans turn.partition, tallied'⟩

/-- Wherever a rotation is interrupted, no more entries are left over in the log in use. -/
theorem Rotating.tallied (tallied : store.Tallied spare contents)
    (rotating : store.Rotating contents ((store.tape contents).records [] 1) current) :
    TalliedInUse store.partition spare current := by
  rcases rotating.inUse tallied.used with ⟨still, same⟩ | ⟨turned, free, room, settled⟩
  · exact (tallied.congr same still).inUse
  · refine ⟨store.active.other, free, ⟨⟨settled.positive, room, settled.clear, settled.ends⟩, turned⟩, ?_⟩
    have backed := tallied.backed.live
    rw [← settled.listed] at backed
    exact backed

/-- Wherever a save is interrupted, it leaves at most one entry over in the log in use. -/
theorem Saving.tallied (tallied : store.Tallied spare contents)
    (saving : store.Saving contents ufid data torn left current) :
    TalliedInUse store.partition (spare + 1) current := by
  cases saving with
  | placing small blocks added room appending => exact tallied.appending small added room appending
  | turning torn rotating => exact (rotating.tallied tallied).mono (Nat.le_succ spare)
  | turned turn =>
      have inUse := (turn.tallied tallied).inUse.mono (Nat.le_succ spare)
      rw [turn.partition] at inUse
      exact inUse
  | placingTurned small turn blocks added room appending =>
      have inUse := (turn.tallied tallied).appending small added room appending
      rw [turn.partition] at inUse
      exact inUse

end Store

end TwinLog
