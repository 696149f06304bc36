import TwinLog.Proofs.BareEntries

set_option autoImplicit false

namespace TwinLog

namespace Record

variable {polarity : Polarity} {records : List Record} {ufid : Ufid} {data : List UInt8}

theorem held_of_additions_none (none : additions polarity records ufid data = none) (id : FileId) :
    id ∈ (entries records).map Prod.fst := by
  rw [additions] at none
  cases owner : owner? records ufid with
  | some id =>
      rw [owner] at none
      cases none
  | none =>
      rw [owner, Option.map_eq_none_iff] at none
      exact FileId.lowestUnused_eq_none_iff.mp none id

/-- Where every id is that of an entry, each is left over or that of a file with content, one for each id. -/
theorem exists_readable_leftOver (held : ∀ id, id ∈ (entries records).map Prod.fst) :
    ∃ (names : List Ufid) (ids : List FileId), names.Nodup ∧ (∀ name ∈ names, (files records name).isSome = true) ∧
      ids.Nodup ∧ (∀ id, id ∈ ids ↔ LeftOver records id) ∧ names.length + ids.length = FileId.count := by
  classical
  have backed (id : FileId) (used : ¬ LeftOver records id) :
      ∃ ufid, owner? records ufid = some id ∧ (files records ufid).isSome = true := by
    by_contra without
    apply used
    refine ⟨held id, ?_⟩
    intro ufid owned
    rw [← Option.not_isSome_iff_eq_none]
    exact fun there => without ⟨ufid, owned, there⟩
  choose! name owned there using backed
  obtain ⟨every, nodup, length, complete⟩ :
      ∃ every : List FileId, every.Nodup ∧ every.length = FileId.count ∧ ∀ id, id ∈ every :=
    ⟨List.finRange FileId.count, List.nodup_finRange _, List.length_finRange, List.mem_finRange⟩
  have used (id : FileId) (member : id ∈ every.filter fun id => !decide (LeftOver records id)) :
      ¬ LeftOver records id := by
    simpa [complete id] using member
  refine ⟨(every.filter fun id => !decide (LeftOver records id)).map name,
    every.filter fun id => decide (LeftOver records id), ?_, ?_, nodup.filter _, ?_, ?_⟩
  · apply (nodup.filter _).map_on
    intro first inside second inside' same
    have ids := owned first (used first inside)
    rw [same, owned second (used second inside'), Option.some.injEq] at ids
    exact ids.symm
  · rw [List.forall_mem_map]
    intro id member
    exact there id (used id member)
  · intro id
    rw [List.mem_filter, decide_eq_true_iff, and_iff_right (complete id)]
  · have whole := List.length_eq_length_filter_add (l := every) fun id => decide (LeftOver records id)
    rw [List.length_map, ← length, whole, Nat.add_comm]

theorem leftOver_length_lt {id : FileId} (owned : owner? records ufid = some id)
    (there : (files records ufid).isSome = true) {ids : List FileId} (distinct : ids.Nodup)
    (each : ∀ id ∈ ids, LeftOver records id) : ids.length < FileId.count := by
  have new : id ∉ ids := by
    intro member
    rw [(each id member).2 ufid owned] at there
    cases there
  have all : id :: ids ⊆ List.finRange FileId.count := fun other _ => List.mem_finRange other
  have short := (List.nodup_cons.mpr ⟨new, distinct⟩).length_le_of_subset all
  exact Nat.lt_of_lt_of_eq short List.length_finRange

end Record

namespace Store

variable {store left : Store} {contents current : Contents} {ufid : Ufid} {data : List UInt8}

theorem Placed.held {value : Except StoreError Unit} (placed : store.Placed contents ufid data value left current)
    (refused : value = .error .noFileIds) (id : FileId) :
    id ∈ (Record.entries ((store.tape contents).records [] 1)).map Prod.fst := by
  cases placed with
  | full added => exact Record.held_of_additions_none added id
  | fits added room => cases refused
  | tight added short => cases refused

/-- A save that finds no id finds an entry of each, also if it looks for one after a rotation. -/
theorem Saved.held {value : Except StoreError Unit} (saved : store.Saved contents ufid data value left current)
    (refused : value = .error .noFileIds) (id : FileId) :
    id ∈ (Record.entries ((store.tape contents).records [] 1)).map Prod.fst := by
  cases saved with
  | large size => cases refused
  | atOnce small placed enough => exact placed.held refused id
  | turned small added short turn placed =>
      have kept := placed.held refused id
      rw [turn.settled.listed] at kept
      exact ((Record.entries_live _).map Prod.fst).subset kept

theorem Saved.noFileIds {value : Except StoreError Unit} (saved : store.Saved contents ufid data value left current)
    (small : data.length ≤ maxFileSize) (none : store.additions contents ufid data = none) :
    value = .error .noFileIds := by
  cases saved with
  | large size => exact absurd size (Nat.not_lt.mpr small)
  | atOnce _ placed _ =>
      cases placed with
      | full added => rfl
      | fits added room =>
          rw [none] at added
          cases added
      | tight added short =>
          rw [none] at added
          cases added
  | turned _ added short turn placed =>
      rw [none] at added
      cases added

theorem Saved.appended {value : Except StoreError Unit} (saved : store.Saved contents ufid data value left current)
    (small : data.length ≤ maxFileSize) {blocks : List Block} (added : store.additions contents ufid data = some blocks)
    (room : store.free + blocks.length ≤ store.partition.blocks) :
    value = .ok () ∧ left = store.grown blocks.length ∧ current = contents.lay store.active store.free blocks := by
  cases saved with
  | large size => exact absurd size (Nat.not_lt.mpr small)
  | atOnce _ placed enough =>
      cases placed with
      | full other =>
          rw [added] at other
          cases other
      | fits other room =>
          rw [added] at other
          cases other
          exact ⟨rfl, rfl, rfl⟩
      | tight other short => exact absurd rfl enough
  | turned _ other short turn placed =>
      rw [added] at other
      cases other
      omega

end Store

namespace Session

variable {μ : Type} [Medium μ] [LawfulMedium μ] {store : Store} {medium : μ} {ufid : Ufid} {data : List UInt8}

/-- A store in charge whose save finds no id has an entry of each in its log. -/
theorem held_of_noFileIds (fits : store.partition.Fits medium)
    (charge : store.InCharge (store.partition.contents medium))
    (refused : (perform ⟨medium, some store⟩ (.save ufid data)).1 = .ok (.failed .noFileIds)) (id : FileId) :
    id ∈ (Record.entries ((store.tape (store.partition.contents medium)).records [] 1)).map Prod.fst := by
  obtain ⟨left, after, saved⟩ := saved_of_refused fits charge refused
  exact saved.held rfl id

theorem noFileIds_of_additions (fits : store.partition.Fits medium)
    (charge : store.InCharge (store.partition.contents medium)) (small : data.length ≤ maxFileSize)
    (none : store.additions (store.partition.contents medium) ufid data = none) :
    (perform ⟨medium, some store⟩ (.save ufid data)).1 = .ok (.failed .noFileIds) := by
  rcases save_inCharge fits charge ufid data with ⟨⟨-, blocks, added, -⟩, -⟩ | ⟨value, left, after, saved, ended⟩
  · rw [none] at added
    cases added
  · rw [ended, saved.noFileIds small none]
    rfl

theorem noFileIds_of_inOrder {records : List Record} (fits : store.partition.Fits medium)
    (charge : store.InCharge (store.partition.contents medium))
    (inOrder : store.InOrder [] (store.partition.contents medium) records)
    (full : (Record.names records).length = FileId.count) (new : ufid ∉ Record.names records)
    (small : data.length ≤ maxFileSize) :
    (perform ⟨medium, some store⟩ (.save ufid data)).1 = .ok (.failed .noFileIds) := by
  apply noFileIds_of_additions fits charge small
  rw [Store.additions, inOrder.listed (Tape.harmless_nil _)]
  exact (Record.additions_none inOrder.unique).mpr ⟨new, full⟩

theorem save_of_owner {records : List Record} {id : FileId} (fits : store.partition.Fits medium)
    (charge : store.InCharge (store.partition.contents medium))
    (inOrder : store.InOrder [] (store.partition.contents medium) records)
    (owned : Record.owner? records ufid = some id) (small : data.length ≤ maxFileSize)
    (room : store.free + blocksNeeded data.length ≤ store.partition.blocks) :
    ∃ after, perform ⟨medium, some store⟩ (.save ufid data) =
        (.ok .done, ⟨after, some (store.grown (blocksNeeded data.length))⟩) ∧ store.partition.Fits after ∧
      (store.grown (blocksNeeded data.length)).InCharge (store.partition.contents after) ∧
      (store.grown (blocksNeeded data.length)).InOrder [] (store.partition.contents after)
        (records ++ [.content id data]) := by
  have length := Chain.length_fresh store.partition.polarity id data
  have added : store.additions (store.partition.contents medium) ufid data =
      some (Chain.fresh store.partition.polarity id data) := by
    rw [Store.additions, inOrder.listed (Tape.harmless_nil _), Record.additions, owned]
  have achieved : store.partition.Achieves
      (store.Saved (store.partition.contents medium) ufid data) (fun _ _ _ => True) (store.save ufid data) store
      (store.partition.contents medium) :=
    Partition.achieves_save_inOrder inOrder (Tape.harmless_nil _) (fun _ _ _ _ => trivial) (fun _ _ _ saved => saved)
  obtain ⟨value, left, after, fits', saved, changed⟩ :=
    @change_of_achieves μ _ _ store.partition ⟨medium, some store⟩ store _ _ _ _ fits achieved (fun () => Answer.done)
  have charge' := (saved.inCharge charge).2
  rw [← length] at room
  obtain ⟨rfl, rfl, laid⟩ := saved.appended small added room
  have settled : ((store.grown (Chain.fresh store.partition.polarity id data).length).tape
      ((store.partition.contents medium).lay store.active store.free
        (Chain.fresh store.partition.polarity id data))).Settled [] (records ++ [.content id data]) :=
    inOrder.settled.toKeeps.lay_fresh (fun position late => inOrder.settled.clear position (Nat.le_of_lt late)) id small
  rw [← laid] at settled
  rw [← length]
  exact ⟨after, changed, fits', charge', settled, room, inOrder.unique.append_content id data⟩

end Session

namespace Situation

section Refusals

variable {μ : Type} [Medium μ] [LawfulMedium μ] {partition : Partition} {situation : Situation μ} {names : List Ufid}
  {ufid : Ufid} {data : List UInt8}

/-- Where a save finds no id, each id is that of a file that can be read, or left over. -/
theorem Tallied.noFileIds {spare : Nat} (tallied : situation.Tallied partition spare)
    (refused : (situation.session.perform (.save ufid data)).1 = .ok (.failed .noFileIds)) :
    ∃ store, situation.session.store = some store ∧ ∃ (names : List Ufid) (ids : List FileId),
      names.Nodup ∧ (∀ name ∈ names, situation.session.CanRead name) ∧
      ids.Nodup ∧ (∀ id, id ∈ ids ↔ Record.LeftOver ((store.tape (situation.contents partition)).records [] 1) id) ∧
      names.length + ids.length = FileId.count ∧ ids.length ≤ spare := by
  obtain ⟨⟨medium, given⟩, scars⟩ := situation
  cases given with
  | none => cases refused
  | some store =>
      obtain ⟨rfl, fits, tallied⟩ := tallied.mounted rfl
      obtain ⟨names, ids, distinct, present, apart, leftOver, all⟩ :=
        Record.exists_readable_leftOver (Session.held_of_noFileIds fits tallied.toInCharge refused)
      refine ⟨store, rfl, names, ids, distinct, ?_, apart, leftOver, all,
        tallied.backed.leftOver_length apart fun id member => (leftOver id).mp member⟩
      intro name member
      rw [Session.canRead_of_readable fits tallied.readable]
      exact present name member

theorem Bare.noFileIds (bare : situation.Bare partition names) (full : names.length = FileId.count) (new : ufid ∉ names)
    (small : data.length ≤ maxFileSize) :
    (situation.session.perform (.save ufid data)).1 = .ok (.failed .noFileIds) := by
  obtain ⟨⟨medium, given⟩, scars⟩ := situation
  obtain ⟨fits, log, free, rfl, bare⟩ := bare
  exact @Session.noFileIds_of_additions μ _ _ ⟨partition, log, free⟩ _ _ _ fits bare.toInCharge small
    (bare.full full new data)

/-- A save finds no id only where each is that of a file that can be read, or of an entry that is left over. In every
run that starts on a medium with no marker, in which any request may be cut short after any part of a write, and
whatever of what was torn passes its check: where a save is told that there is no id, there are different files that can
be read, as many as there are ids that are not left over; and no more ids are left over than saves of the run were
interrupted. Where no block whose write was torn ever passed for an entry, the ids that are left over are those of files
that have an entry and no content. -/
theorem run_noFileIds {medium : μ} {geometry : Geometry}
    (fits : Partition.Fits ⟨Medium.polarity medium, geometry⟩ medium)
    (unmarked : ∀ log, (Partition.contents ⟨Medium.polarity medium, geometry⟩ medium).marked log = false)
    {earlier : List (Event × Situation μ)} {event : Event}
    (run : Run ⟨Medium.polarity medium, geometry⟩ ⟨⟨medium, none⟩, []⟩ (earlier ++ [(event, situation)]))
    (refused : (situation.session.perform (.save ufid data)).1 = .ok (.failed .noFileIds)) :
    ∃ store, situation.session.store = some store ∧ ∃ (names : List Ufid) (ids : List FileId),
      names.Nodup ∧ (∀ name ∈ names, situation.session.CanRead name) ∧
      ids.Nodup ∧ (∀ id, id ∈ ids ↔ Record.LeftOver
        ((store.tape (situation.contents ⟨Medium.polarity medium, geometry⟩)).records [] 1) id) ∧
      names.length + ids.length = FileId.count ∧
      ids.length ≤ interruptedSaves (earlier ++ [(event, situation)]) ∧
      ((∀ step ∈ earlier ++ [(event, situation)], step.2.Silent ⟨Medium.polarity medium, geometry⟩) →
        ∀ id ∈ ids, ∃ ufid, (id, ufid) ∈ Record.entries
            ((store.tape (situation.contents ⟨Medium.polarity medium, geometry⟩)).records [] 1) ∧
          Record.Orphan ((store.tape (situation.contents ⟨Medium.polarity medium, geometry⟩)).records [] 1) ufid) := by
  obtain ⟨store, mounted, names, ids, distinct, present, apart, leftOver, all, few⟩ :=
    (tallied_of_run fits unmarked run).noFileIds refused
  refine ⟨store, mounted, names, ids, distinct, present, apart, leftOver, all, few, ?_⟩
  intro silent id member
  have start : Named ⟨Medium.polarity medium, geometry⟩ (Situation.mk ⟨medium, none⟩ []) :=
    .unused fits (Contents.inUse_unmarked unmarked) rfl
  have named := start.run run silent (event, situation) (List.mem_append_right _ List.mem_cons_self)
  obtain ⟨-, -, unique⟩ := named.mounted mounted
  exact (Record.leftOver_iff_orphan unique.unique).mp ((leftOver id).mp member)

end Refusals

section AllLeftOver

def spacious : Simulated :=
  ⟨.ones, 128, Array.replicate 2048 Simulated.garbage⟩

theorem spacious_fits : Partition.Fits ⟨.ones, ⟨0, 4096, 4096⟩⟩ spacious := by
  refine Partition.Fits.simulated rfl rfl rfl ?_
  intro log
  cases log <;> decide +kernel

theorem spacious_unmarked (log : Log) :
    (Partition.contents ⟨.ones, ⟨0, 4096, 4096⟩⟩ spacious).marked log = false := by
  cases log <;> decide +kernel

def numbered : List Ufid :=
  (List.finRange FileId.count).map fun id => Vector.replicate 12 (UInt8.ofNat id.val)

theorem nodup_numbered : numbered.Nodup := by
  refine (List.nodup_finRange FileId.count).map ?_
  intro first second same
  have heads := congrArg (fun ufid : Ufid => ufid[0].toNat) same
  simp only [Vector.getElem_replicate, UInt8.toNat_ofNat'] at heads
  have small := first.isLt
  have small' := second.isLt
  rw [Nat.mod_eq_of_lt (Nat.lt_trans small (by decide)), Nat.mod_eq_of_lt (Nat.lt_trans small' (by decide))] at heads
  exact Fin.ext heads

/-- A run in which as many first saves are interrupted behind their entries as there are ids. -/
theorem exists_numbered_run :
    ∃ earlier event situation,
      Run ⟨.ones, ⟨0, 4096, 4096⟩⟩ ⟨⟨spacious, none⟩, []⟩ (earlier ++ [(event, situation)]) ∧
      situation.Bare ⟨.ones, ⟨0, 4096, 4096⟩⟩ numbered :=
  exists_bare_run spacious_fits spacious_unmarked nodup_numbered (by decide) (by decide)

/-- After such a run a save of one more file finds no id, although no file is there. -/
theorem noFileIds_noFiles :
    ∃ earlier event situation,
      Run ⟨.ones, ⟨0, 4096, 4096⟩⟩ ⟨⟨spacious, none⟩, []⟩ (earlier ++ [(event, situation)]) ∧
      (situation.session.perform (.save (Vector.replicate 12 64) [1])).1 = .ok (.failed .noFileIds) ∧
      ∀ ufid, (situation.session.perform (.contains ufid)).1 = .ok (.contains false) ∧
        ¬ situation.session.CanRead ufid := by
  obtain ⟨earlier, event, situation, run, bare⟩ := exists_numbered_run
  refine ⟨earlier, event, situation, run, ?_, bare.absent⟩
  exact bare.noFileIds (by decide) (by decide +kernel) (by decide)

/-- A run in which, after that, one of these saves is made again. It ends well, and then that file alone is there. -/
theorem exists_numbered_retry :
    ∃ earlier event situation log free id records,
      Run ⟨.ones, ⟨0, 4096, 4096⟩⟩ ⟨⟨spacious, none⟩, []⟩ (earlier ++ [(event, situation)]) ∧
      Partition.Fits ⟨.ones, ⟨0, 4096, 4096⟩⟩ situation.session.medium ∧
      situation.session.store = some ⟨⟨.ones, ⟨0, 4096, 4096⟩⟩, log, free⟩ ∧
      Store.InCharge ⟨⟨.ones, ⟨0, 4096, 4096⟩⟩, log, free⟩ (situation.contents ⟨.ones, ⟨0, 4096, 4096⟩⟩) ∧
      Store.InOrder ⟨⟨.ones, ⟨0, 4096, 4096⟩⟩, log, free⟩ [] (situation.contents ⟨.ones, ⟨0, 4096, 4096⟩⟩) records ∧
      Record.names records = numbered ∧ Record.owner? records (Vector.replicate 12 0) = some id ∧
      Record.files records = Files.empty.set (Vector.replicate 12 0) [1] := by
  obtain ⟨earlier, event, ⟨⟨medium, given⟩, scars⟩, run, bare⟩ := exists_numbered_run
  obtain ⟨fits, log, free, rfl, bare⟩ := bare
  obtain ⟨records, inOrder, named, none⟩ := bare.listed
  obtain ⟨id, owned⟩ : ∃ id, Record.owner? records (Vector.replicate 12 0) = some id := by
    apply Option.ne_none_iff_exists'.mp
    intro absent
    exact Record.owner?_none absent (by rw [← Record.names, named]; decide +kernel)
  have used : free = 1 + numbered.length := bare.free
  have room : 1 + numbered.length + blocksNeeded 1 ≤ Partition.blocks ⟨.ones, ⟨0, 4096, 4096⟩⟩ := by decide
  rw [← used] at room
  obtain ⟨after, performed, fits', charge, inOrder'⟩ :=
    @Session.save_of_owner Simulated _ _ ⟨⟨.ones, ⟨0, 4096, 4096⟩⟩, log, free⟩ medium _ [1] _ _ fits bare.toInCharge
      inOrder owned (by decide) room
  refine ⟨_, _, _, log, _, id, _, run.concat (.answered (by rfl) performed), fits', rfl, charge, inOrder', ?_, ?_, ?_⟩
  · rw [← named, Record.names, Record.entries_append, Record.entries, Record.entries, List.append_nil, Record.names]
  · rw [Record.owner?, Record.entries_append, Record.entries, Record.entries, List.append_nil]
    exact owned
  · rw [Record.files_append_content inOrder.unique (Record.owner?_some owned) [1]]
    exact congrArg (Files.set · (Vector.replicate 12 0) [1]) (funext none)

/-- One more file is refused then: one id is that of the file, all others are left over. -/
theorem run_noFileIds_numbered :
    ∃ earlier event situation store, ∃ ids : List FileId,
      Run ⟨.ones, ⟨0, 4096, 4096⟩⟩ ⟨⟨spacious, none⟩, []⟩ (earlier ++ [(event, situation)]) ∧
      (situation.session.perform (.save (Vector.replicate 12 64) [1])).1 = .ok (.failed .noFileIds) ∧
      situation.session.store = some store ∧ situation.session.CanRead (Vector.replicate 12 0) ∧
      ids.Nodup ∧
      (∀ id, id ∈ ids ↔ Record.LeftOver ((store.tape (situation.contents ⟨.ones, ⟨0, 4096, 4096⟩⟩)).records [] 1) id) ∧
      ids.length = 63 ∧ 63 ≤ interruptedSaves (earlier ++ [(event, situation)]) := by
  obtain ⟨earlier, event, ⟨⟨medium, given⟩, scars⟩, log, free, id, records, run, fits, mounted, charge, inOrder, named,
    owned, files⟩ := exists_numbered_retry
  obtain rfl : given = _ := mounted
  have refused := @Session.noFileIds_of_inOrder Simulated _ _ ⟨⟨.ones, ⟨0, 4096, 4096⟩⟩, log, free⟩ medium
    (Vector.replicate 12 64) [1] _ fits charge inOrder (by rw [named]; decide) (by rw [named]; decide +kernel) (by decide)
  have readable (name : Ufid) : Session.CanRead ⟨medium, some ⟨⟨.ones, ⟨0, 4096, 4096⟩⟩, log, free⟩⟩ name ↔
      name = Vector.replicate 12 0 := by
    have listed := inOrder.listed (Tape.harmless_nil _)
    refine (Session.canRead_of_readable fits charge.readable name).trans ?_
    rw [listed, files, Files.set]
    split <;> simp_all [Files.empty]
  obtain ⟨store, same, names, ids, distinct, present, apart, leftOver, all, few, -⟩ :=
    @run_noFileIds Simulated _ _ _ _ _ spacious ⟨0, 4096, 4096⟩ spacious_fits spacious_unmarked earlier event run refused
  obtain rfl : _ = store := Option.some.inj same
  have one : names.length ≤ [Vector.replicate 12 (0 : UInt8)].length :=
    distinct.length_le_of_subset fun name member => List.mem_singleton.mpr ((readable name).mp (present name member))
  have leftOver' : ∀ id ∈ ids, Record.LeftOver records id := by
    rw [← inOrder.listed (Tape.harmless_nil _)]
    exact fun id member => (leftOver id).mp member
  have spare := Record.leftOver_length_lt owned (by rw [files]; simp [Files.set]) apart leftOver'
  have count : FileId.count = 64 := rfl
  rw [List.length_singleton] at one
  have whole : ids.length = 63 := by omega
  exact ⟨earlier, event, _, _, ids, run, refused, rfl, (readable _).mpr rfl, apart, leftOver, whole, whole ▸ few⟩

end AllLeftOver

end Situation

end TwinLog
