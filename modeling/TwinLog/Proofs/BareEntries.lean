import TwinLog.Proofs.Capacity
import TwinLog.Proofs.InterruptedSaves

set_option autoImplicit false

namespace TwinLog

namespace Script

variable {σ α β μ : Type} [Medium μ] {script : Script σ α} {state left : σ} {medium after : μ} {torn : Bool}

theorem Interrupted.bind (stopped : script.Interrupted state medium torn left after) (next : α → Script σ β) :
    (script >>= next).Interrupted state medium torn left after := by
  induction stopped with
  | here script state medium => exact .here _ _ _
  | keep _ ih => exact .keep ih
  | read passed _ ih => exact .read passed ih
  | torn count short passed => exact .torn count short passed
  | write passed _ ih => exact .write passed ih
  | erase passed _ ih => exact .erase passed ih

theorem Interrupted.behind {next : α → Script σ β} {value : α} {between : σ} {passed : μ}
    (ran : script.run state medium = ⟨.ok value, between, passed⟩)
    (stopped : (next value).Interrupted between passed torn left after) :
    (script >>= next).Interrupted state medium torn left after := by
  induction script generalizing state medium with
  | done given =>
      cases ran
      exact stopped
  | stop reason => cases ran
  | keep kept rest ih => exact .keep (ih ran)
  | read address count rest ih =>
      simp only [run] at ran
      split at ran
      · rename_i delivered
        exact .read delivered (ih _ ran)
      · cases ran
  | write address words rest ih =>
      simp only [run] at ran
      split at ran
      · rename_i written
        exact .write written (ih ran)
      · cases ran
  | erase address count rest ih =>
      simp only [run] at ran
      split at ran
      · rename_i erased
        exact .erase erased (ih ran)
      · cases ran

end Script

namespace Store

variable {store : Store} {contents : Contents} {ufid : Ufid} {data : List UInt8} {names : List Ufid}
  {records : List Record}

/-- A save can be interrupted just behind the first block that it appends. -/
theorem save_interrupted {μ : Type} [Medium μ] [LawfulMedium μ] {medium : μ} (fits : store.partition.Fits medium)
    (knows : store.Knows (store.partition.contents medium)) (small : data.length ≤ maxFileSize) {first : Block}
    {rest : List Block} (added : store.additions (store.partition.contents medium) ufid data = some (first :: rest))
    (room : store.free + (rest.length + 1) ≤ store.partition.blocks) :
    ∃ after, (store.save ufid data).Interrupted store medium false (store.grown 1) after ∧
      store.partition.Fits after ∧
      store.partition.contents after = (store.partition.contents medium).lay store.active store.free [first] := by
  have grows : store.partition.Achieves
      (fun value left current => value = .ok (store.grown 1) ∧ left = store.grown 1 ∧
        current = (store.partition.contents medium).lay store.active store.free [first])
      (fun _ _ _ => True) (store.append first) store (store.partition.contents medium) := by
    apply Partition.achieves_grow (by omega) (Block.takes_of_blank (knows.clear store.free (Nat.le_refl _)) first)
      (fun _ _ _ _ => trivial)
    exact ⟨rfl, rfl, rfl⟩
  obtain ⟨after, grown, fits', laid⟩ := Partition.Achieves.ran fits grows
  have looked : (store.journal.lookup ufid).run store medium =
      ⟨.ok ((store.tape (store.partition.contents medium)).lookup ufid), store, medium⟩ :=
    Script.Observes.run (@Partition.observes_lookup Store _ store.journal ufid knows.room μ _ _ medium fits rfl) store
  have located := (store.tape (store.partition.contents medium)).locates_lookup ufid
  rw [additions_located located data] at added
  have enough : (first :: rest).length ≤ store.usage.free := by
    change rest.length + 1 ≤ store.partition.blocks - store.free
    omega
  refine ⟨after, ?_, fits', laid⟩
  rw [save, if_neg (Nat.not_lt.mpr small), place_eq store ufid small]
  apply Script.Interrupted.bind
  apply Script.Interrupted.behind looked
  simp only [added, if_pos enough]
  apply Script.Interrupted.bind
  exact Script.Interrupted.behind grown (.here _ _ _)

/-- Whether a store is in charge of a log in which certain files have entries, one each, and no content. -/
structure Bare (store : Store) (contents : Contents) (names : List Ufid) : Prop extends store.InCharge contents where
  free : store.free = 1 + names.length
  listed : ∃ records, store.InOrder [] contents records ∧ Record.names records = names ∧
    ∀ ufid, Record.files records ufid = none

theorem bare_empty {partition : Partition} (inOrder : Store.InOrder ⟨partition, .a, 1⟩ [] contents [])
    (used : contents.inUse = some .a) : Bare ⟨partition, .a, 1⟩ contents [] where
  toKnows := inOrder.knows
  used := used
  free := rfl
  listed := ⟨[], inOrder, rfl, fun _ => rfl⟩

/-- As long as there is an id, a save of one more file starts with an entry, and that entry alone is one more. -/
theorem Bare.next (bare : store.Bare contents names) (few : names.length < FileId.count) (new : ufid ∉ names)
    (room : store.free + 1 ≤ store.partition.blocks) (data : List UInt8) :
    ∃ id, store.additions contents ufid data = some (Block.entry store.partition.polarity id ufid ::
        Chain.fresh store.partition.polarity id data) ∧
      (store.grown 1).Bare (contents.lay store.active store.free [Block.entry store.partition.polarity id ufid])
        (names ++ [ufid]) := by
  obtain ⟨records, inOrder, rfl, none⟩ := bare.listed
  have listed := inOrder.listed (Tape.harmless_nil _)
  have absent : Record.owner? records ufid = Option.none := by
    cases owner : Record.owner? records ufid with
    | none => rfl
    | some id => exact absurd (List.mem_map.mpr ⟨_, Record.owner?_some owner, rfl⟩) new
  cases unused : FileId.lowestUnused ((Record.entries records).map Prod.fst) with
  | none =>
      have all := (FileId.lowestUnused_none inOrder.unique.ids).mp unused
      rw [List.length_map] at all
      rw [Record.names, List.length_map] at few
      omega
  | some id =>
      have bound := Block.binding?_entry store.partition.polarity id ufid
      have one := inOrder.settled.toKeeps.lay_entry
        (fun position late => inOrder.settled.clear position (Nat.le_of_lt late)) bound
      have written : ∀ block ∈ [Block.entry store.partition.polarity id ufid],
          block ≠ Block.blank store.partition.polarity :=
        List.forall_mem_singleton.mpr (Block.ne_blank_of_binding bound)
      refine ⟨id, by rw [additions, Record.additions, listed, absent, unused]; rfl, ?_⟩
      refine ⟨bare.toInCharge.lay written room, ?_, _, ⟨one, room, ?_⟩, ?_, ?_⟩
      · have free := bare.free
        rw [List.length_append, List.length_singleton]
        change store.free + 1 = _
        omega
      · exact inOrder.unique.append_entry (FileId.lowestUnused_not_mem unused) new
      · rw [Record.names, Record.entries_append, List.map_append]
        rfl
      · intro other
        rw [Record.files_append_entry]
        exact none other

/-- Where entries have taken all ids, nothing can be appended for one more file. -/
theorem Bare.full (bare : store.Bare contents names) (full : names.length = FileId.count) (new : ufid ∉ names)
    (data : List UInt8) : store.additions contents ufid data = none := by
  obtain ⟨records, inOrder, rfl, -⟩ := bare.listed
  rw [additions, inOrder.listed (Tape.harmless_nil _)]
  exact (Record.additions_none inOrder.unique).mpr ⟨new, full⟩

theorem Bare.none (bare : store.Bare contents names) (ufid : Ufid) :
    Record.files ((store.tape contents).records [] 1) ufid = none := by
  obtain ⟨records, inOrder, -, none⟩ := bare.listed
  rw [inOrder.listed (Tape.harmless_nil _)]
  exact none ufid

theorem Bare.named (bare : store.Bare contents names) :
    Record.names ((store.tape contents).records [] 1) = names := by
  obtain ⟨records, inOrder, named, -⟩ := bare.listed
  rw [inOrder.listed (Tape.harmless_nil _)]
  exact named

end Store

theorem Session.absent_of_bare {μ : Type} [Medium μ] [LawfulMedium μ] {store : Store} {medium : μ} {names : List Ufid}
    (fits : store.partition.Fits medium) (bare : store.Bare (store.partition.contents medium) names) (ufid : Ufid) :
    (perform ⟨medium, some store⟩ (.contains ufid)).1 = .ok (.contains false) ∧
      ¬ CanRead ⟨medium, some store⟩ ufid := by
  constructor
  · rw [contains_of_readable fits bare.toInCharge.readable, bare.none]
    rfl
  · rw [canRead_of_readable fits bare.toInCharge.readable, bare.none]
    exact Bool.false_ne_true

namespace Situation

variable {μ : Type} [Medium μ] [LawfulMedium μ] {partition : Partition} {situation between after : Situation μ}
  {names : List Ufid} {ufid : Ufid}

theorem Run.concat {earlier : List (Event × Situation μ)} {event further : Event}
    (run : situation.Run partition (earlier ++ [(event, between)]))
    (happens : between.Happens partition further after) :
    situation.Run partition (earlier ++ [(event, between)] ++ [(further, after)]) := by
  induction earlier generalizing situation with
  | nil =>
      cases run with
      | cons happened _ => exact .cons happened (.cons happens (.nil _))
  | cons step earlier ih =>
      cases run with
      | cons happened rest => exact .cons happened (ih rest)

/-- Whether a store is mounted on a log in which certain files have entries and no content. -/
structure Bare (partition : Partition) (names : List Ufid) (situation : Situation μ) : Prop where
  fits : partition.Fits situation.session.medium
  mounted : ∃ log free, situation.session.store = some ⟨partition, log, free⟩ ∧
    Store.Bare ⟨partition, log, free⟩ (situation.contents partition) names

theorem Bare.absent (bare : situation.Bare partition names) (ufid : Ufid) :
    (situation.session.perform (.contains ufid)).1 = .ok (.contains false) ∧ ¬ situation.session.CanRead ufid := by
  obtain ⟨⟨medium, given⟩, scars⟩ := situation
  obtain ⟨fits, log, free, rfl, bare⟩ := bare
  exact @Session.absent_of_bare μ _ _ ⟨partition, log, free⟩ medium names fits bare ufid

/-- A save of one more file that is interrupted behind the entry, and the medium mounted again. -/
theorem Bare.interrupt (bare : situation.Bare partition names) (few : names.length < FileId.count) (new : ufid ∉ names)
    (room : names.length + 3 ≤ partition.blocks) :
    ∃ between after, situation.Happens partition (.cut (.save ufid [1])) between ∧
      between.Happens partition (.answered (.mount partition.geometry) .done) after ∧
      after.Bare partition (names ++ [ufid]) := by
  obtain ⟨⟨medium, given⟩, scars⟩ := situation
  obtain ⟨fits, log, free, rfl, bare⟩ := bare
  have used : free = 1 + names.length := bare.free
  obtain ⟨id, added, bare'⟩ := bare.next few new (show free + 1 ≤ partition.blocks by omega) [1]
  have one : (Chain.fresh partition.polarity id [1]).length = 1 := Chain.length_fresh _ _ _
  obtain ⟨left, stopped, fits', laid⟩ := Store.save_interrupted fits bare.toKnows (by decide) added
    (show free + ((Chain.fresh partition.polarity id [1]).length + 1) ≤ partition.blocks by omega)
  have bare' : Store.Bare ⟨partition, log, free + 1⟩ (partition.contents left) (names ++ [ufid]) := by
    rw [laid]
    exact bare'
  obtain ⟨mounted, performed, fits'', same⟩ :=
    @Session.mount_used μ _ _ partition ⟨left, none⟩ fits' log (free + 1) bare'.used bare'.toKnows
  refine ⟨_, _, .cut rfl (.save rfl stopped), .answered rfl performed, fits'', log, free + 1, rfl, ?_⟩
  change Store.Bare _ (partition.contents mounted) _
  rw [same]
  exact bare'

/-- From a medium with no marker there is a run after which the files of any list without duplicates, as long as there
are ids for them and room for their entries, have entries but no content. -/
theorem exists_bare_run {medium : μ} (fits : partition.Fits medium)
    (unmarked : ∀ log, (partition.contents medium).marked log = false) (distinct : names.Nodup)
    (few : names.length ≤ FileId.count) (room : names.length + 2 ≤ partition.blocks) :
    ∃ earlier event situation, Run partition ⟨⟨medium, none⟩, []⟩ (earlier ++ [(event, situation)]) ∧
      situation.Bare partition names := by
  induction names using List.reverseRecOn with
  | nil =>
      obtain ⟨after, performed, fits', used, inOrder⟩ :=
        @Session.mount_fresh μ _ _ partition ⟨medium, none⟩ fits (Contents.inUse_unmarked unmarked)
      refine ⟨[], _, _, .cons (.answered (by rfl) performed) (.nil _), fits', .a, 1, rfl, ?_⟩
      exact Store.bare_empty inOrder used
  | append_singleton names ufid ih =>
      rw [List.length_append, List.length_singleton] at few room
      rw [← List.concat_eq_append, List.nodup_concat] at distinct
      obtain ⟨new, distinct⟩ := distinct
      obtain ⟨earlier, event, situation, run, bare⟩ := ih distinct (by omega) (by omega)
      obtain ⟨between, after, cut, mounted, bare'⟩ := bare.interrupt (by omega) new (by omega)
      exact ⟨_, _, after, (run.concat cut).concat mounted, bare'⟩

end Situation

end TwinLog
