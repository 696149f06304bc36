import TwinLog.Proofs.BareEntries

set_option autoImplicit false

namespace TwinLog

theorem Tape.Locates.named {tape : Tape} {ufid : Ufid} {id : FileId} {index : Nat}
    (located : tape.Locates ufid 1 [] (.found id index)) : ufid ∈ Record.names (tape.records [] 1) := by
  obtain ⟨-, -, -, before, split, -⟩ := located
  rw [Record.names, split, Record.entries_append, List.map_append]
  exact List.mem_append_right _ List.mem_cons_self

theorem Store.Bare.orphan_iff {store : Store} {contents : Contents} {names : List Ufid}
    (bare : store.Bare contents names) {ufid : Ufid} :
    Record.Orphan ((store.tape contents).records [] 1) ufid ↔ ufid ∈ names := by
  change ufid ∈ Record.names _ ∧ _ ↔ _
  rw [bare.named, bare.none, eq_self, and_true]

namespace Session

variable {μ : Type} [Medium μ] [LawfulMedium μ] {store : Store} {medium : μ}

theorem remove_of_records (fits : store.partition.Fits medium) (room : store.free ≤ store.partition.blocks)
    (ufid : Ufid) :
    (perform ⟨medium, some store⟩ (.remove ufid)).1 =
      .ok (if ufid ∈ Record.names ((store.tape (store.partition.contents medium)).records [] 1) then .done
        else .failed .notFound) := by
  have achieved : store.partition.Achieves
      (fun value _ _ => value =
        if ufid ∈ Record.names ((store.tape (store.partition.contents medium)).records [] 1) then .ok ()
        else .error .notFound)
      (fun _ _ _ => True) (store.remove ufid) store (store.partition.contents medium) := by
    apply Partition.achieves_unbind room (fun _ => trivial)
    · intro id index located
      exact ⟨trivial, (if_pos located.named).symm⟩
    · intro id located
      exact (if_neg located.1).symm
  obtain ⟨value, left, after, -, rfl, changed⟩ :=
    @change_of_achieves μ _ _ store.partition ⟨medium, some store⟩ store _ _ _ _ fits achieved (fun () => Answer.done)
  have performed : perform ⟨medium, some store⟩ (.remove ufid) = _ := changed
  rw [performed]
  split <;> rfl

/-- Whether removing a file and reading it agree on whether it is there. -/
structure RemovalAgrees (session : Session μ) (ufid : Ufid) : Prop where
  missing : (session.perform (.remove ufid)).1 = .ok (.failed .notFound) ↔
    (session.perform (.contains ufid)).1 = .ok (.contains false)
  done : (session.perform (.remove ufid)).1 = .ok .done ↔ session.CanRead ufid

/-- They disagree on the files that have an entry but no content. -/
theorem removalAgrees_iff (fits : store.partition.Fits medium)
    (charge : store.InCharge (store.partition.contents medium)) (ufid : Ufid) :
    RemovalAgrees ⟨medium, some store⟩ ufid ↔
      ¬ Record.Orphan ((store.tape (store.partition.contents medium)).records [] 1) ufid := by
  have removed := remove_of_records fits charge.room ufid
  have contained := contains_of_readable fits charge.readable ufid
  have readable := canRead_of_readable fits charge.readable ufid
  constructor
  · rintro agrees ⟨bound, none⟩
    rw [if_pos (show ufid ∈ Record.names _ from bound)] at removed
    have present := readable.mp (agrees.done.mp removed)
    rw [none] at present
    cases present
  · intro backed
    by_cases bound : ufid ∈ Record.names ((store.tape (store.partition.contents medium)).records [] 1)
    · have present : (Record.files ((store.tape (store.partition.contents medium)).records [] 1) ufid).isSome = true :=
        Option.isSome_iff_ne_none.mpr fun none => backed ⟨bound, none⟩
      rw [if_pos bound] at removed
      rw [present] at contained
      constructor
      · rw [removed, contained]
        simp
      · rw [removed]
        exact iff_of_true rfl (readable.mpr present)
    · rw [if_neg bound] at removed
      rw [Record.files_absent bound] at contained readable
      constructor
      · rw [removed, contained]
        exact iff_of_true rfl rfl
      · rw [removed, readable]
        simp

end Session

namespace Situation

variable {μ : Type} [Medium μ] [LawfulMedium μ] {partition : Partition} {situation : Situation μ}

/-- Where entries are left over, removal and reading disagree on no more files than those. -/
theorem Tallied.removal {spare : Nat} (tallied : situation.Tallied partition spare) {store : Store}
    (mounted : situation.session.store = some store) :
    (∀ ufid, situation.session.RemovalAgrees ufid ↔
        ¬ Record.Orphan ((store.tape (situation.contents partition)).records [] 1) ufid) ∧
      ∀ ufids : List Ufid, ufids.Nodup → (∀ ufid ∈ ufids, ¬ situation.session.RemovalAgrees ufid) →
        ufids.length ≤ spare := by
  obtain ⟨rfl, fits, tallied⟩ := tallied.mounted mounted
  obtain ⟨⟨medium, given⟩, scars⟩ := situation
  obtain rfl : given = some store := mounted
  have agrees := Session.removalAgrees_iff fits tallied.toInCharge
  refine ⟨agrees, fun ufids distinct each => ?_⟩
  apply tallied.backed.orphans distinct
  intro ufid member
  have disagrees := each ufid member
  rw [agrees ufid, not_not] at disagrees
  exact disagrees

/-- Removal and reading agree on all files but those that an interrupted save has left an entry of and no content. In
every run that starts on a medium with no marker, in which any request may be cut short after any part of a write, and
whatever of what was torn passes its check: of a file that the log in use has a sound entry of, and behind the first one
no sound chain with its id, the removal is answered as done although there is no such file. Of all others it is answered
that there is none if just this is answered to whether there is one, and as done if the file can be read. The files of
the first kind are no more than the saves of the run that were interrupted. -/
theorem run_removalAgrees {medium : μ} {geometry : Geometry}
    (fits : Partition.Fits ⟨Medium.polarity medium, geometry⟩ medium)
    (unmarked : ∀ log, (Partition.contents ⟨Medium.polarity medium, geometry⟩ medium).marked log = false)
    {earlier : List (Event × Situation μ)} {event : Event}
    (run : Run ⟨Medium.polarity medium, geometry⟩ ⟨⟨medium, none⟩, []⟩ (earlier ++ [(event, situation)]))
    {store : Store} (mounted : situation.session.store = some store) :
    (∀ ufid, situation.session.RemovalAgrees ufid ↔ ¬ Record.Orphan
        ((store.tape (situation.contents ⟨Medium.polarity medium, geometry⟩)).records [] 1) ufid) ∧
      ∀ ufids : List Ufid, ufids.Nodup → (∀ ufid ∈ ufids, ¬ situation.session.RemovalAgrees ufid) →
        ufids.length ≤ interruptedSaves (earlier ++ [(event, situation)]) :=
  (tallied_of_run fits unmarked run).removal mounted

theorem Bare.remove {names : List Ufid} (bare : situation.Bare partition names) {ufid : Ufid} (bound : ufid ∈ names) :
    (situation.session.perform (.remove ufid)).1 = .ok .done := by
  obtain ⟨⟨medium, given⟩, scars⟩ := situation
  obtain ⟨fits, log, free, rfl, bare⟩ := bare
  have named : ufid ∈ Record.names ((Store.tape ⟨partition, log, free⟩ (partition.contents medium)).records [] 1) :=
    bare.named ▸ bound
  have removed := @Session.remove_of_records μ _ _ ⟨partition, log, free⟩ medium fits bare.room ufid
  rw [if_pos named] at removed
  exact removed

section LeftOver

/-- A run in which the first save of a file is interrupted behind its entry. -/
theorem exists_leftOver_run :
    ∃ earlier event situation,
      Run ⟨.ones, ⟨0, 128, 128⟩⟩ ⟨⟨Session.unwritten, none⟩, []⟩ (earlier ++ [(event, situation)]) ∧
      situation.Bare ⟨.ones, ⟨0, 128, 128⟩⟩ [Vector.replicate 12 7] := by
  apply exists_bare_run Session.unwritten_fits
  · intro log
    cases log <;> decide
  · exact List.nodup_singleton _
  · decide
  · decide

/-- After such a run the file is removed, although there is none. -/
theorem removal_leftOver :
    ∃ earlier event situation,
      Run ⟨.ones, ⟨0, 128, 128⟩⟩ ⟨⟨Session.unwritten, none⟩, []⟩ (earlier ++ [(event, situation)]) ∧
      (situation.session.perform (.remove (Vector.replicate 12 7))).1 = .ok .done ∧
      (situation.session.perform (.contains (Vector.replicate 12 7))).1 = .ok (.contains false) ∧
      ¬ situation.session.CanRead (Vector.replicate 12 7) := by
  obtain ⟨earlier, event, situation, run, bare⟩ := exists_leftOver_run
  exact ⟨earlier, event, situation, run, bare.remove List.mem_cons_self, bare.absent _⟩

/-- Removal and reading disagree on that file after such a run, which has interrupted a save, and on no other. -/
theorem run_removalAgrees_leftOver :
    ∃ earlier event situation store,
      Run ⟨.ones, ⟨0, 128, 128⟩⟩ ⟨⟨Session.unwritten, none⟩, []⟩ (earlier ++ [(event, situation)]) ∧
      situation.session.store = some store ∧
      (∀ ufid, situation.session.RemovalAgrees ufid ↔ ¬ Record.Orphan
        ((store.tape (situation.contents ⟨.ones, ⟨0, 128, 128⟩⟩)).records [] 1) ufid) ∧
      (∀ ufid, ¬ situation.session.RemovalAgrees ufid ↔ ufid = Vector.replicate 12 7) ∧
      1 ≤ interruptedSaves (earlier ++ [(event, situation)]) := by
  obtain ⟨earlier, event, situation, run, bare⟩ := exists_leftOver_run
  obtain ⟨fits, log, free, mounted, leftOver⟩ := id bare
  obtain ⟨agrees, few⟩ := @run_removalAgrees Simulated _ _ situation Session.unwritten ⟨0, 128, 128⟩ Session.unwritten_fits
    (by intro log; cases log <;> decide) earlier event run _ mounted
  have only (ufid : Ufid) : ¬ situation.session.RemovalAgrees ufid ↔ ufid = Vector.replicate 12 7 := by
    rw [agrees ufid, not_not, ← List.mem_singleton]
    exact leftOver.orphan_iff
  refine ⟨earlier, event, situation, _, run, mounted, agrees, only, ?_⟩
  exact few [Vector.replicate 12 7] (List.nodup_singleton _)
    (List.forall_mem_singleton.mpr ((only _).mpr rfl))

end LeftOver

end Situation

end TwinLog
