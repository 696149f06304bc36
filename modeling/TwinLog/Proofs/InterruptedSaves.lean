import TwinLog.Proofs.PowerCut
import TwinLog.Proofs.Tally

set_option autoImplicit false

namespace TwinLog

namespace Script

variable {σ α μ : Type}

theorem EndsOrBreaks.leaves {holds : σ → μ → Prop} {outcome : Outcome σ μ α}
    (ends : EndsOrBreaks (fun _ => holds) outcome) : holds outcome.state outcome.medium := by
  match outcome, ends with
  | ⟨.ok _, _, _⟩, ends => exact ends
  | ⟨.error (.error _), _, _⟩, ends => exact ends
  | ⟨.error (.halt _), _, _⟩, ends => exact ends

variable [Medium μ] {script : Script σ α} {state left : σ} {medium after : μ}

theorem Interrupted.caught {torn : Bool} (stopped : script.Interrupted state medium torn left after) :
    script.caught.Interrupted state medium torn left after := by
  induction stopped with
  | here script state medium => exact .here _ _ _
  | keep _ ih => exact .keep ih
  | read passed _ ih => exact .read passed ih
  | torn count short passed => exact .torn count short passed
  | write passed _ ih => exact .write passed ih
  | erase passed _ ih => exact .erase passed ih

end Script

def Event.breaksSave : Event → Bool
  | .cut (.save _ _) => true
  | .cut (.saveValue _ _) => true
  | _ => false

namespace Store

variable {store : Store} {contents : Contents} {spare : Nat}

/-- Whether an operation of a store leaves no entry over when it comes to its end, be it at a broken precondition, and
at most so many wherever it is interrupted. -/
def KeepsTally {σ α : Type} (store : Store) (spare more : Nat) (contents : Contents) (mounted : σ → Store)
    (script : Script σ α) (state : σ) : Prop :=
  store.partition.Achieves
    (fun _ left current => (mounted left).partition = store.partition ∧ (mounted left).Tallied spare current)
    (fun _ _ current => TalliedInUse store.partition (spare + more) current) script.caught state contents

section Operations

variable (tallied : store.Tallied spare contents)
include tallied

theorem keepsTally_save (ufid : Ufid) (data : List UInt8) :
    store.KeepsTally spare 1 contents (fun left => left) (store.save ufid data) store := by
  apply Partition.achieves_save_caught tallied.positive tallied.room
  · exact fun position late => tallied.clear position (Nat.le_of_lt late)
  · exact fun _ _ _ _ => Block.takes_of_blank (tallied.clear store.free (Nat.le_refl _)) _
  · exact fun torn left current saving => saving.tallied tallied
  · intro _ _ current same unmarked
    refine ⟨rfl, tallied.congr same ?_⟩
    exact (tallied.toInCharge.unturned same unmarked).used
  · exact fun value left after saved => saved.tallied tallied

theorem keepsTally_rotate : store.KeepsTally spare 0 contents (fun left => left) store.rotate store := by
  apply Partition.achieves_rotate_caught rfl tallied.positive tallied.room
  · exact fun torn current rotating => rotating.tallied tallied
  · intro _ current same unmarked
    refine ⟨rfl, tallied.congr same ?_⟩
    exact (tallied.toInCharge.unturned same unmarked).used
  · intro rotated after turn
    have tallied' := turn.tallied tallied
    have inUse := tallied'.inUse
    rw [turn.partition] at inUse
    exact ⟨inUse, turn.partition, tallied'⟩

theorem keepsTally_remove (ufid : Ufid) :
    store.KeepsTally spare 0 contents (fun left => left) (store.remove ufid) store := by
  apply Partition.Achieves.caught
  refine Partition.achieves_unbind tallied.room (fun _ => tallied.inUse) ?_ ?_
  · intro id index located
    have unbound := tallied.unbind located
    exact ⟨unbound.inUse, rfl, unbound⟩
  · exact fun id located => ⟨rfl, tallied⟩

theorem keepsTally_size (ufid : Ufid) :
    store.KeepsTally spare 0 contents (fun left => left) (store.size ufid) store := by
  apply Partition.Achieves.caught
  refine Partition.achieves_size (tallied.readable.legible ufid) (fun _ _ kept => kept.inUse) ?_ ?_
  · exact fun data after kept _ => ⟨rfl, kept⟩
  · exact fun after kept _ => ⟨rfl, kept⟩

theorem keepsTally_contains (ufid : Ufid) :
    store.KeepsTally spare 0 contents (fun left => left) (store.contains ufid) store := by
  apply Partition.Achieves.caught
  refine Partition.achieves_contains (tallied.readable.legible ufid) (fun _ _ kept => kept.inUse) ?_
  exact fun after kept => ⟨rfl, kept⟩

theorem keepsTally_readAll (ufid : Ufid) :
    store.KeepsTally spare 0 contents (fun left => left) (store.readAll ufid) store := by
  apply Partition.Achieves.caught
  refine Partition.achieves_readAll (tallied.readable.legible ufid) (fun _ _ kept => kept.inUse) ?_ ?_
  · exact fun data after kept _ => ⟨rfl, kept⟩
  · exact fun after kept _ => ⟨rfl, kept⟩

theorem keepsTally_readInto (ufid : Ufid) (buffer : List UInt8) :
    store.KeepsTally spare 0 contents (fun _ => store) (store.readInto ufid buffer) buffer := by
  apply Partition.Achieves.caught
  refine Partition.achieves_readInto (tallied.readable.legible ufid) buffer
    (fun _ _ _ kept => kept.inUse) ?_ ?_
  · exact fun data after kept _ => ⟨rfl, kept⟩
  · exact fun after kept _ => ⟨rfl, kept⟩

theorem keepsTally_saveValue (ufid : Ufid) (payload : Payload) :
    store.KeepsTally spare 1 contents (fun left => left) (store.saveValue ufid payload) store := by
  unfold Store.saveValue
  split
  · exact keepsTally_save tallied ufid _
  · exact Partition.Achieves.caught (Partition.achieves_fail (tallied.inUse.mono (Nat.le_succ spare)) ⟨rfl, tallied⟩)

theorem keepsTally_loadValue (ufid : Ufid) (shape : Shape) :
    store.KeepsTally spare 0 contents (fun left => left) (store.loadValue ufid shape) store := by
  apply Partition.Achieves.caught
  apply Partition.Achieves.bind
  refine Partition.achieves_readAll (tallied.readable.legible ufid) (fun _ _ kept => kept.inUse) ?_ ?_
  · intro data after kept _
    simp only
    split
    · exact Partition.achieves_pure kept.inUse ⟨rfl, kept⟩
    · exact Partition.achieves_fail kept.inUse ⟨rfl, kept⟩
  · exact fun after kept _ => ⟨rfl, kept⟩

/-- No operation leaves an entry over when it comes to its end, and a save at most one wherever it is interrupted. -/
theorem keepsTally_operation {request : Request} {operation : Operation}
    (made : store.operation request = some operation) :
    store.KeepsTally spare (Event.cut request).breaksSave.toNat contents operation.mounted operation.script
      operation.start := by
  cases request with
  | mount geometry => cases made
  | usage =>
      cases made
      apply Partition.Achieves.caught
      exact Partition.achieves_pure tallied.inUse ⟨rfl, tallied⟩
  | save ufid data => cases made; exact keepsTally_save tallied ufid data
  | remove ufid => cases made; exact keepsTally_remove tallied ufid
  | rotate => cases made; exact keepsTally_rotate tallied
  | size ufid => cases made; exact keepsTally_size tallied ufid
  | contains ufid => cases made; exact keepsTally_contains tallied ufid
  | readAll ufid => cases made; exact keepsTally_readAll tallied ufid
  | readInto ufid buffer => cases made; exact keepsTally_readInto tallied ufid buffer
  | saveValue ufid payload => cases made; exact keepsTally_saveValue tallied ufid payload
  | loadValue ufid shape => cases made; exact keepsTally_loadValue tallied ufid shape

end Operations

end Store

namespace Session

variable {μ : Type} {session : Session μ} {request : Request}

theorem operation_of_allows {partition : Partition} (allowed : session.Allows partition request)
    (other : ∀ geometry, request ≠ .mount geometry) :
    ∃ store operation, session.store = some store ∧ store.operation request = some operation := by
  have mounted : session.store.isSome = true := by
    cases request with
    | mount geometry => exact absurd rfl (other geometry)
    | _ => exact allowed
  obtain ⟨store, knows⟩ := Option.isSome_iff_exists.mp mounted
  cases request with
  | mount geometry => exact absurd rfl (other geometry)
  | _ => exact ⟨store, _, knows, rfl⟩

/-- A request that is cut short is one to mount, or its operation is interrupted. -/
theorem Stops.operation [Medium μ] {torn : Bool} {left : Option Store} {medium : μ}
    (stopped : session.Stops request torn left medium) :
    (∃ geometry, request = .mount geometry ∧ left = none ∧
      Script.Interrupted (Store.mount (Medium.polarity session.medium) (Medium.pageSize session.medium) geometry) ()
        session.medium torn () medium) ∨
    ∃ store operation kept, session.store = some store ∧ store.operation request = some operation ∧
      operation.script.Interrupted operation.start session.medium torn kept medium ∧
      left = some (operation.mounted kept) := by
  cases stopped with
  | mount stopped => exact .inl ⟨_, rfl, rfl, stopped⟩
  | save mounted stopped => exact .inr ⟨_, _, _, mounted, rfl, stopped, rfl⟩
  | remove mounted stopped => exact .inr ⟨_, _, _, mounted, rfl, stopped, rfl⟩
  | rotate mounted stopped => exact .inr ⟨_, _, _, mounted, rfl, stopped, rfl⟩
  | size mounted stopped => exact .inr ⟨_, _, _, mounted, rfl, stopped, rfl⟩
  | contains mounted stopped => exact .inr ⟨_, _, _, mounted, rfl, stopped, rfl⟩
  | readAll mounted stopped => exact .inr ⟨_, _, _, mounted, rfl, stopped, rfl⟩
  | readInto mounted stopped => exact .inr ⟨_, _, _, mounted, rfl, stopped, rfl⟩
  | saveValue mounted stopped => exact .inr ⟨_, _, _, mounted, rfl, stopped, rfl⟩
  | loadValue mounted stopped => exact .inr ⟨_, _, _, mounted, rfl, stopped, rfl⟩

end Session

namespace Situation

variable {μ : Type} [Medium μ] [LawfulMedium μ] {partition : Partition} {situation after : Situation μ} {spare : Nat}

/-- Whether no log is in use yet, or in the one in use all but `spare` of the entries are those of different files that
have content, and a mounted store is in charge of it. -/
inductive Tallied (partition : Partition) (spare : Nat) (situation : Situation μ) : Prop
  | unused (fits : partition.Fits situation.session.medium) (nowhere : (situation.contents partition).inUse = none)
      (unmounted : situation.session.store = none)
  | used (fits : partition.Fits situation.session.medium) {store : Store} (same : store.partition = partition)
      (tallied : store.Tallied spare (situation.contents partition))
      (known : situation.session.store = none ∨ situation.session.store = some store)

theorem Tallied.mounted (tallied : situation.Tallied partition spare) {store : Store}
    (mounted : situation.session.store = some store) :
    store.partition = partition ∧ partition.Fits situation.session.medium ∧
      store.Tallied spare (situation.contents partition) := by
  cases tallied with
  | unused fits nowhere unmounted =>
      rw [unmounted] at mounted
      cases mounted
  | used fits same tallied known =>
      rcases known with unmounted | knows
      · rw [unmounted] at mounted
        cases mounted
      · rw [knows, Option.some.injEq] at mounted
        subst mounted
        exact ⟨same, fits, tallied⟩

theorem tallied_empty {contents : Contents} (room : 1 ≤ partition.blocks) (used : contents.inUse = some .a)
    (blank : ∀ position, 1 ≤ position → contents .a position = Block.blank partition.polarity) :
    Store.Tallied spare ⟨partition, .a, 1⟩ contents := by
  refine ⟨⟨⟨Nat.le_refl _, room, blank, .inl rfl⟩, used⟩, ?_⟩
  have none : (Store.tape ⟨partition, .a, 1⟩ contents).records [] 1 = [] := Tape.records_done [] (Nat.le_refl _)
  rw [none]
  exact Record.backedBut_nil.mono (Nat.zero_le spare)

theorem Tallied.answered (tallied : situation.Tallied partition spare) {request : Request} {answer : Answer}
    {after : Session μ} (allowed : situation.session.Allows partition request)
    (performed : situation.session.perform request = (.ok answer, after)) :
    (situation.answered partition after).Tallied partition spare := by
  by_cases mounts : ∃ geometry, request = .mount geometry
  · obtain ⟨geometry, rfl⟩ := mounts
    obtain rfl : geometry = partition.geometry := allowed
    cases tallied with
    | unused fits nowhere unmounted =>
        obtain ⟨medium, ran, fits', here, inOrder⟩ := Session.mount_fresh fits nowhere
        rw [ran] at performed
        cases performed
        exact .used fits' rfl (tallied_empty inOrder.room here inOrder.settled.clear) (.inr rfl)
    | @used fits store same tallied known =>
        obtain ⟨_, log, free⟩ := store
        obtain rfl := same
        obtain ⟨medium, ran, fits', unchanged⟩ := Session.mount_used fits tallied.used tallied.toKnows
        rw [ran] at performed
        cases performed
        refine .used fits' rfl ?_ (.inr rfl)
        rw [contents, answered, unchanged]
        exact tallied
  · obtain ⟨store, operation, knows, made⟩ :=
      Session.operation_of_allows allowed fun geometry mount => mounts ⟨geometry, mount⟩
    obtain ⟨rfl, fits, tallied⟩ := tallied.mounted knows
    obtain ⟨fits', same, tallied'⟩ :=
      Script.EndsOrBreaks.leaves (Store.keepsTally_operation tallied made μ _ fits rfl).ends_or_breaks
    have left := Session.perform_operation knows made
    rw [performed] at left
    subst left
    exact .used fits' same tallied' (.inr rfl)

/-- A save that is cut short leaves at most one entry over, and any other request none. -/
theorem Tallied.cut_short (tallied : situation.Tallied partition spare) {request : Request} {torn : Bool}
    {left : Option Store} {medium : μ} (allowed : situation.session.Allows partition request)
    (stopped : situation.session.Stops request torn left medium) :
    (situation.cut partition torn left medium).Tallied partition (spare + (Event.cut request).breaksSave.toNat) := by
  rcases stopped.operation with ⟨geometry, rfl, rfl, ran⟩ | ⟨store, operation, kept, knows, made, ran, rfl⟩
  · obtain rfl : geometry = partition.geometry := allowed
    cases tallied with
    | unused fits nowhere unmounted =>
        obtain ⟨fits', same | ⟨-, still | ⟨first, blank⟩⟩⟩ := mount_interrupted fits ran
        · refine .unused fits' ?_ rfl
          rw [contents, cut, same]
          exact nowhere
        · exact .unused fits' still rfl
        · have two := (Geometry.check_ok fits.checked).two
          have room : 1 ≤ partition.blocks := by
            change 1 ≤ partition.geometry.blocks
            omega
          exact .used fits' rfl (tallied_empty room first blank) (.inl rfl)
    | used fits same tallied known =>
        obtain ⟨fits', unchanged | ⟨nowhere, -⟩⟩ := mount_interrupted fits ran
        · refine .used fits' same ?_ (.inl rfl)
          rw [contents, cut, unchanged]
          exact tallied
        · have used := tallied.used
          rw [contents, nowhere] at used
          cases used
  · obtain ⟨rfl, fits, tallied⟩ := tallied.mounted knows
    obtain ⟨fits', log, free, inUse⟩ :=
      (Store.keepsTally_operation tallied made μ _ fits rfl).interrupted ran.caught
    exact @Tallied.used _ _ _ _ _ _ fits' ⟨store.partition, log, free⟩ rfl inUse (.inl rfl)

theorem Tallied.happens (tallied : situation.Tallied partition spare) {event : Event}
    (happened : situation.Happens partition event after) :
    after.Tallied partition (spare + event.breaksSave.toNat) := by
  cases happened with
  | answered allowed performed => exact tallied.answered allowed performed
  | cut allowed stopped => exact tallied.cut_short allowed stopped

/-- How many saves the power cuts of a run have interrupted. -/
def interruptedSaves (trace : List (Event × Situation μ)) : Nat :=
  trace.countP fun step => step.1.breaksSave

/-- In a run no more entries are left over than saves were interrupted. -/
theorem Tallied.run (tallied : situation.Tallied partition spare) {earlier : List (Event × Situation μ)} {event : Event}
    (run : situation.Run partition (earlier ++ [(event, after)])) :
    after.Tallied partition (spare + interruptedSaves (earlier ++ [(event, after)])) := by
  induction earlier generalizing situation spare with
  | nil =>
      cases run with
      | cons happened _ =>
          have counted : interruptedSaves [(event, after)] = event.breaksSave.toNat := by
            rw [interruptedSaves, List.countP_singleton]
            cases event.breaksSave <;> rfl
          rw [List.nil_append, counted]
          exact tallied.happens happened
  | cons step earlier ih =>
      obtain ⟨former, between⟩ := step
      cases run with
      | cons happened rest =>
          have counted : interruptedSaves ((former, between) :: (earlier ++ [(event, after)])) =
              former.breaksSave.toNat + interruptedSaves (earlier ++ [(event, after)]) := by
            rw [interruptedSaves, interruptedSaves, List.countP_cons, Nat.add_comm]
            cases former.breaksSave <;> rfl
          rw [List.cons_append, counted, ← Nat.add_assoc]
          exact ih (tallied.happens happened) rest

theorem tallied_of_run {medium : μ} (fits : partition.Fits medium)
    (unmarked : ∀ log, (partition.contents medium).marked log = false) {earlier : List (Event × Situation μ)}
    {event : Event} (run : Run partition ⟨⟨medium, none⟩, []⟩ (earlier ++ [(event, situation)])) :
    situation.Tallied partition (interruptedSaves (earlier ++ [(event, situation)])) := by
  have start : Tallied partition 0 (Situation.mk ⟨medium, none⟩ []) :=
    .unused fits (Contents.inUse_unmarked unmarked) rfl
  have ends := start.run run
  rw [Nat.zero_add] at ends
  exact ends

end Situation

end TwinLog
