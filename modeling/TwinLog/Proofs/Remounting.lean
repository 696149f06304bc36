import TwinLog.Proofs.Footprint
import TwinLog.Proofs.OneDirectional

set_option autoImplicit false

namespace TwinLog

namespace Partition

variable {σ α : Type}

/-- Whether, on every medium in working order that holds `contents`, an operation only reads and delivers `value`. -/
def Inspects (partition : Partition) (contents : Contents) (script : Script σ α) (value : α) : Prop :=
  ∀ (μ : Type) [Medium μ] [LawfulMedium μ] (state : σ) (medium : μ), partition.Fits medium →
    partition.contents medium = contents → script.run state medium = ⟨.ok value, state, medium⟩

variable {partition : Partition} {contents : Contents}

theorem Observes.inspects {script : Script σ α} {value : α} (observes : partition.Observes contents script value) :
    partition.Inspects contents script value := by
  intro μ _ _ state medium fits same
  exact (observes μ medium fits same).run state

/-- Mounting a medium on which a log is in use only reads, and finds the store that knows the end of that log. -/
theorem inspects_mount {store : Store} {pageSize : Word} (charge : store.InCharge contents)
    (checked : store.partition.geometry.check pageSize = .ok ()) :
    store.partition.Inspects contents
      (Store.mount store.partition.polarity pageSize store.partition.geometry : Script σ Store) store := by
  obtain ⟨partition, log, free⟩ := store
  have positive : 1 ≤ free := charge.positive
  have room : free ≤ partition.blocks := charge.room
  have used : contents.inUse = some log := charge.used
  have ended : partition.Observes contents
      (do return (⟨partition, log, ← partition.freeBelow log partition.blocks⟩ : Store) : Script σ Store)
      ⟨partition, log, free⟩ :=
    Observes.bind (observes_freeBelow positive room (Nat.le_refl _) (fun index late _ => charge.clear index late)
      charge.ends) (observes_pure _)
  have marked (log : Log) : partition.Observes contents (partition.isMarked log : Script σ Bool)
      (contents.marked log) := observes_isMarked (by omega)
  rw [Store.mount, checked]
  apply Observes.inspects
  apply Observes.bind (marked .a)
  unfold Contents.inUse at used
  split at used
  · rename_i first
    cases used
    rw [if_pos first]
    exact ended
  · rename_i first
    split at used
    · rename_i second
      cases used
      rw [if_neg first]
      apply Observes.bind (marked .b)
      rw [if_pos second]
      exact ended
    · cases used

end Partition

namespace Session

variable {μ : Type} [Medium μ] [LawfulMedium μ] {partition : Partition} {session : Session μ} {store : Store}

theorem Steady.stays_mounted (steady : session.Steady partition) (mounted : session.store.isSome = true)
    (request : Request) (same : ∀ geometry, request = .mount geometry → geometry = partition.geometry) :
    (session.perform request).2.store.isSome = true := by
  obtain ⟨store, knows⟩ := Option.isSome_iff_exists.mp mounted
  cases made : store.operation request with
  | some operation => rw [perform_operation knows made]; rfl
  | none =>
      cases request with
      | mount geometry =>
          obtain ⟨-, left, after, performed, -⟩ := mount_inCharge steady.fits
          rw [same geometry rfl, performed]
          rfl
      | _ => cases made

theorem Steady.performAll_mounted (steady : session.Steady partition) (mounted : session.store.isSome = true)
    (requests : List Request) (same : ∀ geometry, .mount geometry ∈ requests → geometry = partition.geometry) :
    (session.performAll requests).2.2.store.isSome = true := by
  induction requests generalizing session with
  | nil => exact mounted
  | cons request rest ih =>
      have here (geometry : Geometry) (mounts : request = .mount geometry) : geometry = partition.geometry :=
        same geometry (by rw [← mounts]; exact List.mem_cons_self)
      have later := fun geometry member => same geometry (List.mem_cons_of_mem request member)
      obtain ⟨-, steady', -⟩ := steady.proceeds request here
      have mounted' := steady.stays_mounted mounted request here
      rw [Session.performAll]
      cases performed : session.perform request with
      | mk answered after =>
          rw [performed] at steady' mounted'
          cases answered with
          | ok answer => exact ih steady' mounted' later
          | error violation => exact mounted'

/-- Mounting again what a store in charge has written gives that store, and leaves the medium as it is. -/
theorem remount_inCharge {medium : μ} (fits : store.partition.Fits medium)
    (charge : store.InCharge (store.partition.contents medium)) :
    perform ⟨medium, none⟩ (.mount store.partition.geometry) = (.ok .done, ⟨medium, some store⟩) := by
  have found := @Partition.inspects_mount Unit _ store _ charge fits.checked μ _ _ () medium fits rfl
  change mount ⟨medium, none⟩ store.partition.geometry = _
  unfold mount
  simp only
  rw [fits.polarity, found]

/-- After a history that starts by mounting and breaks no precondition a store is mounted and in charge. -/
theorem performAll_inCharge {medium : μ} (fits : partition.Fits medium) (requests : List Request)
    (same : ∀ other, .mount other ∈ requests → other = partition.geometry) {answers : List Answer}
    (reached : performAll ⟨medium, none⟩ (.mount partition.geometry :: requests) = (answers, none, session)) :
    ∃ store, session.store = some store ∧ store.partition = partition ∧ partition.Fits session.medium ∧
      store.InCharge (partition.contents session.medium) := by
  obtain ⟨-, first, after, performed, fits', together, charge⟩ := @mount_inCharge μ _ _ partition ⟨medium, none⟩ fits
  have started : Steady partition (Session.mk after (some first)) := by
    refine ⟨fits', fun store knows => ?_⟩
    cases knows
    exact ⟨together, charge⟩
  have last : session = (performAll ⟨after, some first⟩ requests).2.2 := by
    rw [performAll, performed] at reached
    simp only [Prod.mk.injEq] at reached
    exact reached.2.2.symm
  obtain ⟨-, steady, -⟩ := started.performAll requests same
  have mounted := started.performAll_mounted rfl requests same
  rw [← last] at steady mounted
  obtain ⟨store, knows⟩ := Option.isSome_iff_exists.mp mounted
  obtain ⟨together', charge'⟩ := steady.known store knows
  exact ⟨store, knows, together', steady.fits, charge'⟩

/-- Mounting again changes nothing. Whatever was on a medium that has room for the logs, after any history that starts
by mounting it and breaks no precondition a store is mounted, and unmounting it and mounting the medium again ends well
and gives the same session: every word of the medium is as it was, and so are the active log and its end. For the active
log is marked, log A is not marked where B is active, every block from the end on is erased, and the one before it is
not. -/
theorem remount_transparent {medium : μ} {geometry : Geometry}
    (fits : Partition.Fits ⟨Medium.polarity medium, geometry⟩ medium) (requests : List Request)
    (same : ∀ other, .mount other ∈ requests → other = geometry) {answers : List Answer}
    (reached : performAll ⟨medium, none⟩ (.mount geometry :: requests) = (answers, none, session)) :
    perform ⟨session.medium, none⟩ (.mount geometry) = (.ok .done, session) ∧
      ∃ store, session.store = some store ∧ store.partition = ⟨Medium.polarity medium, geometry⟩ ∧
        (store.partition.contents session.medium).marked store.active = true ∧
        (store.active = .b → (store.partition.contents session.medium).marked .a = false) ∧
        (1 ≤ store.free ∧ store.free ≤ store.partition.blocks) ∧
        (∀ index, store.free ≤ index →
          store.partition.contents session.medium store.active index = Block.blank store.partition.polarity) ∧
        (1 < store.free → store.partition.contents session.medium store.active (store.free - 1) ≠
          Block.blank store.partition.polarity) := by
  obtain ⟨store, knows, partition_eq, room, charge⟩ :=
    @performAll_inCharge μ _ _ ⟨Medium.polarity medium, geometry⟩ session medium fits requests same answers reached
  rw [← partition_eq] at charge room
  refine ⟨?_, store, knows, partition_eq, ?_, ?_, ⟨charge.positive, charge.room⟩, charge.clear, ?_⟩
  · have again := remount_inCharge room charge
    rw [partition_eq, ← knows] at again
    exact again
  · exact Contents.marked_of_inUse charge.used
  · intro second
    have used := charge.used
    rw [second] at used
    exact Contents.unmarked_of_inUse used
  · intro further
    rcases charge.ends with none | written
    · omega
    · exact written

section Rewritten

set_option maxRecDepth 8192

def rewritten : List Answer × Option Violation × Session Simulated :=
  performAll ⟨neverErased, none⟩ [.mount ⟨0, 128, 128⟩, .save (Vector.replicate 12 7) [1, 2, 3], .rotate,
    .save (Vector.replicate 12 7) [4]]

/-- Mounting it again. -/
theorem remount_transparent_rewritten :
    performAll ⟨neverErased, none⟩ [.mount ⟨0, 128, 128⟩, .save (Vector.replicate 12 7) [1, 2, 3], .rotate,
        .save (Vector.replicate 12 7) [4]] = ([.done, .done, .done, .done], none, rewritten.2.2) ∧
      rewritten.2.2.store = some ⟨⟨.zeros, ⟨0, 128, 128⟩⟩, .b, 4⟩ ∧
      perform ⟨rewritten.2.2.medium, none⟩ (.mount ⟨0, 128, 128⟩) = (.ok .done, rewritten.2.2) := by
  have ran : performAll ⟨neverErased, none⟩ [.mount ⟨0, 128, 128⟩, .save (Vector.replicate 12 7) [1, 2, 3], .rotate,
      .save (Vector.replicate 12 7) [4]] = ([.done, .done, .done, .done], none, rewritten.2.2) := by rfl
  refine ⟨ran, by rfl, ?_⟩
  exact (@remount_transparent Simulated _ _ _ neverErased ⟨0, 128, 128⟩ neverErased_fits
    [.save (Vector.replicate 12 7) [1, 2, 3], .rotate, .save (Vector.replicate 12 7) [4]]
    (fun other member => by simp at member) _ ran).1

end Rewritten

end Session

end TwinLog
