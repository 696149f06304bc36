import TwinLog.Proofs.MapRefinement
import TwinLog.Proofs.Scars

set_option autoImplicit false

namespace TwinLog

namespace Store

variable {store left : Store} {contents current : Contents} {records : List Record} {ufid : Ufid} {data : List UInt8}

/-- Whether the store works on the log in use and knows where that ends. -/
structure InCharge (store : Store) (contents : Contents) : Prop extends store.Knows contents where
  used : contents.inUse = some store.active

theorem InCharge.congr (charge : store.InCharge contents) (same : current store.active = contents store.active)
    (used : current.inUse = some store.active) : store.InCharge current := by
  refine ⟨⟨charge.positive, charge.room, ?_, ?_⟩, used⟩
  · rw [same]
    exact charge.clear
  · rw [same]
    exact charge.ends

theorem InCharge.void (charge : store.InCharge contents) {index : Nat} (late : 1 ≤ index)
    (inside : index < store.free) :
    store.InCharge (contents.put store.active index [store.partition.polarity.voidWord]) := by
  have unchanged : store.Stays contents contents := ⟨rfl, rfl⟩
  have stays := unchanged.put late [store.partition.polarity.voidWord]
  refine ⟨⟨charge.positive, charge.room, ?_, ?_⟩, stays.inUse.trans charge.used⟩
  · intro position from_free
    rw [Contents.put_apart _ _ (by rintro ⟨-, rfl⟩; omega)]
    exact charge.clear position from_free
  · by_cases last : store.free - 1 = index
    · right
      apply Block.ne_blank_of_kind
      intro id entry
      rw [last, Contents.kind_voided] at entry
      cases entry
    · rw [Contents.put_apart _ _ (fun same => last same.2)]
      exact charge.ends

/-- The end of the log moves past the blocks that are appended, as none of them looks erased. -/
theorem InCharge.lay (charge : store.InCharge contents) {blocks : List Block}
    (written : ∀ block ∈ blocks, block ≠ Block.blank store.partition.polarity)
    (room : store.free + blocks.length ≤ store.partition.blocks) :
    (store.grown blocks.length).InCharge (contents.lay store.active store.free blocks) := by
  have positive := charge.positive
  have stays : store.Stays contents (contents.lay store.active store.free blocks) :=
    ⟨Contents.lay_other _ _ store.active.other_ne, Contents.lay_apart _ _ (.inr (.inl positive))⟩
  refine ⟨⟨Nat.le_add_right_of_le positive, room, ?_, ?_⟩, stays.inUse.trans charge.used⟩
  · intro position from_free
    change store.free + blocks.length ≤ position at from_free
    change contents.lay store.active store.free blocks store.active position = _
    rw [Contents.lay_apart _ _ (.inr (.inr from_free))]
    exact charge.clear position (by omega)
  · exact laid_ends positive charge.ends written (fun _ _ => rfl)

theorem Rotated.inCharge (turn : store.Rotated records left current) : left.InCharge current :=
  ⟨⟨turn.settled.positive, turn.room, turn.settled.clear, turn.settled.ends⟩, turn.inUse⟩

theorem Placed.inCharge (charge : store.InCharge contents) {value : Except StoreError Unit}
    (placed : store.Placed contents ufid data value left current) :
    left.partition = store.partition ∧ left.InCharge current := by
  cases placed with
  | full added => exact ⟨rfl, charge⟩
  | fits added room => exact ⟨rfl, charge.lay (Record.additions_written added) room⟩
  | tight added short => exact ⟨rfl, charge⟩

/-- However a save ends, the store knows the end of the log in use. -/
theorem Saved.inCharge (charge : store.InCharge contents) {value : Except StoreError Unit}
    (saved : store.Saved contents ufid data value left current) :
    left.partition = store.partition ∧ left.InCharge current := by
  cases saved with
  | large size => exact ⟨rfl, charge⟩
  | atOnce small placed enough => exact placed.inCharge charge
  | turned small added short turn placed =>
      obtain ⟨same, charge'⟩ := placed.inCharge turn.inCharge
      exact ⟨same.trans turn.partition, charge'⟩

/-- The log in use is still the old one while the new one is not marked. -/
theorem InCharge.unturned (charge : store.InCharge contents) (same : current store.active = contents store.active)
    (unmarked : current.marked store.active.other = false) : store.InCharge current := by
  apply charge.congr same
  apply Contents.inUse_only _ unmarked
  rw [← Contents.marked_of_inUse charge.used]
  exact Contents.marked_congr (congrFun same 0)

theorem InCharge.readable (charge : store.InCharge contents) :
    store.Readable contents ((store.tape contents).records [] 1) store.InCharge where
  positive := charge.positive
  room := charge.room
  listed := rfl
  now := charge
  pruned := by
    intro id start current older newer positive charge' _ behind _ _
    have late := behind.from_start
    exact charge'.void (by omega) behind.inside

end Store

namespace Partition

variable {store : Store} {contents : Contents} {ufid : Ufid} {data : List UInt8}

/-- What an operation of a store in charge may come to: the store is in charge again, unless its log does not have the
block that was asked for. -/
def Charged {α : Type} (store : Store) (value : Except StoreError (Except Violation α)) (left : Store)
    (current : Contents) : Prop :=
  left.partition = store.partition ∧ left.InCharge current ∧
    ∀ violation, value = .ok (.error violation) → violation = .blockOutside store.partition.blocks

theorem charged_of_ok {α : Type} {value : Except StoreError α} {left : Store} {current : Contents}
    (same : left.partition = store.partition) (charge : left.InCharge current) :
    Charged store (value.map .ok) left current := by
  refine ⟨same, charge, ?_⟩
  intro violation broken
  cases value <;> cases broken

/-- A store in charge saves as told, or stays in charge of the old log, whose live records outgrow the other one. -/
theorem achieves_save_inCharge (charge : store.InCharge contents)
    {result : Except StoreError (Except Violation Unit) → Store → Contents → Prop}
    (short : store.Turns contents ufid data →
      store.partition.blocks < 1 + Record.weights (Record.live ((store.tape contents).records [] 1)) →
      ∀ current, store.InCharge current → result (.ok (.error (.blockOutside store.partition.blocks))) store current)
    (next : ∀ value left after, store.Saved contents ufid data value left after → result (value.map .ok) left after) :
    store.partition.Achieves result (fun _ _ _ => True) (store.save ufid data).caught store contents := by
  apply achieves_save_caught charge.positive charge.room _ _ (fun _ _ _ _ => trivial)
  · intro turns beyond current same unmarked
    exact short turns beyond current (charge.unturned same unmarked)
  · exact next
  · intro position late
    exact charge.clear position (Nat.le_of_lt late)
  · intro block rest _ _
    exact Block.takes_of_blank (charge.clear store.free (Nat.le_refl _)) _

theorem charged_save (charge : store.InCharge contents) :
    store.partition.Achieves (Charged store) (fun _ _ _ => True) (store.save ufid data).caught store contents := by
  apply achieves_save_inCharge charge
  · intro _ _ current charge'
    refine ⟨rfl, charge', ?_⟩
    intro violation broken
    cases broken
    rfl
  · intro value left after saved
    obtain ⟨same, charge'⟩ := saved.inCharge charge
    exact charged_of_ok same charge'

theorem charged_rotate (charge : store.InCharge contents) :
    store.partition.Achieves (Charged store) (fun _ _ _ => True) store.rotate.caught store contents := by
  apply achieves_rotate_caught rfl charge.positive charge.room (fun _ _ _ => trivial)
  · intro _ current same unmarked
    refine ⟨rfl, charge.unturned same unmarked, ?_⟩
    intro violation broken
    cases broken
    rfl
  · intro rotated after turn
    refine ⟨trivial, turn.partition, turn.inCharge, ?_⟩
    intro violation broken
    cases broken

theorem charged_remove (charge : store.InCharge contents) :
    store.partition.Achieves (Charged store) (fun _ _ _ => True) (store.remove ufid).caught store contents := by
  apply Achieves.caught
  apply achieves_unbind charge.room (fun _ => trivial)
  · intro id index located
    exact ⟨trivial, charged_of_ok rfl (charge.void located.1 located.2.1)⟩
  · intro id located
    exact charged_of_ok rfl charge

end Partition

namespace Session

variable {μ : Type} [Medium μ] [LawfulMedium μ] {partition : Partition} {session : Session μ} {store : Store}
  {medium : μ}

/-- A session, whatever its medium holds, of which the store is in charge if one is mounted. -/
structure Steady (partition : Partition) (session : Session μ) : Prop where
  fits : partition.Fits session.medium
  known : ∀ store, session.store = some store →
    store.partition = partition ∧ store.InCharge (partition.contents session.medium)

/-- A request that is legal as far as it gets, leaves the session steady, and breaks no precondition but that a log has
the block that is asked for. -/
def Proceeds (partition : Partition) (session : Session μ) (request : Request) : Prop :=
  session.Legal request ∧ (session.perform request).2.Steady partition ∧
    ∀ violation, (session.perform request).1 = .error violation → violation = .blockOutside partition.blocks

theorem proceeds_of_charged (fits : store.partition.Fits medium) {request : Request} {α : Type}
    (script : Script Store α) (answer : α → Answer)
    (performs : perform ⟨medium, some store⟩ request = change ⟨medium, some store⟩ store script answer)
    (legal : Legal ⟨medium, some store⟩ request ↔ script.Legal medium)
    (charged : store.partition.Achieves (Partition.Charged store) (fun _ _ _ => True) script.caught store
      (store.partition.contents medium)) :
    Proceeds store.partition ⟨medium, some store⟩ request := by
  obtain ⟨value, left, after, fits', ⟨same, charge, broken⟩, changed⟩ :=
    @change_of_caught μ _ _ store.partition ⟨medium, some store⟩ store _ _ _ _ fits charged answer
  refine ⟨?_, ?_, ?_⟩
  · rw [legal]
    exact Script.legal_caught.mp (charged μ medium fits rfl).legal
  · rw [performs, changed]
    refine ⟨fits', ?_⟩
    intro known knows
    cases knows
    exact ⟨same, charge⟩
  · intro violation halted
    rw [performs, changed] at halted
    match value, halted with
    | .ok (.error _), halted =>
        cases halted
        exact broken violation rfl

/-- A save of a store in charge is answered with what it comes to, or breaks off where a compaction copies too much. -/
theorem save_inCharge (fits : store.partition.Fits medium) (charge : store.InCharge (store.partition.contents medium))
    (ufid : Ufid) (data : List UInt8) :
    (store.Turns (store.partition.contents medium) ufid data ∧
      (perform ⟨medium, some store⟩ (.save ufid data)).1 = .error (.blockOutside store.partition.blocks)) ∨
    ∃ value left after, store.Saved (store.partition.contents medium) ufid data value left after ∧
      (perform ⟨medium, some store⟩ (.save ufid data)).1 = .ok (reply (fun () => .done) value) := by
  have achieved : store.partition.Achieves
      (fun value _ _ =>
        (store.Turns (store.partition.contents medium) ufid data ∧
          value = .ok (.error (.blockOutside store.partition.blocks))) ∨
        ∃ ended left after, store.Saved (store.partition.contents medium) ufid data ended left after ∧
          value = ended.map .ok)
      (fun _ _ _ => True) (store.save ufid data).caught store (store.partition.contents medium) := by
    apply Partition.achieves_save_inCharge charge
    · exact fun turns _ _ _ => .inl ⟨turns, rfl⟩
    · exact fun ended left after saved => .inr ⟨ended, left, after, saved, rfl⟩
  obtain ⟨value, _, _, -, ended, changed⟩ :=
    @change_of_caught μ _ _ store.partition ⟨medium, some store⟩ store _ _ _ _ fits achieved (fun () => Answer.done)
  have performed : perform ⟨medium, some store⟩ (.save ufid data) = _ := changed
  rw [performed]
  rcases ended with ⟨turns, rfl⟩ | ⟨ended, left, after, saved, rfl⟩
  · exact .inl ⟨turns, rfl⟩
  · refine .inr ⟨ended, left, after, saved, ?_⟩
    cases ended <;> rfl

theorem saved_of_refused (fits : store.partition.Fits medium)
    (charge : store.InCharge (store.partition.contents medium)) {ufid : Ufid} {data : List UInt8} {error : StoreError}
    (refused : (perform ⟨medium, some store⟩ (.save ufid data)).1 = .ok (.failed error)) :
    ∃ left after, store.Saved (store.partition.contents medium) ufid data (.error error) left after := by
  rcases save_inCharge fits charge ufid data with ⟨-, broken⟩ | ⟨value, left, after, saved, ended⟩
  · rw [broken] at refused
    cases refused
  · rw [ended] at refused
    cases value with
    | ok done => cases refused
    | error reason =>
        cases refused
        exact ⟨left, after, saved⟩

/-- Mounting any medium that has room for the logs is legal, and leaves a store in charge of it. -/
theorem mount_inCharge (fits : partition.Fits session.medium) :
    session.Legal (.mount partition.geometry) ∧
      ∃ store after, session.perform (.mount partition.geometry) = (.ok .done, ⟨after, some store⟩) ∧
        partition.Fits after ∧ store.partition = partition ∧ store.InCharge (partition.contents after) := by
  have two := (Geometry.check_ok fits.checked).two
  have achieved : partition.Achieves (fun value (_ : Unit) current => ∃ store : Store, value = .ok store ∧
      store.partition = partition ∧ store.InCharge current) (fun _ _ _ => True)
      (Store.mount partition.polarity (Medium.pageSize session.medium) partition.geometry) ()
      (partition.contents session.medium) := by
    apply Partition.achieves_mount fits.checked (fun log position late => Partition.contents_outside log late)
      (fun _ => trivial)
    · intro log used last late early blank ends
      exact ⟨_, rfl, rfl, ⟨late, early, blank, ends⟩, used⟩
    · intro _ _ current blank _
      refine ⟨trivial, fun marked => ⟨_, rfl, rfl, ⟨Nat.le_refl _, ?_, blank, .inl rfl⟩, ?_⟩⟩
      · change 1 ≤ partition.geometry.blocks
        omega
      · rw [Contents.inUse, if_pos marked]
  obtain ⟨value, after, fits', ⟨store, rfl, same, charge⟩, mounted⟩ := mount_of_achieves fits achieved
  refine ⟨?_, store, after, mounted, fits', same, charge⟩
  unfold Legal
  rw [fits.polarity]
  exact (achieved μ session.medium fits rfl).legal

theorem proceeds_mount (fits : partition.Fits session.medium) :
    session.Proceeds partition (.mount partition.geometry) := by
  obtain ⟨legal, store, after, mounted, fits', same, charge⟩ := mount_inCharge fits
  refine ⟨legal, ?_, ?_⟩
  · rw [mounted]
    refine ⟨fits', ?_⟩
    intro known knows
    cases knows
    exact ⟨same, charge⟩
  · intro violation halted
    rw [mounted] at halted
    cases halted

/-- Every request of a steady session proceeds. -/
theorem Steady.proceeds (steady : session.Steady partition) (request : Request)
    (same : ∀ geometry, request = .mount geometry → geometry = partition.geometry) :
    session.Proceeds partition request := by
  obtain ⟨medium, given⟩ := session
  cases given with
  | none =>
      cases request with
      | mount geometry =>
          rw [same geometry rfl]
          exact proceeds_mount steady.fits
      | _ => exact ⟨trivial, steady, fun violation halted => by cases halted⟩
  | some store =>
      obtain ⟨fits, known⟩ := steady
      obtain ⟨rfl, charge⟩ := known store rfl
      by_cases reads : request.Reads
      · obtain ⟨legal, answer, after, performed, fits', charge', -⟩ :=
          informs_of_readable fits charge.readable reads
        refine ⟨legal, ?_, ?_⟩
        · rw [performed]
          refine ⟨fits', ?_⟩
          intro known knows
          cases knows
          exact ⟨rfl, charge'⟩
        · intro violation halted
          rw [performed] at halted
          cases halted
      cases request with
      | mount geometry =>
          rw [same geometry rfl]
          exact proceeds_mount fits
      | save ufid data =>
          exact proceeds_of_charged fits (store.save ufid data) (fun () => .done) rfl Iff.rfl
            (Partition.charged_save charge)
      | remove ufid =>
          exact proceeds_of_charged fits (store.remove ufid) (fun () => .done) rfl Iff.rfl
            (Partition.charged_remove charge)
      | rotate =>
          exact proceeds_of_charged fits store.rotate (fun _ => .done) rfl Iff.rfl (Partition.charged_rotate charge)
      | saveValue ufid payload =>
          apply proceeds_of_charged fits (store.saveValue ufid payload) (fun () => .done) rfl Iff.rfl
          rw [Store.saveValue]
          split
          · exact Partition.charged_save charge
          · exact Partition.Achieves.caught (Partition.achieves_fail trivial (Partition.charged_of_ok rfl charge))
      | _ => exact absurd trivial reads

def AllLegal (session : Session μ) : List Request → Prop
  | [] => True
  | request :: rest =>
      session.Legal request ∧
        ∀ answer after, session.perform request = (.ok answer, after) → after.AllLegal rest

/-- A history of a steady session is legal, breaks no precondition but that a log has the block that is asked for, and
leaves the session steady. -/
theorem Steady.performAll (steady : session.Steady partition) (requests : List Request)
    (same : ∀ geometry, .mount geometry ∈ requests → geometry = partition.geometry) :
    session.AllLegal requests ∧ (session.performAll requests).2.2.Steady partition ∧
      ∀ violation, (session.performAll requests).2.1 = some violation → violation = .blockOutside partition.blocks := by
  induction requests generalizing session with
  | nil => exact ⟨trivial, steady, fun violation broken => by cases broken⟩
  | cons request rest ih =>
      obtain ⟨legal, steady', broken⟩ := steady.proceeds request
        (fun geometry mounts => same geometry (by rw [mounts]; exact List.mem_cons_self))
      have later := fun geometry member => same geometry (List.mem_cons_of_mem request member)
      rw [Session.performAll, AllLegal]
      cases performed : session.perform request with
      | mk answered after =>
          rw [performed] at steady' broken
          cases answered with
          | ok answer =>
              obtain ⟨allLegal, ends, outside⟩ := ih steady' later
              refine ⟨⟨legal, ?_⟩, ends, outside⟩
              intro _ _ also
              cases also
              exact allLegal
          | error violation =>
              refine ⟨⟨legal, ?_⟩, steady', ?_⟩
              · intro _ _ also
                cases also
              · intro _ halted
                cases halted
                exact broken violation rfl

/-- Whatever is on a medium that has room for the logs, a history that starts by mounting it is legal, breaks no
precondition but that a log has the block that is asked for, and ends with the session steady. -/
theorem performAll_steady {medium : μ} (fits : partition.Fits medium) (requests : List Request)
    (same : ∀ other, .mount other ∈ requests → other = partition.geometry) :
    AllLegal ⟨medium, none⟩ (.mount partition.geometry :: requests) ∧
      (Session.performAll ⟨medium, none⟩ (.mount partition.geometry :: requests)).2.2.Steady partition ∧
      ∀ violation, (Session.performAll ⟨medium, none⟩ (.mount partition.geometry :: requests)).2.1 = some violation →
        violation = .blockOutside partition.blocks := by
  have unmounted : Steady partition (Session.mk medium none) := ⟨fits, fun store knows => by cases knows⟩
  apply unmounted.performAll
  intro other member
  rcases List.mem_cons.mp member with first | later
  · cases first
    rfl
  · exact same other later

/-- Words only move away from the erased state. On every medium in working order that has room for the logs, whatever it
holds, every write of every history that starts by mounting it programs each word to a value that can be programmed over
what is there; no medium finds an illegal write, as at most a log is found not to have the block that is asked for; and
at any time every block of the active log from the free one on is erased. -/
theorem performAll_oneDirectional {medium : μ} {geometry : Geometry}
    (fits : Partition.Fits ⟨Medium.polarity medium, geometry⟩ medium) (requests : List Request)
    (same : ∀ other, .mount other ∈ requests → other = geometry) :
    AllLegal ⟨medium, none⟩ (.mount geometry :: requests) ∧
      (∀ violation, (performAll ⟨medium, none⟩ (.mount geometry :: requests)).2.1 = some violation →
        ∃ index, violation = .blockOutside index) ∧
      ∀ store, (performAll ⟨medium, none⟩ (.mount geometry :: requests)).2.2.store = some store →
        ∀ position, store.free ≤ position →
          Partition.contents ⟨Medium.polarity medium, geometry⟩
            (performAll ⟨medium, none⟩ (.mount geometry :: requests)).2.2.medium store.active position =
              Block.blank (Medium.polarity medium) := by
  obtain ⟨legal, steady, broken⟩ := performAll_steady fits requests same
  refine ⟨legal, fun violation halted => ⟨_, broken violation halted⟩, ?_⟩
  intro store knows position late
  obtain ⟨together, charge⟩ := steady.known store knows
  have clear := charge.clear position late
  rw [together] at clear
  exact clear

section Overfull

set_option maxRecDepth 8192

/-- A full log in which two files share an id and one chain: both copies of it do not fit into the other log. -/
def overfull : Simulated :=
  let blocks := [Block.ofList [Partition.marker], Block.entry .ones 0 (Vector.replicate 12 7),
    Block.entry .ones 0 (Vector.replicate 12 8)] ++ Chain.fresh .ones 0 [1, 2]
  ⟨.ones, 128, (blocks.flatMap Block.toList ++ List.replicate 32 Simulated.garbage).toArray⟩

theorem overfull_fits : Partition.Fits ⟨.ones, ⟨0, 128, 128⟩⟩ overfull := by
  refine Partition.Fits.simulated rfl rfl (by decide) ?_
  intro log
  cases log <;> decide

/-- A rotation of that log is legal up to where it asks for a block after the last one. -/
theorem performAll_oneDirectional_overfull :
    AllLegal ⟨overfull, none⟩ [.mount ⟨0, 128, 128⟩, .rotate] ∧
      (performAll ⟨overfull, none⟩ [.mount ⟨0, 128, 128⟩, .rotate]).2.1 = some (.blockOutside 4) ∧
      ∀ store, (performAll ⟨overfull, none⟩ [.mount ⟨0, 128, 128⟩, .rotate]).2.2.store = some store →
        ∀ position, store.free ≤ position →
          Partition.contents ⟨.ones, ⟨0, 128, 128⟩⟩
            (performAll ⟨overfull, none⟩ [.mount ⟨0, 128, 128⟩, .rotate]).2.2.medium store.active position =
              Block.blank .ones := by
  obtain ⟨legal, -, clear⟩ := @performAll_oneDirectional Simulated _ _ overfull ⟨0, 128, 128⟩ overfull_fits [.rotate]
    (fun other member => absurd member (by simp))
  exact ⟨legal, by rfl, clear⟩

end Overfull

end Session

end TwinLog
