import Mathlib.Algebra.BigOperators.Group.List.Basic
import Mathlib.Data.List.Perm.Basic
import TwinLog.Proofs.Capacity

set_option autoImplicit false

namespace TwinLog

namespace Files

variable {files : Files} {names names' : List Ufid} {ufid : Ufid} {data : List UInt8}

theorem Listed.perm (listed : files.Listed names) (listed' : files.Listed names') : names.Perm names' := by
  rw [List.perm_ext_iff_of_nodup listed.nodup listed'.nodup]
  intro ufid
  rw [listed.mem, listed'.mem]

theorem weights_perm (same : names.Perm names') : files.weights names = files.weights names' :=
  (same.map files.weight).sum_eq

theorem crowded_perm (same : names.Perm names') : Crowded names ufid ↔ Crowded names' ufid := by
  rw [Crowded, Crowded, same.mem_iff, same.length_eq]

theorem turns_perm (same : names.Perm names') (free : Nat) :
    files.Turns names free ufid data ↔ files.Turns names' free ufid data := by
  rw [Turns, Turns, crowded_perm same]

theorem saved_perm (same : names.Perm names') (total : Nat) :
    files.saved names total ufid data = files.saved names' total ufid data := by
  simp only [saved, crowded_perm same, weights_perm same]

theorem Listed.set (listed : files.Listed names) (ufid : Ufid) (data : List UInt8) :
    (files.set ufid data).Listed (if ufid ∈ names then names else ufid :: names) := by
  split
  · rename_i present
    refine ⟨listed.nodup, fun other => ?_⟩
    rw [Files.set]
    split
    · rename_i same
      simp [same, present]
    · exact listed.mem other
  · rename_i absent
    refine ⟨listed.nodup.cons absent, fun other => ?_⟩
    rw [Files.set, List.mem_cons]
    split
    · rename_i same
      simp [same]
    · rename_i apart
      rw [or_iff_right apart]
      exact listed.mem other

theorem Listed.erase (listed : files.Listed names) (ufid : Ufid) : (files.erase ufid).Listed (names.erase ufid) := by
  refine ⟨listed.nodup.erase ufid, fun other => ?_⟩
  rw [listed.nodup.mem_erase_iff, listed.mem, Files.erase]
  split
  · rename_i same
    simp [same]
  · rename_i apart
    rw [and_iff_right apart]

end Files

theorem Files.Step.keeps {strict : Prop} {files after : Files} {request : Request} {answer : Answer}
    (step : files.Step strict request answer after) (reads : request.Reads) : after = files := by
  cases step with
  | saved | refused | removed | missing | mount | rotated | savedValue | notEncoded => cases reads
  | _ => rfl

/-- What the answers of a store depend on: the files, their identifiers, the active log and its end. -/
structure Ledger where
  files : Files
  names : List Ufid
  active : Log
  free : Nat

namespace Ledger

def blank : Ledger :=
  ⟨Files.empty, [], .a, 1⟩

def usage (ledger : Ledger) (blocks : Nat) : Usage :=
  ⟨ledger.active, blocks - 1, blocks - ledger.free⟩

def rotated (ledger : Ledger) : Ledger :=
  { ledger with active := ledger.active.other, free := 1 + ledger.files.weights ledger.names }

def placed (ledger : Ledger) (ufid : Ufid) (data : List UInt8) : Ledger where
  files := ledger.files.set ufid data
  names := if ufid ∈ ledger.names then ledger.names else ufid :: ledger.names
  active := ledger.active
  free := ledger.free + ledger.files.needed ufid data

/-- The ledger after a compaction, if what is needed for a file is more than is left. -/
def roomy (ledger : Ledger) (blocks : Nat) (ufid : Ufid) (data : List UInt8) : Ledger :=
  if ledger.files.Turns ledger.names (blocks - ledger.free) ufid data then ledger.rotated else ledger

def save (ledger : Ledger) (blocks : Nat) (ufid : Ufid) (data : List UInt8) : Answer × Ledger :=
  if maxFileSize < data.length then (.failed .tooLarge, ledger)
  else
    match ledger.files.saved ledger.names (blocks - 1) ufid data with
    | .ok () => (.done, (ledger.roomy blocks ufid data).placed ufid data)
    | .error error => (.failed error, ledger.roomy blocks ufid data)

def remove (ledger : Ledger) (ufid : Ufid) : Answer × Ledger :=
  if ufid ∈ ledger.names then
    (.done, { ledger with files := ledger.files.erase ufid, names := ledger.names.erase ufid })
  else (.failed .notFound, ledger)

def perform (blocks : Nat) (ledger : Ledger) : Request → Answer × Ledger
  | .mount _ => (.done, ledger)
  | .save ufid data => ledger.save blocks ufid data
  | .remove ufid => ledger.remove ufid
  | .rotate => (.done, ledger.rotated)
  | .size ufid =>
      match ledger.files ufid with
      | some data => (.size data.length, ledger)
      | none => (.failed .notFound, ledger)
  | .contains ufid => (.contains (ledger.files ufid).isSome, ledger)
  | .readAll ufid => (ledger.files.reading ufid, ledger)
  | .readInto ufid buffer =>
      match ledger.files ufid with
      | some data => (.copied data.length (data.take buffer.length ++ buffer.drop data.length), ledger)
      | none => (.failedCopy .notFound buffer, ledger)
  | .usage => (.usage (ledger.usage blocks), ledger)
  | .saveValue ufid payload =>
      match payload.encode? with
      | some bytes => ledger.save blocks ufid bytes
      | none => (.failed .encoding, ledger)
  | .loadValue ufid shape =>
      match ledger.files ufid with
      | none => (.failed .notFound, ledger)
      | some data =>
          match shape.decode data with
          | some (value, _) => (.value shape value, ledger)
          | none => (.failed .encoding, ledger)

def performAll (blocks : Nat) (ledger : Ledger) : List Request → List Answer × Ledger
  | [] => ([], ledger)
  | request :: rest =>
      let (answer, after) := ledger.perform blocks request
      let (answers, last) := after.performAll blocks rest
      (answer :: answers, last)

@[simp] theorem roomy_files (ledger : Ledger) (blocks : Nat) (ufid : Ufid) (data : List UInt8) :
    (ledger.roomy blocks ufid data).files = ledger.files := by
  unfold roomy
  split <;> rfl

@[simp] theorem roomy_names (ledger : Ledger) (blocks : Nat) (ufid : Ufid) (data : List UInt8) :
    (ledger.roomy blocks ufid data).names = ledger.names := by
  unfold roomy
  split <;> rfl

theorem perform_reads {ledger : Ledger} {strict : Prop} {request : Request} {answer : Answer} {after : Files}
    (step : ledger.files.Step strict request answer after) (reads : request.Reads) (other : request ≠ .usage)
    (blocks : Nat) : ledger.perform blocks request = (answer, ledger) := by
  cases step with
  | size present => simp only [perform, present]
  | noSize absent => simp only [perform, absent]
  | contains => rfl
  | content present => simp only [perform, Files.reading, present]
  | noContent absent => simp only [perform, Files.reading, absent]
  | copied present => simp only [perform, present]
  | notCopied absent => simp only [perform, absent]
  | usage => exact absurd rfl other
  | loaded present decoded => simp only [perform, present, decoded]
  | notDecoded present invalid => simp only [perform, present, invalid]
  | notLoaded absent => simp only [perform, absent]
  | _ => cases reads

end Ledger

namespace Session

variable {μ : Type} [Medium μ] [LawfulMedium μ] {partition : Partition} {session : Session μ} {store : Store}
  {records : List Record} {ledger : Ledger}

/-- A session in which nothing has failed and that a ledger tells all about. -/
structure Booked (partition : Partition) (session : Session μ) (store : Store) (records : List Record)
    (ledger : Ledger) : Prop where
  current : session.Current partition store records
  files : Record.files records = ledger.files
  listed : ledger.files.Listed ledger.names
  active : store.active = ledger.active
  free : store.free = ledger.free

theorem Booked.usage (booked : session.Booked partition store records ledger) :
    store.usage = ledger.usage partition.blocks := by
  rw [Store.usage, Ledger.usage, booked.active, booked.free, booked.current.serving.same]

/-- A request is answered as foretold, and what is foretold of the ledger tells all about the session after it. -/
def Follows (partition : Partition) (session : Session μ) (request : Request) (foretold : Answer × Ledger) : Prop :=
  ∃ after left kept, session.perform request = (.ok foretold.1, after) ∧ after.Booked partition left kept foretold.2

theorem Booked.unmoved (booked : session.Booked partition store records ledger) {request : Request} {answer : Answer}
    (performed : session.perform request = (.ok answer, session)) :
    session.Follows partition request (answer, ledger) :=
  ⟨session, store, records, performed, booked⟩

/-- What is to be shown of a request: its answer, the log and its end after it, and how the ledger lists the files. -/
theorem Booked.follows (booked : session.Booked partition store records ledger) {request : Request}
    (same : ∀ geometry, request = .mount geometry → geometry = partition.geometry) {foretold : Answer × Ledger}
    (moves : ∃ after left, session.perform request = (.ok foretold.1, ⟨after, some left⟩) ∧
      left.active = foretold.2.active ∧ (1 ≤ left.free → left.free = foretold.2.free))
    (files : ∀ after, ledger.files.Step True request foretold.1 after → after = foretold.2.files)
    (listed : foretold.2.files.Listed foretold.2.names) : session.Follows partition request foretold := by
  obtain ⟨after, left, performed, active, free⟩ := moves
  obtain ⟨answer, after', left', kept, performed', current, step⟩ := booked.current.perform request same
  rw [performed] at performed'
  obtain ⟨rfl, rfl⟩ : foretold.1 = answer ∧ (⟨after, some left⟩ : Session μ) = after' := by
    simpa only [Prod.mk.injEq, Except.ok.injEq] using performed'
  obtain rfl : left = left' := Option.some.inj current.serving.mounted
  rw [booked.files] at step
  exact ⟨_, left, kept, performed, current, files _ step, listed, active,
    free current.serving.inOrder.settled.positive⟩

theorem Booked.holds (booked : session.Booked partition store records ledger) :
    store.Holds (partition.contents session.medium) records ledger.files (Record.names records) :=
  ⟨booked.current.serving.inOrder, booked.current.backed, booked.files, rfl⟩

theorem Booked.named (booked : session.Booked partition store records ledger) :
    (Record.names records).Perm ledger.names :=
  booked.holds.listed.perm booked.listed

theorem Booked.save (booked : session.Booked partition store records ledger) (ufid : Ufid) (data : List UInt8) :
    session.Follows partition (.save ufid data) (ledger.save partition.blocks ufid data) := by
  have same (geometry : Geometry) (mounts : Request.save ufid data = .mount geometry) :
      geometry = partition.geometry := by cases mounts
  have holds := booked.holds
  have usage := booked.usage
  obtain ⟨medium, given⟩ := session
  obtain ⟨mounted, together, fits, inOrder⟩ := booked.current.serving
  obtain rfl : given = some store := mounted
  rw [← together] at fits holds
  by_cases large : maxFileSize < data.length
  · rw [Ledger.save, if_pos large]
    apply booked.unmoved
    change change _ store (store.save ufid data) _ = _
    rw [change, Store.save, if_pos large]
    rfl
  · obtain ⟨after, left, performed, turned, used⟩ := save_counted fits holds (Nat.not_lt.mp large) ufid
    have positive : 1 ≤ ledger.free := booked.free ▸ inOrder.settled.positive
    simp only [usage, Ledger.usage, Files.turns_perm booked.named, Files.saved_perm booked.named,
      Files.weights_perm booked.named, booked.active, booked.free] at performed turned used
    rw [Ledger.save, if_neg large]
    have active : left.active = (ledger.roomy partition.blocks ufid data).active := by
      rw [turned, Ledger.roomy]
      split <;> rfl
    -- where the store turns, the ledger counts from the weight of the files on
    have free (late : 1 ≤ left.free) :
        left.free = (ledger.roomy partition.blocks ufid data).free +
          if ledger.files.saved ledger.names (partition.blocks - 1) ufid data = .ok () then
            ledger.files.needed ufid data else 0 := by
      rw [Ledger.roomy]
      by_cases turns : ledger.files.Turns ledger.names (partition.blocks - ledger.free) ufid data
      · rw [if_pos turns] at used ⊢
        change left.free = 1 + ledger.files.weights ledger.names + _
        omega
      · rw [if_neg turns] at used ⊢
        omega
    cases verdict : ledger.files.saved ledger.names (partition.blocks - 1) ufid data with
    | ok value =>
        rw [verdict] at performed free
        rw [if_pos rfl] at free
        apply booked.follows same ⟨after, left, performed, active, ?_⟩
        · intro later step
          cases step
          rw [Ledger.placed, Ledger.roomy_files]
        · simp only [Ledger.placed, Ledger.roomy_files, Ledger.roomy_names]
          exact booked.listed.set ufid data
        · rw [Ledger.placed, Ledger.roomy_files]
          exact free
    | error error =>
        rw [verdict] at performed free
        rw [if_neg (by simp), Nat.add_zero] at free
        apply booked.follows same ⟨after, left, performed, active, free⟩
        · intro later step
          rw [Ledger.roomy_files]
          cases step
          rfl
        · rw [Ledger.roomy_files, Ledger.roomy_names]
          exact booked.listed

theorem Booked.remove (booked : session.Booked partition store records ledger) (ufid : Ufid) :
    session.Follows partition (.remove ufid) (ledger.remove ufid) := by
  have same (geometry : Geometry) (mounts : Request.remove ufid = .mount geometry) :
      geometry = partition.geometry := by cases mounts
  have active := booked.active
  have free := booked.free
  obtain ⟨medium, given⟩ := session
  obtain ⟨mounted, together, fits, inOrder⟩ := booked.current.serving
  obtain rfl : given = some store := mounted
  subst together
  have achieved : store.partition.Achieves
      (fun value left _ => left = store ∧ value = if ufid ∈ Record.names records then .ok () else .error .notFound)
      (fun _ _ _ => True) (store.remove ufid) store (store.partition.contents medium) := by
    apply Partition.achieves_remove inOrder (Tape.harmless_nil _) (fun _ => trivial)
    · rintro after kept ⟨id, bound⟩ - - - -
      have present : ufid ∈ Record.names records := List.mem_map.mpr ⟨_, bound, rfl⟩
      rw [if_pos present]
      exact ⟨trivial, rfl, rfl⟩
    · intro absent
      rw [Record.names, if_neg absent]
      exact ⟨rfl, rfl⟩
  obtain ⟨value, left, after, -, ⟨rfl, ended⟩, changed⟩ :=
    @change_of_achieves μ _ _ store.partition ⟨medium, some store⟩ store _ _ _ _ fits achieved (fun () => Answer.done)
  have performed : perform ⟨medium, some left⟩ (.remove ufid) = _ := changed
  simp only [booked.named.mem_iff] at ended
  rw [ended] at performed
  rw [Ledger.remove]
  by_cases present : ufid ∈ ledger.names
  · rw [if_pos present] at performed ⊢
    apply booked.follows same ⟨after, left, performed, active, fun _ => free⟩
    · intro later step
      cases step
      rfl
    · exact booked.listed.erase ufid
  · rw [if_neg present] at performed ⊢
    apply booked.follows same ⟨after, left, performed, active, fun _ => free⟩
    · intro later step
      cases step
      rfl
    · exact booked.listed

/-- A request is answered as the ledger says. -/
theorem Booked.perform (booked : session.Booked partition store records ledger) (request : Request)
    (same : ∀ geometry, request = .mount geometry → geometry = partition.geometry) :
    session.Follows partition request (ledger.perform partition.blocks request) := by
  have holds := booked.holds
  have active := booked.active
  have free := booked.free
  have used := booked.current.used
  obtain ⟨medium, given⟩ := session
  obtain ⟨mounted, together, fits, inOrder⟩ := booked.current.serving
  obtain rfl : given = some store := mounted
  subst together
  by_cases reads : request.Reads
  · by_cases other : request = .usage
    · subst other
      apply booked.unmoved
      rw [← booked.usage]
      rfl
    · obtain ⟨-, answer, after, performed, -, -, step⟩ :=
        informs_of_readable fits (inOrder.readable (Tape.harmless_nil _)) reads
      have step' := step True
      rw [booked.files] at step'
      rw [Ledger.perform_reads step' reads other]
      apply booked.follows same ⟨after, store, performed, active, fun _ => free⟩
      · exact fun later step => step.keeps reads
      · exact booked.listed
  cases request with
  | mount geometry =>
      obtain rfl := same geometry rfl
      obtain ⟨after, performed, -⟩ := mount_used fits used inOrder.knows
      apply booked.follows same ⟨after, store, performed, active, fun _ => free⟩
      · intro later step
        cases step
        rfl
      · exact booked.listed
  | save ufid data => exact booked.save ufid data
  | remove ufid => exact booked.remove ufid
  | rotate =>
      obtain ⟨after, left, performed, turned, full⟩ := rotate_counted fits holds
      rw [active] at turned
      rw [Files.weights_perm booked.named] at full
      apply booked.follows same ⟨after, left, performed, turned, fun _ => full⟩
      · intro later step
        cases step
        rfl
      · exact booked.listed
  | saveValue ufid payload =>
      cases encoded : payload.encode? with
      | some bytes =>
          have script : perform ⟨medium, some store⟩ (.saveValue ufid payload) =
              perform ⟨medium, some store⟩ (.save ufid bytes) := by
            change change _ store (store.saveValue ufid payload) _ = _
            rw [Store.saveValue, encoded]
            rfl
          rw [Follows, script, Ledger.perform, encoded]
          exact booked.save ufid bytes
      | none =>
          simp only [Ledger.perform, encoded]
          apply booked.unmoved
          change change _ store (store.saveValue ufid payload) _ = _
          rw [Store.saveValue, encoded]
          rfl
  | _ => exact absurd trivial reads

theorem Booked.performAll (booked : session.Booked partition store records ledger) (requests : List Request)
    (same : ∀ geometry, .mount geometry ∈ requests → geometry = partition.geometry) :
    ∃ after left kept, session.performAll requests = ((ledger.performAll partition.blocks requests).1, none, after) ∧
      after.Booked partition left kept (ledger.performAll partition.blocks requests).2 := by
  induction requests generalizing session store records ledger with
  | nil => exact ⟨session, store, records, rfl, booked⟩
  | cons request rest ih =>
      obtain ⟨between, left, kept, performed, booked'⟩ :=
        booked.perform request (fun geometry mounts => same geometry (by rw [mounts]; exact List.mem_cons_self))
      obtain ⟨after, last, ends, ran, booked''⟩ :=
        ih booked' (fun geometry later => same geometry (List.mem_cons_of_mem _ later))
      refine ⟨after, last, ends, ?_, booked''⟩
      rw [Session.performAll, performed]
      simp only [ran]
      rfl

/-- A history that starts by mounting a medium with no marker is answered as the ledger says, and leaves the store as
full. -/
theorem performAll_ledger {medium : μ} {geometry : Geometry}
    (fits : Partition.Fits ⟨Medium.polarity medium, geometry⟩ medium)
    (unmarked : ∀ log, (Partition.contents ⟨Medium.polarity medium, geometry⟩ medium).marked log = false)
    (requests : List Request) (same : ∀ other, .mount other ∈ requests → other = geometry) :
    ∃ after left, Session.performAll ⟨medium, none⟩ (.mount geometry :: requests) =
        ((Ledger.blank.performAll geometry.blocks (.mount geometry :: requests)).1, none, after) ∧
      after.store = some left ∧
      left.usage = (Ledger.blank.performAll geometry.blocks (.mount geometry :: requests)).2.usage geometry.blocks := by
  have start : Partition.Fits ⟨Medium.polarity medium, geometry⟩ (Session.mk medium none).medium := fits
  obtain ⟨mounted, performed, fits', used, inOrder⟩ := mount_fresh start (Contents.inUse_unmarked unmarked)
  have booked : Booked ⟨Medium.polarity medium, geometry⟩
      ⟨mounted, some ⟨⟨Medium.polarity medium, geometry⟩, .a, 1⟩⟩ ⟨⟨Medium.polarity medium, geometry⟩, .a, 1⟩ []
      Ledger.blank :=
    ⟨⟨⟨rfl, rfl, fits', inOrder⟩, fun binding member => absurd member List.not_mem_nil, used⟩, rfl,
      ⟨List.nodup_nil, by simp [Ledger.blank, Files.empty]⟩, rfl, rfl⟩
  obtain ⟨after, left, kept, ran, booked'⟩ := booked.performAll requests same
  refine ⟨after, left, ?_, booked'.current.serving.mounted, booked'.usage⟩
  rw [Session.performAll, performed]
  simp only [ran]
  rfl

/-- Of two files with one byte each, the second one does not fit into a log of four blocks. -/
example : (Ledger.blank.performAll 4 [.save (Vector.replicate 12 7) [1], .save (Vector.replicate 12 8) [2]]).1 =
    [.done, .failed .noSpace] := by
  rfl

/-- Polarity does not show. Two media of any polarities and page sizes that have room for the logs of the same geometry,
with no marker in either log and else whatever they hold, answer mounting and any requests after it alike, and after any
number of requests the same log is active in both stores, with as many blocks in all and as many of them free. -/
theorem performAll_anyPolarity {ν : Type} [Medium ν] [LawfulMedium ν] {medium : μ} {twin : ν} {geometry : Geometry}
    (fits : Partition.Fits ⟨Medium.polarity medium, geometry⟩ medium)
    (fits' : Partition.Fits ⟨Medium.polarity twin, geometry⟩ twin)
    (unmarked : ∀ log, (Partition.contents ⟨Medium.polarity medium, geometry⟩ medium).marked log = false)
    (unmarked' : ∀ log, (Partition.contents ⟨Medium.polarity twin, geometry⟩ twin).marked log = false)
    (requests : List Request) (same : ∀ other, .mount other ∈ requests → other = geometry) :
    ∃ answers session session' store store',
      Session.performAll ⟨medium, none⟩ (.mount geometry :: requests) = (answers, none, session) ∧
      Session.performAll ⟨twin, none⟩ (.mount geometry :: requests) = (answers, none, session') ∧
      session.store = some store ∧ session'.store = some store' ∧ store.usage = store'.usage := by
  obtain ⟨session, store, ran, mounted, full⟩ := performAll_ledger fits unmarked requests same
  obtain ⟨session', store', ran', mounted', full'⟩ := performAll_ledger fits' unmarked' requests same
  exact ⟨_, session, session', store, store', ran, ran', mounted, mounted', full.trans full'.symm⟩

/-- A file and, after its removal, another one for which the store compacts, on media of both polarities. -/
theorem performAll_anyPolarity_compacted :
    ∃ answers session session' store store',
      Session.performAll ⟨unwritten, none⟩ (.mount ⟨0, 128, 128⟩ :: [.save (Vector.replicate 12 7) [1],
          .remove (Vector.replicate 12 7), .save (Vector.replicate 12 8) [2], .usage,
          .readAll (Vector.replicate 12 8)]) = (answers, none, session) ∧
      Session.performAll ⟨neverErased, none⟩ (.mount ⟨0, 128, 128⟩ :: [.save (Vector.replicate 12 7) [1],
          .remove (Vector.replicate 12 7), .save (Vector.replicate 12 8) [2], .usage,
          .readAll (Vector.replicate 12 8)]) = (answers, none, session') ∧
      session.store = some store ∧ session'.store = some store' ∧ store.usage = store'.usage := by
  refine performAll_anyPolarity unwritten_fits neverErased_fits ?_ ?_ _ ?_
  · intro log
    cases log <;> decide
  · intro log
    cases log <;> decide
  · intro other member
    simp at member

end Session

end TwinLog
