import TwinLog.Medium.Simulated
import TwinLog.Proofs.Serving

set_option autoImplicit false

namespace TwinLog

/-- Requests that are answered one after the other as `Files.Step` allows. -/
inductive Files.Run (strict : Prop) : Files → List Request → List Answer → Files → Prop
  | nil (files : Files) : Run strict files [] [] files
  | cons {files between after : Files} {request : Request} {answer : Answer} {requests : List Request}
      {answers : List Answer} (step : files.Step strict request answer between)
      (rest : Run strict between requests answers after) :
      Run strict files (request :: requests) (answer :: answers) after

namespace Session

variable {μ : Type} [Medium μ] {session : Session μ}

/-- Where every request is answered with a step after which all is as before, requests one after the other are a run. -/
theorem performAll_of_step {invariant : Session μ → Files → Prop} {requests : List Request}
    (advance : ∀ session files request, request ∈ requests → invariant session files →
      ∃ answer after files', session.perform request = (.ok answer, after) ∧ invariant after files' ∧
        files.Step True request answer files')
    {files : Files} (start : invariant session files) :
    ∃ answers after files', session.performAll requests = (answers, none, after) ∧ invariant after files' ∧
      Files.Run True files requests answers files' := by
  induction requests generalizing session files with
  | nil => exact ⟨[], session, files, rfl, start, .nil files⟩
  | cons request requests ih =>
      obtain ⟨answer, between, files', performed, holds, step⟩ := advance session files request List.mem_cons_self start
      obtain ⟨answers, after, last, rest, ends, run⟩ :=
        ih (fun session files request later => advance session files request (List.mem_cons_of_mem _ later)) holds
      refine ⟨answer :: answers, after, last, ?_, ends, .cons step run⟩
      rw [Session.performAll, performed]
      simp only [rest]

variable [LawfulMedium μ] {partition : Partition} {store : Store} {records : List Record}

/-- A session in which nothing has failed: its store is that of the log in use, which has no scars and no entry that
is left without content. -/
structure Current (partition : Partition) (session : Session μ) (store : Store) (records : List Record) : Prop where
  serving : session.Serving partition store [] records
  backed : Record.Backed records
  used : (partition.contents session.medium).inUse = some store.active

theorem inUse_of_becomes {scars scars' : List Nat} {left : Store} {contents after : Contents}
    (moved : store.Moved contents scars left after scars') (used : contents.inUse = some store.active) :
    after.inUse = some left.active := by
  cases moved with
  | stays _ active stays => rw [active, ← used, stays.inUse]
  | turns _ active marked unmarked =>
      refine Contents.inUse_only marked ?_
      rw [active, Log.other_other]
      exact unmarked

/-- A store in order without scars answers every request with a step and is in order without scars again. -/
theorem Serving.advance (serving : session.Serving partition store [] records) (backed : Record.Backed records)
    (request : Request) (other : ∀ geometry, request ≠ .mount geometry) :
    ∃ answer after left kept, session.perform request = (.ok answer, after) ∧
      store.Moved (partition.contents session.medium) [] left (partition.contents after.medium) [] ∧
      after.Serving partition left [] kept ∧ Record.Backed kept ∧
      (Record.files records).Step True request answer (Record.files kept) := by
  obtain ⟨answer, left, after, files, performed, fits, becomes, step⟩ :=
    serving.perform (Tape.harmless_nil _) request other
  obtain ⟨scars, kept, moved, inOrder, rfl, backed'⟩ := becomes
  have clean : scars = [] := by cases moved <;> rfl
  subst clean
  have together : left.partition = partition := by
    cases moved with
    | stays same => exact same.trans serving.same
    | turns same => exact same.trans serving.same
  rw [eq_true backed] at step
  exact ⟨answer, _, left, kept, performed, moved, ⟨rfl, together, fits, inOrder⟩, backed' backed, step⟩

theorem Current.perform (current : session.Current partition store records) (request : Request)
    (same : ∀ geometry, request = .mount geometry → geometry = partition.geometry) :
    ∃ answer after left kept, session.perform request = (.ok answer, after) ∧ after.Current partition left kept ∧
      (Record.files records).Step True request answer (Record.files kept) := by
  obtain ⟨serving, backed, used⟩ := current
  by_cases mounts : ∃ geometry, request = .mount geometry
  · obtain ⟨geometry, rfl⟩ := mounts
    obtain rfl := same geometry rfl
    obtain ⟨mounted, together, fits, inOrder⟩ := serving
    subst together
    obtain ⟨after, performed, fits', unchanged⟩ := mount_used fits used inOrder.knows
    exact ⟨_, _, store, records, performed, ⟨⟨rfl, rfl, fits', unchanged ▸ inOrder⟩, backed, unchanged ▸ used⟩, .mount _⟩
  · obtain ⟨answer, after, left, kept, performed, moved, serving', backed', step⟩ :=
      serving.advance backed request (fun geometry mount => mounts ⟨geometry, mount⟩)
    exact ⟨answer, after, left, kept, performed, ⟨serving', backed', inUse_of_becomes moved used⟩, step⟩

/-- A history of requests in which nothing has failed goes on to its end as that of a map. -/
theorem Current.performAll (current : session.Current partition store records) (requests : List Request)
    (same : ∀ geometry, .mount geometry ∈ requests → geometry = partition.geometry) :
    ∃ answers after left kept, session.performAll requests = (answers, none, after) ∧
      after.Current partition left kept ∧
      Files.Run True (Record.files records) requests answers (Record.files kept) := by
  have start : ∃ store kept, session.Current partition store kept ∧ Record.files records = Record.files kept :=
    ⟨store, records, current, rfl⟩
  obtain ⟨answers, after, _, performed, ⟨left, kept, current', rfl⟩, run⟩ := @performAll_of_step _ _ session
    (fun session files => ∃ store kept, session.Current partition store kept ∧ files = Record.files kept) requests
    (by
      rintro session files request member ⟨store, kept, current, rfl⟩
      obtain ⟨answer, after, left, kept', performed, current', step⟩ :=
        current.perform request (fun geometry mount => same geometry (by rw [← mount]; exact member))
      exact ⟨answer, after, _, performed, ⟨left, kept', current', rfl⟩, step⟩) _ start
  exact ⟨answers, after, left, kept, performed, current', run⟩

/-- A history that starts by mounting a medium without a marker goes to its end as that of a map which is empty at
first. -/
theorem performAll_unmarked {medium : μ} (fits : partition.Fits medium)
    (unmarked : ∀ log, (partition.contents medium).marked log = false) (requests : List Request)
    (same : ∀ geometry, .mount geometry ∈ requests → geometry = partition.geometry) :
    ∃ answers after left kept,
      Session.performAll ⟨medium, none⟩ (.mount partition.geometry :: requests) = (answers, none, after) ∧
      after.Current partition left kept ∧
      Files.Run True Files.empty (.mount partition.geometry :: requests) answers (Record.files kept) := by
  have start : partition.Fits (Session.mk medium none).medium := fits
  obtain ⟨mounted, performed, fits', used, inOrder⟩ := mount_fresh start (Contents.inUse_unmarked unmarked)
  have current : Current partition ⟨mounted, some ⟨partition, .a, 1⟩⟩ ⟨partition, .a, 1⟩ [] :=
    ⟨⟨rfl, rfl, fits', inOrder⟩, fun binding member => absurd member List.not_mem_nil, used⟩
  obtain ⟨answers, after, left, kept, rest, current', run⟩ := current.performAll requests same
  refine ⟨.done :: answers, after, left, kept, ?_, current', .cons (.mount _) run⟩
  rw [Session.performAll, performed]
  simp only [rest]

/-- The store is a map. On a medium in working order that has room for the logs of the geometry and no marker in
either, mounting and any requests after it break no precondition and are answered as by a map that is empty at first:
only a save or a removal that is acknowledged changes it, and only at its identifier; a removal is acknowledged if and
only if the file is there, and everything read is what the map has. -/
theorem performAll_refines_map {medium : μ} {geometry : Geometry}
    (fits : Partition.Fits ⟨Medium.polarity medium, geometry⟩ medium)
    (unmarked : ∀ log, (Partition.contents ⟨Medium.polarity medium, geometry⟩ medium).marked log = false)
    (requests : List Request) (same : ∀ other, .mount other ∈ requests → other = geometry) :
    ∃ answers after files,
      Session.performAll ⟨medium, none⟩ (.mount geometry :: requests) = (answers, none, after) ∧
        Files.Run True Files.empty (.mount geometry :: requests) answers files := by
  obtain ⟨answers, after, left, kept, performed, -, run⟩ := performAll_unmarked fits unmarked requests same
  exact ⟨answers, after, _, performed, run⟩

def neverErased : Simulated :=
  ⟨.zeros, 64, Array.replicate 64 Simulated.garbage⟩

theorem neverErased_fits : Partition.Fits ⟨.zeros, ⟨0, 128, 128⟩⟩ neverErased := by
  refine Partition.Fits.simulated rfl rfl (by decide) ?_
  intro log
  cases log <;> decide

def unwritten : Simulated :=
  ⟨.ones, 128, Array.replicate 64 Simulated.garbage⟩

theorem unwritten_fits : Partition.Fits ⟨.ones, ⟨0, 128, 128⟩⟩ unwritten := by
  refine Partition.Fits.simulated rfl rfl (by decide) ?_
  intro log
  cases log <;> decide

section NeverErased

set_option maxRecDepth 8192

/-- A file that is saved in such a medium and read after it was mounted again. -/
theorem performAll_refines_map_neverErased :
    ∃ after files,
      Session.performAll ⟨neverErased, none⟩
          (.mount ⟨0, 128, 128⟩ :: [.save (Vector.replicate 12 7) [1, 2, 3], .mount ⟨0, 128, 128⟩,
            .readAll (Vector.replicate 12 7)]) = ([.done, .done, .done, .content [1, 2, 3]], none, after) ∧
        Files.Run True Files.empty
          (.mount ⟨0, 128, 128⟩ :: [.save (Vector.replicate 12 7) [1, 2, 3], .mount ⟨0, 128, 128⟩,
            .readAll (Vector.replicate 12 7)]) [.done, .done, .done, .content [1, 2, 3]] files := by
  have answered : (Session.performAll ⟨neverErased, none⟩
      (.mount ⟨0, 128, 128⟩ :: [.save (Vector.replicate 12 7) [1, 2, 3], .mount ⟨0, 128, 128⟩,
        .readAll (Vector.replicate 12 7)])).1 = [.done, .done, .done, .content [1, 2, 3]] := by rfl
  obtain ⟨answers, after, files, performed, run⟩ := @performAll_refines_map Simulated _ _ neverErased ⟨0, 128, 128⟩
    neverErased_fits
    (by
      intro log
      cases log <;> decide)
    [.save (Vector.replicate 12 7) [1, 2, 3], .mount ⟨0, 128, 128⟩, .readAll (Vector.replicate 12 7)]
    (by
      intro other member
      simpa using member)
  rw [performed] at answered
  obtain rfl : answers = _ := answered
  exact ⟨after, files, performed, run⟩

end NeverErased

end Session

end TwinLog
