import TwinLog.Proofs.MirroredMedium
import TwinLog.Proofs.OneDirectional

set_option autoImplicit false

namespace TwinLog

inductive Access where
  | read (address : Address) (count : Nat)
  | readWord (address : Address)
  | write (address : Address) (words : List Word) (eraseFirst : Bool)
  | writeWord (address : Address) (word : Word)
  | erase (address : Address) (count : Word)

namespace Medium

variable {μ : Type} [Medium μ]

def settle : Except (Stop MediumError) Unit × μ → Fetch × μ
  | (.ok (), after) => (⟨[], none⟩, after)
  | (.error reason, after) => (⟨[], some reason⟩, after)

def access (medium : μ) : Access → Fetch × μ
  | .read address count => Medium.read medium address count
  | .readWord address =>
      match Medium.readWord medium address with
      | (.ok word, after) => (⟨[word], none⟩, after)
      | (.error reason, after) => (⟨[], some reason⟩, after)
  | .write address words eraseFirst => settle (Medium.write medium address words eraseFirst)
  | .writeWord address word => settle (Medium.writeWord medium address word)
  | .erase address count => settle (Medium.erase medium address count)

def accessAll (medium : μ) : List Access → List Fetch × μ
  | [] => ([], medium)
  | access :: rest =>
      let (reply, between) := Medium.access medium access
      let (replies, after) := accessAll between rest
      (reply :: replies, after)

end Medium

def Fetch.Completed (reply : Fetch) : Prop :=
  ∀ violation, reply.stop ≠ some (.halt violation)

/-- Whether it is a medium that finds a precondition broken. -/
def Violation.OfMedium : Violation → Prop
  | unaligned _ | outOfRange _ | illegalWrite _ _ _ | zeroDivisor => True
  | unfitPageSize | blockOutside _ | sizeOutOfRange _ => False

namespace Simulated

variable {medium : Simulated} {address : Address} {violation : Violation}

theorem locate_ofMedium {count : Nat} (halted : medium.locate address count = .error violation) :
    violation.OfMedium := by
  rw [locate] at halted
  split at halted
  · cases halted
    trivial
  · split at halted
    · cases halted
      trivial
    · cases halted

theorem read_ofMedium {count : Nat} (halted : (Medium.read medium address count).1.stop = some (.halt violation)) :
    violation.OfMedium := by
  change (Simulated.read medium address count).1.stop = _ at halted
  rw [read] at halted
  cases located : medium.locate address count with
  | error found =>
      rw [located] at halted
      cases halted
      exact locate_ofMedium located
  | ok start =>
      rw [located] at halted
      cases halted

theorem programFrom_ofMedium {eraseFirst : Bool} {words : List Word} {index : Nat}
    (halted : (programFrom eraseFirst medium index words).1 = .error (.halt violation)) : violation.OfMedium := by
  induction words generalizing medium index with
  | nil => cases halted
  | cons word rest ih =>
      rw [programFrom] at halted
      split at halted
      · cases halted
        trivial
      · simp only at halted
        generalize (if eraseFirst ∧ index % medium.pageWords = 0 then medium.eraseFrom index medium.pageWords
          else medium) = ready at halted
        split at halted
        · exact ih halted
        · cases halted
          trivial

theorem write_ofMedium {words : List Word} {eraseFirst : Bool}
    (halted : (Medium.write medium address words eraseFirst).1 = .error (.halt violation)) : violation.OfMedium := by
  change (Simulated.write medium address words eraseFirst).1 = _ at halted
  rw [write] at halted
  cases located : medium.locate address words.length with
  | error found =>
      rw [located] at halted
      cases halted
      exact locate_ofMedium located
  | ok start =>
      rw [located] at halted
      exact programFrom_ofMedium halted

theorem erase_ofMedium {count : Word}
    (halted : (Medium.erase medium address count).1 = .error (.halt violation)) : violation.OfMedium := by
  change (Simulated.erase medium address count).1 = _ at halted
  rw [erase] at halted
  split at halted
  · cases halted
    trivial
  split at halted
  · cases halted
  · cases located : medium.locate address count.toNat with
    | error found =>
        rw [located] at halted
        cases halted
        exact locate_ofMedium located
    | ok start =>
        rw [located] at halted
        cases halted

end Simulated

namespace NorWords

variable {δ : Type} [NorDriver δ] [LawfulDriver δ] {medium : Simulated} {flash : NorWords δ}

theorem Mirrors.settle {given : Except (Stop MediumError) Unit × Simulated}
    {answer : Except (Stop MediumError) Unit × NorWords δ}
    (alike : ∃ after, answer = (given.1, after) ∧ Mirrors given.2 after) :
    (Medium.settle answer).1 = (Medium.settle given).1 ∧
      Mirrors (Medium.settle given).2 (Medium.settle answer).2 := by
  obtain ⟨after, rfl, mirrors⟩ := alike
  obtain ⟨_ | _, between⟩ := given <;> exact ⟨rfl, mirrors⟩

theorem settle_completed {μ : Type} {given : Except (Stop MediumError) Unit × μ}
    (completed : (Medium.settle given).1.Completed) (violation : Violation) : given.1 ≠ .error (.halt violation) := by
  obtain ⟨_ | _, between⟩ := given
  · intro halted
    cases halted
    exact completed violation rfl
  · intro halted
    cases halted

theorem Mirrors.access (mirrors : Mirrors medium flash) {access : Access}
    (completed : (Medium.access medium access).1.Completed) :
    (Medium.access flash access).1 = (Medium.access medium access).1 ∧
      Mirrors (Medium.access medium access).2 (Medium.access flash access).2 := by
  cases access with
  | read address count =>
      obtain ⟨after, ran, mirrors'⟩ := mirrors.read completed
      exact ⟨congrArg Prod.fst ran, (congrArg Prod.snd ran) ▸ mirrors'⟩
  | readWord address =>
      simp only [Medium.access, Medium.readWord] at completed ⊢
      cases ended : Medium.read medium address 1 with
      | mk fetch between =>
          obtain ⟨words, stop⟩ := fetch
          rw [ended] at completed
          have completes (violation : Violation) :
              (Medium.read medium address 1).1.stop ≠ some (.halt violation) := by
            rw [ended]
            rintro rfl
            exact completed violation rfl
          obtain ⟨after, ran, mirrors'⟩ := mirrors.read completes
          rw [ended] at ran mirrors'
          rw [ran]
          cases stop with
          | none => exact ⟨rfl, mirrors'⟩
          | some reason => exact ⟨rfl, mirrors'⟩
  | write address words eraseFirst => exact Mirrors.settle (mirrors.write (settle_completed completed))
  | writeWord address word => exact Mirrors.settle (mirrors.write (settle_completed completed))
  | erase address count => exact Mirrors.settle (mirrors.erase (settle_completed completed))

/-- Calls that the medium in memory completes are answered alike, one after the other. -/
theorem Mirrors.accessAll (mirrors : Mirrors medium flash) (accesses : List Access)
    (completed : ∀ reply ∈ (Medium.accessAll medium accesses).1, reply.Completed) :
    (Medium.accessAll flash accesses).1 = (Medium.accessAll medium accesses).1 ∧
      Mirrors (Medium.accessAll medium accesses).2 (Medium.accessAll flash accesses).2 := by
  induction accesses generalizing medium flash with
  | nil => exact ⟨rfl, mirrors⟩
  | cons access rest ih =>
      obtain ⟨first, mirrors'⟩ := mirrors.access (completed _ List.mem_cons_self)
      obtain ⟨others, mirrors''⟩ := ih mirrors' (fun reply later => completed reply (List.mem_cons_of_mem _ later))
      refine ⟨?_, mirrors''⟩
      simp only [Medium.accessAll]
      rw [first, others]

end NorWords

namespace Script

variable {σ α δ : Type} [NorDriver δ] [LawfulDriver δ] {medium : Simulated} {flash : NorWords δ}

open NorWords

/-- An operation in which the medium in memory finds nothing broken does the same on flash that mirrors it. -/
theorem run_mirrored (script : Script σ α) {state : σ} (mirrors : Mirrors medium flash)
    {outcome : Outcome σ Simulated α} (ran : script.run state medium = outcome)
    (breaks : ∀ violation, outcome.result = .error (.halt violation) → ¬ violation.OfMedium) :
    ∃ after, script.run state flash = ⟨outcome.result, outcome.state, after⟩ ∧ Mirrors outcome.medium after := by
  subst ran
  -- each call is answered alike, so both runs make the same ones
  induction script generalizing state medium flash with
  | done value => exact ⟨flash, rfl, mirrors⟩
  | stop reason => exact ⟨flash, rfl, mirrors⟩
  | keep kept rest ih => exact ih mirrors breaks
  | read address count rest ih =>
      cases ended : Medium.read medium address count with
      | mk fetch between =>
          obtain ⟨words, stop⟩ := fetch
          simp only [run, ended] at breaks
          have completes (violation : Violation) :
              (Medium.read medium address count).1.stop ≠ some (.halt violation) := by
            intro halted
            have ofMedium := Simulated.read_ofMedium halted
            rw [ended] at halted
            obtain rfl : stop = some (.halt violation) := halted
            exact breaks violation rfl ofMedium
          obtain ⟨after, ran, mirrors'⟩ := mirrors.read completes
          rw [ended] at ran mirrors'
          simp only [run, ended, ran]
          cases stop with
          | none => exact ih words mirrors' breaks
          | some reason => exact ⟨after, rfl, mirrors'⟩
  | write address words rest ih =>
      cases ended : Medium.write medium address words false with
      | mk result between =>
          simp only [run, ended] at breaks
          have completes (violation : Violation) :
              (Medium.write medium address words false).1 ≠ .error (.halt violation) := by
            intro halted
            have ofMedium := Simulated.write_ofMedium halted
            rw [ended] at halted
            obtain rfl : result = .error (.halt violation) := halted
            exact breaks violation rfl ofMedium
          obtain ⟨after, ran, mirrors'⟩ := mirrors.write completes
          rw [ended] at ran mirrors'
          simp only [run, ended, ran]
          cases result with
          | ok value => exact ih mirrors' breaks
          | error reason => exact ⟨after, rfl, mirrors'⟩
  | erase address count rest ih =>
      cases ended : Medium.erase medium address count with
      | mk result between =>
          simp only [run, ended] at breaks
          have completes (violation : Violation) :
              (Medium.erase medium address count).1 ≠ .error (.halt violation) := by
            intro halted
            have ofMedium := Simulated.erase_ofMedium halted
            rw [ended] at halted
            obtain rfl : result = .error (.halt violation) := halted
            exact breaks violation rfl ofMedium
          obtain ⟨after, ran, mirrors'⟩ := mirrors.erase completes
          rw [ended] at ran mirrors'
          simp only [run, ended, ran]
          cases result with
          | ok value => exact ih mirrors' breaks
          | error reason => exact ⟨after, rfl, mirrors'⟩

end Script

namespace Session

variable {δ : Type} [NorDriver δ] [LawfulDriver δ] {session : Session Simulated} {twin : Session (NorWords δ)}
  {partition : Partition} {store : Store}

open NorWords

/-- A session on a medium in memory and one with the same store on flash that mirrors it. -/
structure Twins (session : Session Simulated) (twin : Session (NorWords δ)) : Prop where
  store : twin.store = session.store
  mirrors : Mirrors session.medium twin.medium

/-- Whether what is performed on flash is answered as on the medium in memory, and leaves twins again. -/
def Agrees (performed : Except Violation Answer × Session Simulated)
    (performed' : Except Violation Answer × Session (NorWords δ)) : Prop :=
  performed'.1 = performed.1 ∧ Twins performed.2 performed'.2

theorem Twins.change (twins : Twins session twin) {α : Type} (script : Script Store α) (answer : α → Answer)
    (breaks : ∀ violation, (session.change store script answer).1 = .error violation → ¬ violation.OfMedium) :
    Agrees (session.change store script answer) (twin.change store script answer) := by
  unfold Session.change at breaks ⊢
  cases ran : script.run store session.medium with
  | mk result left between =>
      rw [ran] at breaks
      obtain ⟨after, ran', mirrors⟩ := script.run_mirrored twins.mirrors ran (by
        intro violation halted
        obtain rfl : result = .error (.halt violation) := halted
        exact breaks violation rfl)
      rw [ran']
      match result with
      | .ok value => exact ⟨rfl, rfl, mirrors⟩
      | .error (.error error) => exact ⟨rfl, rfl, mirrors⟩
      | .error (.halt violation) => exact ⟨rfl, rfl, mirrors⟩

theorem Twins.copy (twins : Twins session twin) (ufid : Ufid) (buffer : List UInt8)
    (breaks : ∀ violation, (session.copy store ufid buffer).1 = .error violation → ¬ violation.OfMedium) :
    Agrees (session.copy store ufid buffer) (twin.copy store ufid buffer) := by
  unfold Session.copy at breaks ⊢
  cases ran : (store.readInto ufid buffer).run buffer session.medium with
  | mk result left between =>
      rw [ran] at breaks
      obtain ⟨after, ran', mirrors⟩ := (store.readInto ufid buffer).run_mirrored twins.mirrors ran (by
        intro violation halted
        obtain rfl : result = .error (.halt violation) := halted
        exact breaks violation rfl)
      rw [ran']
      match result with
      | .ok value => exact ⟨rfl, rfl, mirrors⟩
      | .error (.error error) => exact ⟨rfl, rfl, mirrors⟩
      | .error (.halt violation) => exact ⟨rfl, rfl, mirrors⟩

theorem Twins.mount (twins : Twins session twin) (geometry : Geometry)
    (breaks : ∀ violation, (session.mount geometry).1 = .error violation → ¬ violation.OfMedium) :
    Agrees (session.mount geometry) (twin.mount geometry) := by
  have polarity : Medium.polarity twin.medium = Medium.polarity session.medium := twins.mirrors.polarity.symm
  have pageSize : Medium.pageSize twin.medium = Medium.pageSize session.medium := twins.mirrors.pageSize
  unfold Session.mount at breaks ⊢
  rw [polarity, pageSize]
  simp only at breaks ⊢
  generalize (Store.mount (Medium.polarity session.medium) (Medium.pageSize session.medium) geometry :
    Script Unit Store) = script at breaks ⊢
  cases ran : script.run () session.medium with
  | mk result left between =>
      rw [ran] at breaks
      obtain ⟨after, ran', mirrors⟩ := script.run_mirrored twins.mirrors ran (by
        intro violation halted
        obtain rfl : result = .error (.halt violation) := halted
        exact breaks violation rfl)
      rw [ran']
      match result with
      | .ok value => exact ⟨rfl, rfl, mirrors⟩
      | .error (.error error) => exact ⟨rfl, rfl, mirrors⟩
      | .error (.halt violation) => exact ⟨rfl, rfl, mirrors⟩

theorem Twins.perform (twins : Twins session twin) (request : Request)
    (breaks : ∀ violation, (session.perform request).1 = .error violation → ¬ violation.OfMedium) :
    Agrees (session.perform request) (twin.perform request) := by
  obtain ⟨medium, given⟩ := session
  obtain ⟨flash, given'⟩ := twin
  obtain rfl : given' = given := twins.store
  cases request with
  | mount geometry => exact twins.mount geometry breaks
  | readInto ufid buffer =>
      cases given' with
      | none => exact ⟨rfl, twins⟩
      | some store => exact twins.copy ufid buffer breaks
  | usage =>
      cases given' with
      | none => exact ⟨rfl, twins⟩
      | some store => exact ⟨rfl, twins⟩
  | _ =>
      cases given' with
      | none => exact ⟨rfl, twins⟩
      | some store => exact twins.change _ _ breaks

/-- A history of a steady session is answered alike, also where it ends at a broken precondition. -/
theorem Twins.performAll (twins : Twins session twin) (steady : session.Steady partition) (requests : List Request)
    (same : ∀ geometry, .mount geometry ∈ requests → geometry = partition.geometry) :
    (twin.performAll requests).1 = (session.performAll requests).1 ∧
      (twin.performAll requests).2.1 = (session.performAll requests).2.1 ∧
      Twins (session.performAll requests).2.2 (twin.performAll requests).2.2 := by
  induction requests generalizing session twin with
  | nil => exact ⟨rfl, rfl, twins⟩
  | cons request rest ih =>
      obtain ⟨-, steady', broken⟩ := steady.proceeds request
        (fun geometry mounts => same geometry (by rw [mounts]; exact List.mem_cons_self))
      have later := fun geometry member => same geometry (List.mem_cons_of_mem request member)
      obtain ⟨answered, twins'⟩ := twins.perform request (by
        intro violation halted
        rw [broken violation halted]
        exact id)
      rw [Session.performAll, Session.performAll]
      cases performed : session.perform request with
      | mk answer after =>
          cases performed' : twin.perform request with
          | mk answer' after' =>
              rw [performed, performed'] at answered twins'
              rw [performed] at steady'
              obtain rfl : answer' = answer := answered
              cases answer' with
              | error violation => exact ⟨rfl, rfl, twins'⟩
              | ok value =>
                  obtain ⟨answers, ends, twins''⟩ := ih twins' steady' later
                  exact ⟨congrArg (List.cons value) answers, ends, twins''⟩

end Session

namespace NorWords

open Session

variable {δ : Type} [NorDriver δ] [LawfulDriver δ] {medium : Simulated} {flash : NorWords δ}

/-- A medium in memory stands in for NOR flash over any lawful driver that holds the same words. Whatever calls are made
of both, reads and writes of any length, with or without an erase first, or of single words, and erases: as long as the
medium in memory completes them, both answer alike and hold the same words after each. So does a store on them: mounting
and any requests after it are answered alike, up to the same broken precondition if there is one, and after each of them
the stores are equal, and so are the words. -/
theorem Mirrors.interchangeable (mirrors : Mirrors medium flash) :
    (∀ accesses, (∀ reply ∈ (Medium.accessAll medium accesses).1, reply.Completed) →
      (Medium.accessAll flash accesses).1 = (Medium.accessAll medium accesses).1 ∧
        Mirrors (Medium.accessAll medium accesses).2 (Medium.accessAll flash accesses).2) ∧
    ∀ geometry, Partition.Fits ⟨.ones, geometry⟩ medium →
      ∀ requests, (∀ other, .mount other ∈ requests → other = geometry) → ∃ answers violation session twin,
        performAll ⟨medium, none⟩ (.mount geometry :: requests) = (answers, violation, session) ∧
        performAll ⟨flash, none⟩ (.mount geometry :: requests) = (answers, violation, twin) ∧
        twin.store = session.store ∧ Mirrors session.medium twin.medium := by
  refine ⟨mirrors.accessAll, ?_⟩
  intro geometry fits requests same
  have unmounted : Steady ⟨.ones, geometry⟩ (Session.mk medium none) := ⟨fits, fun store knows => by cases knows⟩
  have twins : Twins (Session.mk medium none) (Session.mk flash none) := ⟨rfl, mirrors⟩
  obtain ⟨answers, ends, twins'⟩ := twins.performAll unmounted (.mount geometry :: requests) (by
    intro other member
    rcases List.mem_cons.mp member with first | later
    · cases first
      rfl
    · exact same other later)
  exact ⟨_, _, _, _, rfl, Prod.ext answers (Prod.ext ends rfl), twins'.store, twins'.mirrors⟩

section Crossing

set_option maxRecDepth 8192

/-- Calls that read and program words on both sides of the boundary between two pages, the second of which is erased in
between, and then erase the first one. -/
def crossing : List Access :=
  [.write 124 [0, 5, 6] true, .read 120 9, .erase 0 32, .writeWord 4 7, .readWord 4, .erase 4 32]

/-- These calls, and a history of a store, on a medium in memory and on flash that holds the same words. -/
theorem interchangeable_crossing :
    (Medium.accessAll (holding 1 4 unwritten) crossing).1 = (Medium.accessAll unwritten crossing).1 ∧
      ∃ answers violation session twin,
        performAll ⟨unwritten, none⟩ [.mount ⟨0, 128, 128⟩, .save (Vector.replicate 12 7) [1], .rotate,
          .readAll (Vector.replicate 12 7)] = (answers, violation, session) ∧
        performAll ⟨holding 1 4 unwritten, none⟩ [.mount ⟨0, 128, 128⟩, .save (Vector.replicate 12 7) [1], .rotate,
          .readAll (Vector.replicate 12 7)] = (answers, violation, twin) ∧
        twin.store = session.store ∧ Mirrors session.medium twin.medium := by
  have mirrors : Mirrors unwritten (holding 1 4 unwritten) :=
    mirrors_holding (by decide) (by decide) rfl (by decide) (by decide) (by decide)
  have stops : (Medium.accessAll unwritten crossing).1.map Fetch.stop =
      [none, none, none, none, none, some (.error .misaligned)] := by rfl
  obtain ⟨calls, stores⟩ := mirrors.interchangeable
  refine ⟨(calls crossing ?_).1, stores ⟨0, 128, 128⟩ unwritten_fits _ (fun other member => by simp at member)⟩
  intro reply member violation halted
  have listed : reply.stop ∈ (Medium.accessAll unwritten crossing).1.map Fetch.stop := List.mem_map_of_mem member
  rw [stops, halted] at listed
  simp at listed

end Crossing

end NorWords

end TwinLog
