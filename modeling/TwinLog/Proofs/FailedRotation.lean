import TwinLog.Proofs.MapRefinement
import TwinLog.Proofs.Scars
import TwinLog.Proofs.SingleFault

set_option autoImplicit false

namespace TwinLog

namespace Session

variable {μ : Type} [Medium μ]

/-- How a call fails inside a rotation, one that was asked for or the one that a save makes. -/
inductive RotationFails (session : Session μ) : Session μ → Prop
  | rotate {store left : Store} {after : μ} (error : MediumError) (kept index : Nat)
      (mounted : session.store = some store)
      (failed : store.rotate.runFailing error kept index store session.medium =
        ⟨.error (.error (.medium error)), left, after⟩) :
      RotationFails session ⟨after, some left⟩
  | save {store placed left : Store} {between after : μ} (error : MediumError) (kept index : Nat)
      (mounted : session.store = some store) (ufid : Ufid) (data : List UInt8)
      (tight : (store.place ufid data).run store session.medium = ⟨.ok false, placed, between⟩)
      (inside : index < store.rotate.calls between)
      (failed : (store.save ufid data).runFailing error kept
        ((store.place ufid data).calls session.medium + index) store session.medium =
          ⟨.error (.error (.medium error)), left, after⟩) :
      RotationFails session ⟨after, some left⟩

/-- Whether the medium can be mounted again, with every file as in `files`. -/
def Remounts (session : Session μ) (geometry : Geometry) (files : Files) : Prop :=
  ∃ remounted, session.perform (.mount geometry) = (.ok .done, remounted) ∧
    ∀ ufid, (remounted.perform (.readAll ufid)).1 = .ok (files.reading ufid)

theorem Remounts.unique {session : Session μ} {geometry : Geometry} {files files' : Files}
    (remounts : session.Remounts geometry files) (also : session.Remounts geometry files') : files = files' := by
  obtain ⟨remounted, mounted, reads⟩ := remounts
  obtain ⟨again, mounted', reads'⟩ := also
  rw [mounted, Prod.mk.injEq] at mounted'
  obtain ⟨-, rfl⟩ := mounted'
  refine Files.reading_injective fun ufid => ?_
  exact Except.ok.inj ((reads ufid).symm.trans (reads' ufid))

variable [LawfulMedium μ] {partition : Partition} {session failed : Session μ} {store : Store} {records : List Record}
  {before : Files} {parted : Prop}

/-- Whether the next mount takes another log than the store works on. -/
def Parted (partition : Partition) (session : Session μ) : Prop :=
  ∃ store, session.store = some store ∧ (partition.contents session.medium).inUse ≠ some store.active

/-- A session of which the store, if it has `parted` from the log in use, has left that with the files `before`. -/
structure Apart (partition : Partition) (session : Session μ) (store : Store) (records : List Record)
    (before : Files) (parted : Prop) : Prop where
  serving : session.Serving partition store [] records
  backed : Record.Backed records
  used : (partition.contents session.medium).inUse = some store.active ∨
    parted ∧ (partition.contents session.medium).inUse = some store.active.other ∧
      Store.Survives partition [] (partition.contents session.medium) before

/-- A store that parted from the log in use leaves that alone, until it rotates and is with it again. -/
theorem Apart.advance (apart : session.Apart partition store records before parted) (request : Request)
    (other : ∀ geometry, request ≠ .mount geometry) :
    ∃ answer after left kept, session.perform request = (.ok answer, after) ∧
      after.Apart partition left kept before parted ∧
      (Record.files records).Step True request answer (Record.files kept) := by
  obtain ⟨serving, backed, used⟩ := apart
  obtain ⟨answer, after, left, kept, performed, moved, serving', backed', step⟩ := serving.advance backed request other
  refine ⟨answer, after, left, kept, performed, ⟨serving', backed', ?_⟩, step⟩
  rcases used with here | ⟨away, there, log, free, older, elsewhere, inOrder, files⟩
  · exact .inl (inUse_of_becomes moved here)
  · cases moved with
    | turns _ active marked unmarked =>
        left
        refine Contents.inUse_only marked ?_
        rw [active, Log.other_other]
        exact unmarked
    | stays _ active stays =>
        have still := stays.inUse
        rw [there, Option.some.injEq] at elsewhere
        subst elsewhere
        rw [active]
        refine .inr ⟨away, still.trans there, store.active.other, free, older, still.trans there, ?_, files⟩
        exact inOrder.congr (fun position _ => congrFun stays.other position)

theorem Current.rotate_leaves (current : session.Current partition store records) {medium after : μ} {left : Store}
    {error : MediumError} {kept index : Nat} (fits : partition.Fits medium)
    (same : partition.contents medium = partition.contents session.medium)
    (failed : store.rotate.runFailing error kept index store medium =
      ⟨.error (.error (.medium error)), left, after⟩) :
    ∃ kept, Apart partition ⟨after, some left⟩ left kept (Record.files records)
        (Parted partition ⟨after, some left⟩) ∧
      Record.files kept = Record.files records := by
  obtain ⟨⟨-, rfl, -, inOrder⟩, backed, used⟩ := current
  have listed := inOrder.listed (Tape.harmless_nil _)
  have unique := inOrder.unique
  have achieved : store.partition.Achieves (fun _ _ _ => True)
      (fun _ left current =>
        left = store ∧ store.Rotating (store.partition.contents session.medium) records current ∨
          store.Rotated records left current)
      store.rotate store (store.partition.contents session.medium) := by
    refine Partition.achieves_rotate listed inOrder.settled.positive inOrder.room unique ?_ ?_
    · intro torn current rotating
      exact .inl ⟨rfl, rotating⟩
    · intro rotated current turn
      exact ⟨.inr turn, trivial⟩
  obtain ⟨torn, fits', outcome⟩ := (achieved μ medium fits same).failing error kept index
  rw [failed] at fits' outcome
  rcases outcome with ⟨rfl, rotating⟩ | turn
  · refine ⟨records, ⟨⟨rfl, rfl, fits', inOrder.congr (fun position late => rotating.kept late)⟩, backed, ?_⟩, rfl⟩
    rcases rotating.inUse used with ⟨still, -⟩ | ⟨turned, free, room, settled⟩
    · exact .inl still
    · refine .inr ⟨⟨_, rfl, ?_⟩, turned, _, free, _, turned,
        ⟨settled, room, unique.live⟩, Record.files_live unique.ufids⟩
      rw [turned, Ne, Option.some.injEq]
      exact left.active.other_ne
  · exact ⟨Record.live records, ⟨⟨rfl, turn.partition, fits', turn.inOrder unique⟩, Record.backed_live unique,
      .inl turn.inUse⟩, Record.files_live unique.ufids⟩

theorem Current.unplaced (current : session.Current partition store records) {ufid : Ufid} {data : List UInt8}
    (small : data.length ≤ maxFileSize) {placed : Store} {between : μ}
    (tight : (store.place ufid data).run store session.medium = ⟨.ok false, placed, between⟩) :
    placed = store ∧ partition.Fits between ∧ partition.contents between = partition.contents session.medium := by
  obtain ⟨⟨-, rfl, fits, inOrder⟩, -, -⟩ := current
  have placing : store.partition.Achieves
      (fun value left current => value = .ok false →
        left = store ∧ current = store.partition.contents session.medium)
      (fun _ _ _ => True) (store.place ufid data) store (store.partition.contents session.medium) := by
    refine Partition.achieves_place inOrder.room small ?_ ?_ trivial
      (fun _ _ _ _ _ _ _ => trivial) (fun _ refused => by cases refused) (fun _ _ _ placed => by cases placed)
      (fun _ _ _ _ => ⟨rfl, rfl⟩)
    · intro position late
      exact inOrder.settled.clear position (Nat.le_of_lt late)
    · exact fun _ _ _ _ => Block.takes_of_blank (inOrder.settled.clear store.free (Nat.le_refl _)) _
  have ended := (placing μ session.medium fits rfl).ends
  rw [tight] at ended
  obtain ⟨fits', unplaced⟩ := ended
  exact ⟨(unplaced rfl).1, fits', (unplaced rfl).2⟩

/-- A rotation that fails leaves the store with its files, and the log in use with the same. -/
theorem Current.rotation_fails (current : session.Current partition store records)
    (fails : session.RotationFails failed) :
    ∃ left kept, failed.Apart partition left kept (Record.files records) (failed.Parted partition) ∧
      Record.files kept = Record.files records := by
  have mounted := current.serving.mounted
  cases fails with
  | rotate error kept index knows failed =>
      rw [mounted, Option.some.injEq] at knows
      subst knows
      obtain ⟨kept, apart, files⟩ := current.rotate_leaves current.serving.fits rfl failed
      exact ⟨_, kept, apart, files⟩
  | save error kept index knows ufid data tight inside failed =>
      rw [mounted, Option.some.injEq] at knows
      subst knows
      rw [Store.save] at failed
      split at failed
      · cases failed
      · rename_i large
        obtain ⟨rfl, fits', same⟩ := current.unplaced (Nat.le_of_not_lt large) tight
        rw [Script.runFailing_bind, tight] at failed
        obtain ⟨kept, apart, files⟩ := current.rotate_leaves fits' same (Script.runFailing_bind_first inside failed)
        exact ⟨_, kept, apart, files⟩

/-- Mounting finds the files that the log in use stands for. -/
theorem remounts_of_survives (fits : partition.Fits session.medium) {files : Files}
    (survives : Store.Survives partition [] (partition.contents session.medium) files) :
    session.Remounts partition.geometry files := by
  obtain ⟨log, free, records, used, inOrder, rfl⟩ := survives
  obtain ⟨after, mounted, fits', same⟩ := mount_used fits used inOrder.knows
  refine ⟨_, mounted, fun ufid => ?_⟩
  have serving : Serving partition ⟨after, some ⟨partition, log, free⟩⟩ ⟨partition, log, free⟩ [] records :=
    ⟨rfl, rfl, fits', same ▸ inOrder⟩
  obtain ⟨answer, left, medium, files, performed, -, -, step⟩ :=
    serving.perform (Tape.harmless_nil _) (.readAll ufid) (fun geometry mount => by cases mount)
  rw [performed, step.reading]

/-- What a failed rotation comes to. After any history in which nothing had failed, one call fails inside a rotation;
whatever is asked of the store from then on is answered as by a map that goes on from the files it had. When the
medium is mounted again, those files are found that the store ended with, if the log in use is the one that it worked
on, and otherwise those from before the failure; so the store's files are found if and only if it worked on the log in
use or had changed nothing. The two logs can only differ at the end if they did right after the failure. -/
theorem failedRotation_remounts {medium : μ} {geometry : Geometry}
    (fits : Partition.Fits ⟨Medium.polarity medium, geometry⟩ medium)
    (unmarked : ∀ log, (Partition.contents ⟨Medium.polarity medium, geometry⟩ medium).marked log = false)
    (earlier later : List Request) (same : ∀ other, .mount other ∈ earlier → other = geometry)
    (mounted : ∀ other, .mount other ∉ later) {answers : List Answer}
    (reached : Session.performAll ⟨medium, none⟩ (.mount geometry :: earlier) = (answers, none, session))
    (fails : session.RotationFails failed) :
    ∃ files answers' last files',
      Files.Run True Files.empty (.mount geometry :: earlier) answers files ∧
      failed.performAll later = (answers', none, last) ∧ Files.Run True files later answers' files' ∧
      (last.Parted ⟨Medium.polarity medium, geometry⟩ → failed.Parted ⟨Medium.polarity medium, geometry⟩) ∧
      (last.Parted ⟨Medium.polarity medium, geometry⟩ → last.Remounts geometry files) ∧
      (last.Remounts geometry files' ↔ ¬ last.Parted ⟨Medium.polarity medium, geometry⟩ ∨ files' = files) := by
  obtain ⟨_, _, store, records, performed, current, run⟩ := performAll_unmarked fits unmarked earlier same
  rw [reached] at performed
  obtain ⟨rfl, -, rfl⟩ : _ ∧ _ ∧ _ := by simpa only [Prod.mk.injEq] using performed
  obtain ⟨left, kept, apart, unchanged⟩ := current.rotation_fails fails
  obtain ⟨answers', last, _, performed, ⟨handle, now, apart', rfl⟩, run'⟩ := @performAll_of_step _ _ failed
    (fun session files => ∃ store kept, session.Apart ⟨Medium.polarity medium, geometry⟩ store kept
      (Record.files records) (failed.Parted ⟨Medium.polarity medium, geometry⟩) ∧ files = Record.files kept) later
    (by
      rintro session files request member ⟨store, kept, apart, rfl⟩
      obtain ⟨answer, after, left, kept', performed, apart', step⟩ :=
        apart.advance request (fun geometry mount => mounted geometry (by rw [← mount]; exact member))
      exact ⟨answer, after, _, performed, ⟨left, kept', apart', rfl⟩, step⟩) _ ⟨left, kept, apart, rfl⟩
  rw [unchanged] at run'
  have fits' := apart'.serving.fits
  -- the remount takes a log that the store has left, with the files from before the failure
  have split (away : last.Parted ⟨Medium.polarity medium, geometry⟩) :
      failed.Parted ⟨Medium.polarity medium, geometry⟩ ∧ last.Remounts geometry (Record.files records) := by
    obtain ⟨store, knows, differs⟩ := away
    rw [apart'.serving.mounted, Option.some.injEq] at knows
    subst knows
    rcases apart'.used with here | ⟨parted, -, survives⟩
    · exact absurd here differs
    · exact ⟨parted, remounts_of_survives fits' survives⟩
  -- the remount takes the log that the store works on
  have together (near : ¬ last.Parted ⟨Medium.polarity medium, geometry⟩) :
      last.Remounts geometry (Record.files now) := by
    have used : (Partition.contents ⟨Medium.polarity medium, geometry⟩ last.medium).inUse = some handle.active := by
      by_contra differs
      exact near ⟨handle, apart'.serving.mounted, differs⟩
    obtain ⟨partition, active, free⟩ := handle
    have inOrder := apart'.serving.inOrder
    obtain rfl : partition = _ := apart'.serving.same
    exact remounts_of_survives fits' ⟨active, free, now, used, inOrder, rfl⟩
  refine ⟨_, answers', last, _, run, performed, run', fun away => (split away).1, fun away => (split away).2, ?_, ?_⟩
  · intro remounts
    by_cases away : last.Parted ⟨Medium.polarity medium, geometry⟩
    · exact .inr (remounts.unique (split away).2)
    · exact .inl away
  · intro either
    by_cases away : last.Parted ⟨Medium.polarity medium, geometry⟩
    · rw [either.resolve_left (fun near => near away)]
      exact (split away).2
    · exact together away

section MarkerFails

set_option maxRecDepth 8192

def secondLog : Session Simulated :=
  (performAll ⟨unwritten, none⟩
    [.mount ⟨0, 128, 128⟩, .rotate, .save (Vector.replicate 12 7) [1]]).2.2

theorem performAll_secondLog :
    performAll ⟨unwritten, none⟩ [.mount ⟨0, 128, 128⟩, .rotate, .save (Vector.replicate 12 7) [1]] =
      ([.done, .done, .done], none, secondLog) := by
  rfl

def rotationMarked : Outcome Store Simulated Store :=
  Script.runFailing .device 1 (Store.rotate ⟨⟨.ones, ⟨0, 128, 128⟩⟩, .b, 3⟩) 8 ⟨⟨.ones, ⟨0, 128, 128⟩⟩, .b, 3⟩
    secondLog.medium

def markedTwice : Session Simulated :=
  ⟨rotationMarked.medium, some rotationMarked.state⟩

theorem rotationFails_markedTwice : secondLog.RotationFails markedTwice := by
  have ended : rotationMarked.result = .error (.error (.medium .device)) := by decide +kernel
  have failed : rotationMarked =
      ⟨.error (.error (.medium .device)), rotationMarked.state, rotationMarked.medium⟩ := by
    rw [← ended]
  exact @RotationFails.rotate _ _ secondLog ⟨⟨.ones, ⟨0, 128, 128⟩⟩, .b, 3⟩ _ _ .device 1 8 (by rfl) failed

/-- A save that is acknowledged after such a failure is lost when the medium is mounted again. -/
theorem failedRotation_loses_save :
    performAll ⟨unwritten, none⟩ [.mount ⟨0, 128, 128⟩, .rotate, .save (Vector.replicate 12 7) [1]] =
        ([.done, .done, .done], none, secondLog) ∧ secondLog.RotationFails markedTwice ∧
      (markedTwice.performAll [.save (Vector.replicate 12 7) [2], .mount ⟨0, 128, 128⟩,
        .readAll (Vector.replicate 12 7)]).1 = [.done, .done, .content [1]] :=
  ⟨performAll_secondLog, rotationFails_markedTwice, by rfl⟩

/-- What a failed rotation comes to, where the store saves once more after it. -/
theorem failedRotation_remounts_markedTwice :
    ∃ files answers' last files',
      Files.Run True Files.empty [.mount ⟨0, 128, 128⟩, .rotate, .save (Vector.replicate 12 7) [1]]
        [.done, .done, .done] files ∧
      markedTwice.performAll [.save (Vector.replicate 12 7) [2]] = (answers', none, last) ∧
      Files.Run True files [.save (Vector.replicate 12 7) [2]] answers' files' ∧
      (last.Parted ⟨.ones, ⟨0, 128, 128⟩⟩ → markedTwice.Parted ⟨.ones, ⟨0, 128, 128⟩⟩) ∧
      (last.Parted ⟨.ones, ⟨0, 128, 128⟩⟩ → last.Remounts ⟨0, 128, 128⟩ files) ∧
      (last.Remounts ⟨0, 128, 128⟩ files' ↔ ¬ last.Parted ⟨.ones, ⟨0, 128, 128⟩⟩ ∨ files' = files) := by
  refine @failedRotation_remounts Simulated _ _ secondLog markedTwice unwritten ⟨0, 128, 128⟩ unwritten_fits ?_
    [.rotate, .save (Vector.replicate 12 7) [1]] [.save (Vector.replicate 12 7) [2]] ?_ ?_ _ performAll_secondLog
    rotationFails_markedTwice
  · intro log
    cases log <;> decide
  · intro other member
    simp at member
  · intro other member
    simp at member

end MarkerFails

end Session

end TwinLog
