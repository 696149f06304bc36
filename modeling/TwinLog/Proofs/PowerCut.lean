import TwinLog.Proofs.MapRefinement
import TwinLog.Proofs.Scars

set_option autoImplicit false

/-!
Power cuts. A run is a sequence of events: a request is answered, or the power fails in the middle of it and the next
thing to be done is to mount the medium again. As long as no scar passes for a record, the files are at any time those
of a map in which every request that was answered took effect, and each one that was cut short took effect or did not.
-/

namespace TwinLog

/-- What happens to a store: a request is answered, or the power fails in the middle of it. -/
inductive Event where
  | answered (request : Request) (answer : Answer)
  | cut (request : Request)

/-- What an event may do to the files. A request that is cut short takes its whole effect or none. -/
inductive Files.Effect (files : Files) : Event → Files → Prop
  | answered {request : Request} {answer : Answer} {after : Files} (step : files.Step False request answer after) :
      Effect files (.answered request answer) after
  | nothing (request : Request) : Effect files (.cut request) files
  | saved (ufid : Ufid) (data : List UInt8) : Effect files (.cut (.save ufid data)) (files.set ufid data)
  | savedValue {ufid : Ufid} {payload : Payload} {bytes : List UInt8} (encoded : payload.encode? = some bytes) :
      Effect files (.cut (.saveValue ufid payload)) (files.set ufid bytes)
  | removed (ufid : Ufid) : Effect files (.cut (.remove ufid)) (files.erase ufid)

namespace Session

variable {μ : Type} [Medium μ]

/-- Whether a request can be made: of a mounted store, or to mount the medium in the layout that it has. -/
def Allows (partition : Partition) (session : Session μ) : Request → Prop
  | .mount geometry => geometry = partition.geometry
  | _ => session.store.isSome = true

/-- The medium that a power cut in the middle of a request leaves, whether it has torn a write, and what the store
knew, which is nothing while it is being mounted. -/
inductive Stops (session : Session μ) : Request → Bool → Option Store → μ → Prop
  | mount {geometry : Geometry} {torn : Bool} {medium : μ}
      (stopped : Script.Interrupted
        (Store.mount (Medium.polarity session.medium) (Medium.pageSize session.medium) geometry) ()
        session.medium torn () medium) :
      Stops session (.mount geometry) torn none medium
  | save {store left : Store} {ufid : Ufid} {data : List UInt8} {torn : Bool} {medium : μ}
      (mounted : session.store = some store)
      (stopped : (store.save ufid data).Interrupted store session.medium torn left medium) :
      Stops session (.save ufid data) torn (some left) medium
  | remove {store left : Store} {ufid : Ufid} {torn : Bool} {medium : μ} (mounted : session.store = some store)
      (stopped : (store.remove ufid).Interrupted store session.medium torn left medium) :
      Stops session (.remove ufid) torn (some left) medium
  | rotate {store left : Store} {torn : Bool} {medium : μ} (mounted : session.store = some store)
      (stopped : store.rotate.Interrupted store session.medium torn left medium) :
      Stops session .rotate torn (some left) medium
  | size {store left : Store} {ufid : Ufid} {torn : Bool} {medium : μ} (mounted : session.store = some store)
      (stopped : (store.size ufid).Interrupted store session.medium torn left medium) :
      Stops session (.size ufid) torn (some left) medium
  | contains {store left : Store} {ufid : Ufid} {torn : Bool} {medium : μ} (mounted : session.store = some store)
      (stopped : (store.contains ufid).Interrupted store session.medium torn left medium) :
      Stops session (.contains ufid) torn (some left) medium
  | readAll {store left : Store} {ufid : Ufid} {torn : Bool} {medium : μ} (mounted : session.store = some store)
      (stopped : (store.readAll ufid).Interrupted store session.medium torn left medium) :
      Stops session (.readAll ufid) torn (some left) medium
  | readInto {store : Store} {ufid : Ufid} {buffer copied : List UInt8} {torn : Bool} {medium : μ}
      (mounted : session.store = some store)
      (stopped : (store.readInto ufid buffer).Interrupted buffer session.medium torn copied medium) :
      Stops session (.readInto ufid buffer) torn (some store) medium
  | saveValue {store left : Store} {ufid : Ufid} {payload : Payload} {torn : Bool} {medium : μ}
      (mounted : session.store = some store)
      (stopped : (store.saveValue ufid payload).Interrupted store session.medium torn left medium) :
      Stops session (.saveValue ufid payload) torn (some left) medium
  | loadValue {store left : Store} {ufid : Ufid} {shape : Shape} {torn : Bool} {medium : μ}
      (mounted : session.store = some store)
      (stopped : (store.loadValue ufid shape).Interrupted store session.medium torn left medium) :
      Stops session (.loadValue ufid shape) torn (some left) medium

end Session

/-- A session, and where interrupted writes have left their marks on the log in use. -/
structure Situation (μ : Type) where
  session : Session μ
  scars : List Nat

namespace Situation

variable {μ : Type} [Medium μ] [LawfulMedium μ]

def contents (partition : Partition) (situation : Situation μ) : Contents :=
  partition.contents situation.session.medium

/-- Whether no block whose write was torn, and no chain of which only some blocks were appended, passes its check. -/
def Harmless (partition : Partition) (situation : Situation μ) : Prop :=
  ∀ store, situation.session.store = some store → (store.tape (situation.contents partition)).Harmless situation.scars

def answered (partition : Partition) (situation : Situation μ) (after : Session μ) : Situation μ :=
  ⟨after, (situation.contents partition).carried (partition.contents after.medium) situation.scars⟩

def cut (partition : Partition) (situation : Situation μ) (torn : Bool) (left : Option Store) (medium : μ) :
    Situation μ :=
  ⟨⟨medium, none⟩, match left with
    | some store =>
        store.scarsAfter torn (situation.contents partition) (partition.contents medium) situation.scars
    | none => (situation.contents partition).carried (partition.contents medium) situation.scars⟩

inductive Happens (partition : Partition) (situation : Situation μ) : Event → Situation μ → Prop
  | answered {request : Request} {answer : Answer} {after : Session μ}
      (allowed : situation.session.Allows partition request)
      (performed : situation.session.perform request = (.ok answer, after)) :
      Happens partition situation (.answered request answer) (situation.answered partition after)
  | cut {request : Request} {torn : Bool} {left : Option Store} {medium : μ}
      (allowed : situation.session.Allows partition request)
      (stopped : situation.session.Stops request torn left medium) :
      Happens partition situation (.cut request) (situation.cut partition torn left medium)

/-- Events one after the other, each with the situation after it. -/
inductive Run (partition : Partition) : Situation μ → List (Event × Situation μ) → Prop
  | nil (situation : Situation μ) : Run partition situation []
  | cons {situation after : Situation μ} {event : Event} {later : List (Event × Situation μ)}
      (happens : situation.Happens partition event after) (rest : Run partition after later) :
      Run partition situation ((event, after) :: later)

/-- Whether every request that can be made is answered as it is where there are `files`. -/
def Shows (partition : Partition) (situation : Situation μ) (files : Files) : Prop :=
  ∀ request, situation.session.Allows partition request → ∃ answer after files',
    situation.session.perform request = (.ok answer, after) ∧ files.Step False request answer files'

/-- Whether, from `files` on, every event of a run has a possible effect on the files, and what is read after it is
what the files are then. -/
inductive Atomic (partition : Partition) : Files → List (Event × Situation μ) → Prop
  | nil (files : Files) : Atomic partition files []
  | cons {files files' : Files} {event : Event} {situation : Situation μ} {later : List (Event × Situation μ)}
      (effect : files.Effect event files') (shows_files : situation.Shows partition files')
      (rest : Atomic partition files' later) : Atomic partition files ((event, situation) :: later)

/-- Whether a situation is in order, and which files it has: no log is in use yet, or the one in use is in order apart
from its scars, and a mounted store knows it. -/
inductive Good (partition : Partition) (situation : Situation μ) : Files → Prop
  | unused (fits : partition.Fits situation.session.medium) (nowhere : (situation.contents partition).inUse = none)
      (unmounted : situation.session.store = none) (clean : situation.scars = []) :
      Good partition situation Files.empty
  | used (fits : partition.Fits situation.session.medium) {log : Log} {free : Nat} {records : List Record}
      (here : (situation.contents partition).inUse = some log)
      (inOrder : Store.InOrder ⟨partition, log, free⟩ situation.scars (situation.contents partition) records)
      (known : situation.session.store = none ∨ situation.session.store = some ⟨partition, log, free⟩) :
      Good partition situation (Record.files records)

end Situation

theorem Files.Step.mono {strict weaker : Prop} (implied : weaker → strict) {files after : Files} {request : Request}
    {answer : Answer} (step : files.Step strict request answer after) : files.Step weaker request answer after := by
  induction step with
  | removed ufid present => exact .removed ufid (fun holds => present (implied holds))
  | mount geometry => exact .mount geometry
  | saved ufid data => exact .saved ufid data
  | refused ufid data error reason => exact .refused ufid data error reason
  | missing ufid absent => exact .missing ufid absent
  | rotated => exact .rotated
  | size present => exact .size present
  | noSize absent => exact .noSize absent
  | contains ufid => exact .contains ufid
  | content present => exact .content present
  | noContent absent => exact .noContent absent
  | copied present buffer => exact .copied present buffer
  | notCopied absent buffer => exact .notCopied absent buffer
  | usage usage => exact .usage usage
  | savedValue encoded _ ih => exact .savedValue encoded ih
  | notEncoded stream => exact .notEncoded stream
  | loaded present decoded => exact .loaded present decoded
  | notDecoded present invalid => exact .notDecoded present invalid
  | notLoaded absent shape => exact .notLoaded absent shape

namespace Situation

variable {μ : Type} [Medium μ] [LawfulMedium μ] {partition : Partition} {situation : Situation μ} {files : Files}

theorem Good.mounted (good : situation.Good partition files) {store : Store}
    (mounted : situation.session.store = some store) :
    ∃ records, store.partition = partition ∧ partition.Fits situation.session.medium ∧
      (situation.contents partition).inUse = some store.active ∧
      store.InOrder situation.scars (situation.contents partition) records ∧ Record.files records = files := by
  cases good with
  | unused fits nowhere unmounted clean =>
      rw [unmounted] at mounted
      cases mounted
  | @used fits log free records here inOrder known =>
      rcases known with unmounted | knows
      · rw [unmounted] at mounted
        cases mounted
      · rw [knows, Option.some.injEq] at mounted
        subst mounted
        exact ⟨records, rfl, fits, here, inOrder, rfl⟩

/-- Every request that can be made in a situation in order is answered, and leaves one. -/
theorem Good.perform (good : situation.Good partition files) (harmless : situation.Harmless partition)
    {request : Request} (allowed : situation.session.Allows partition request) :
    ∃ answer after files', situation.session.perform request = (.ok answer, after) ∧
      files.Step False request answer files' ∧ (situation.answered partition after).Good partition files' := by
  by_cases mounts : ∃ geometry, request = .mount geometry
  · obtain ⟨geometry, rfl⟩ := mounts
    obtain rfl : geometry = partition.geometry := allowed
    cases good with
    | unused fits nowhere unmounted clean =>
        obtain ⟨after, performed, fits', here, inOrder⟩ := Session.mount_fresh fits nowhere
        refine ⟨_, _, _, performed, .mount _, ?_⟩
        refine @Good.used _ _ _ partition _ fits' .a 1 [] here ?_ (.inr rfl)
        rw [answered, Contents.carried, clean, ite_self]
        exact inOrder
    | @used fits log free records here inOrder known =>
        obtain ⟨after, performed, fits', unchanged⟩ := Session.mount_used fits here inOrder.knows
        refine ⟨_, _, _, performed, .mount _, ?_⟩
        have same : (situation.answered partition ⟨after, some ⟨partition, log, free⟩⟩).contents partition =
            situation.contents partition := unchanged
        refine @Good.used _ _ _ partition _ fits' log free records ?_ ?_ (.inr rfl)
        · rw [same]
          exact here
        · rw [same]
          have scars : (situation.answered partition ⟨after, some ⟨partition, log, free⟩⟩).scars = situation.scars :=
            if_pos (congrArg Contents.inUse unchanged)
          rw [scars]
          exact inOrder
  · have mounted : situation.session.store.isSome = true := by
      cases request with
      | mount geometry => exact absurd ⟨geometry, rfl⟩ mounts
      | _ => exact allowed
    obtain ⟨store, knows⟩ := Option.isSome_iff_exists.mp mounted
    obtain ⟨records, rfl, fits, here, inOrder, rfl⟩ := good.mounted knows
    have serving : situation.session.Serving store.partition store situation.scars records :=
      ⟨knows, rfl, fits, inOrder⟩
    obtain ⟨answer, left, after, files', performed, fits', ⟨scars, kept, moved, order, rfl, -⟩, step⟩ :=
      serving.perform (harmless _ knows) request (fun geometry mount => mounts ⟨geometry, mount⟩)
    have inUse := Session.inUse_of_becomes moved here
    have same : left.partition = store.partition := by
      cases moved with
      | stays same => exact same
      | turns same => exact same
    -- the scars stay behind in a log that is turned away from
    have carried : (situation.contents store.partition).carried (store.partition.contents after) situation.scars =
        scars := by
      cases moved with
      | stays _ active stays => exact if_pos stays.inUse
      | turns _ active marked unmarked =>
          refine if_neg ?_
          rw [inUse, here, active, Option.some.injEq]
          exact store.active.other_ne
    refine ⟨answer, _, _, performed, step.mono False.elim, ?_⟩
    obtain ⟨_, active, last⟩ := left
    subst same
    refine @Good.used _ _ _ _ _ fits' active last kept inUse ?_ (.inr rfl)
    rw [answered, carried]
    exact order

end Situation

namespace Store

/-- What a power cut in the middle of a request leaves of a store in order: a log in order, in which the request took
effect or not. -/
def Endures (store : Store) (scars : List Nat) (contents : Contents) (records : List Record) (request : Request)
    (torn : Bool) (left : Store) (current : Contents) : Prop :=
  ∃ files, Survives store.partition (left.scarsAfter torn contents current scars) current files ∧
    (Record.files records).Effect (.cut request) files

variable {σ : Type} {store : Store} {scars : List Nat} {contents current : Contents} {records kept : List Record}
  {ufid : Ufid} {data : List UInt8}

theorem Trimmed.endures (trimmed : store.Trimmed scars contents records current kept)
    (used : contents.inUse = some store.active) (request : Request) (torn : Bool) :
    store.Endures scars contents records request torn store current := by
  have still := trimmed.stays.inUse
  refine ⟨Record.files records, ?_, .nothing request⟩
  rw [← trimmed.files]
  refine InOrder.survives ?_ (still.trans used) torn
  rw [Contents.carried, if_pos still]
  exact trimmed.inOrder

variable (inOrder : store.InOrder scars contents records) (harmless : (store.tape contents).Harmless scars)
  (used : contents.inUse = some store.active)
include inOrder harmless used

theorem endures_save (request : Request)
    (effect : (Record.files records).Effect (.cut request) ((Record.files records).set ufid data)) :
    store.partition.Achieves (fun _ _ _ => True) (store.Endures scars contents records request) (store.save ufid data)
      store contents := by
  refine Partition.achieves_save_inOrder inOrder harmless ?_ (fun _ _ _ _ => trivial)
  intro torn left current saving
  obtain ⟨files, survives, rfl | rfl⟩ := saving.survives inOrder harmless used
  · exact ⟨_, survives, .nothing request⟩
  · exact ⟨_, survives, effect⟩

theorem endures_rotate :
    store.partition.Achieves (fun _ _ _ => True) (store.Endures scars contents records .rotate) store.rotate store
      contents := by
  have listed := inOrder.listed harmless
  refine Partition.achieves_rotate listed inOrder.settled.positive inOrder.room inOrder.unique ?_ ?_
  · intro torn current rotating
    exact ⟨_, rotating.survives inOrder used torn, .nothing _⟩
  · intro rotated after turn
    refine ⟨⟨_, ?_, .nothing _⟩, trivial⟩
    rw [← Record.files_live inOrder.unique.ufids, ← turn.partition]
    refine InOrder.survives ?_ turn.inUse false
    have apart : after.inUse ≠ contents.inUse := by
      rw [turn.inUse, turn.active, used, Ne, Option.some.injEq]
      exact store.active.other_ne
    rw [Contents.carried, if_neg apart]
    exact turn.inOrder inOrder.unique

theorem endures_remove :
    store.partition.Achieves (fun _ _ _ => True) (store.Endures scars contents records (.remove ufid))
      (store.remove ufid) store contents := by
  have here (torn : Bool) := inOrder.trimmed.endures used (.remove ufid) torn
  refine Partition.achieves_remove inOrder harmless here ?_ (fun _ => trivial)
  intro after kept _ order _ files stays
  refine ⟨⟨_, ?_, .removed ufid⟩, trivial⟩
  rw [← files]
  refine InOrder.survives ?_ (stays.inUse.trans used) false
  rw [Contents.carried, if_pos stays.inUse]
  exact order

theorem endures_size :
    store.partition.Achieves (fun _ _ _ => True) (store.Endures scars contents records (.size ufid)) (store.size ufid)
      store contents :=
  Partition.achieves_size ((inOrder.readable harmless).legible ufid)
    (fun torn _ ⟨_, trimmed⟩ => trimmed.endures used _ torn) (fun _ _ _ _ => trivial) (fun _ _ _ => trivial)

theorem endures_contains :
    store.partition.Achieves (fun _ _ _ => True) (store.Endures scars contents records (.contains ufid))
      (store.contains ufid) store contents :=
  Partition.achieves_contains ((inOrder.readable harmless).legible ufid)
    (fun torn _ ⟨_, trimmed⟩ => trimmed.endures used _ torn) (fun _ _ => trivial)

theorem endures_readAll (request : Request) :
    store.partition.Achieves (fun _ left current => store.Endures scars contents records request false left current)
      (store.Endures scars contents records request) (store.readAll ufid) store contents :=
  Partition.achieves_readAll ((inOrder.readable harmless).legible ufid)
    (fun torn _ ⟨_, trimmed⟩ => trimmed.endures used _ torn)
    (fun _ _ ⟨_, trimmed⟩ _ => trimmed.endures used _ false) (fun _ ⟨_, trimmed⟩ _ => trimmed.endures used _ false)

theorem endures_readInto (buffer : List UInt8) :
    store.partition.Achieves (fun _ _ _ => True)
      (fun torn _ current => store.Endures scars contents records (.readInto ufid buffer) torn store current)
      (store.readInto ufid buffer) buffer contents :=
  Partition.achieves_readInto ((inOrder.readable harmless).legible ufid) buffer
    (fun torn _ _ ⟨_, trimmed⟩ => trimmed.endures used _ torn) (fun _ _ _ _ => trivial) (fun _ _ _ => trivial)

theorem endures_saveValue (payload : Payload) :
    store.partition.Achieves (fun _ _ _ => True) (store.Endures scars contents records (.saveValue ufid payload))
      (store.saveValue ufid payload) store contents := by
  rw [saveValue]
  split
  · rename_i bytes encoded
    exact endures_save inOrder harmless used _ (.savedValue encoded)
  · exact Partition.achieves_fail (inOrder.trimmed.endures used _ false) trivial

theorem endures_loadValue (shape : Shape) :
    store.partition.Achieves (fun _ _ _ => True) (store.Endures scars contents records (.loadValue ufid shape))
      (store.loadValue ufid shape) store contents := by
  refine Partition.Achieves.bind ((endures_readAll inOrder harmless used _).mono ?_ (fun _ _ _ endures => endures))
  intro value left current endures
  cases value with
  | error error => trivial
  | ok bytes =>
      simp only
      split
      · exact Partition.achieves_pure endures trivial
      · exact Partition.achieves_fail endures trivial

end Store

namespace Situation

variable {μ : Type} [Medium μ] [LawfulMedium μ] {partition : Partition} {situation : Situation μ} {files : Files}

/-- A medium on which the log in use survives can be mounted again. -/
theorem Good.survived {scars : List Nat} {medium : μ} (fits : partition.Fits medium)
    (survives : Store.Survives partition scars (partition.contents medium) files) :
    Good partition ⟨⟨medium, none⟩, scars⟩ files := by
  obtain ⟨log, free, records, here, inOrder, rfl⟩ := survives
  exact @Good.used _ _ _ partition _ fits log free records here inOrder (.inl rfl)

/-- A power cut while the medium is being mounted leaves it as it was, or where no log was in use, without one still or
with the first one, which is empty. -/
theorem mount_interrupted {medium after : μ} (fits : partition.Fits medium) {torn : Bool}
    (stopped : Script.Interrupted
      (Store.mount (Medium.polarity medium) (Medium.pageSize medium) partition.geometry) () medium torn () after) :
    partition.Fits after ∧ (partition.contents after = partition.contents medium ∨
      (partition.contents medium).inUse = none ∧ ((partition.contents after).inUse = none ∨
        (partition.contents after).inUse = some .a ∧
          ∀ position, 1 ≤ position → partition.contents after .a position = Block.blank partition.polarity)) := by
  have achieved : partition.Achieves (fun _ _ _ => True)
      (fun _ (_ : Unit) current => current = partition.contents medium ∨ (partition.contents medium).inUse = none ∧
        (∀ position, 1 ≤ position → current .a position = Block.blank partition.polarity) ∧
          current .b = partition.contents medium .b)
      (Store.mount partition.polarity (Medium.pageSize medium) partition.geometry) () (partition.contents medium) := by
    apply Partition.achieves_mount fits.checked (fun log position late => Partition.contents_outside log late)
      (fun _ => .inl rfl) (fun _ _ _ _ _ _ _ => trivial)
    intro nowhere torn current blank other
    exact ⟨.inr ⟨nowhere, blank, other⟩, fun _ => trivial⟩
  rw [fits.polarity] at stopped
  obtain ⟨fits', same | ⟨nowhere, blank, other⟩⟩ := (achieved μ medium fits rfl).interrupted stopped
  · exact ⟨fits', .inl same⟩
  · refine ⟨fits', .inr ⟨nowhere, ?_⟩⟩
    have second : (partition.contents after).marked .b = false := by
      rw [← Contents.inUse_none nowhere .b]
      exact Contents.marked_congr (congrFun other 0)
    cases first : (partition.contents after).marked .a with
    | false =>
        left
        rw [Contents.inUse, first, second]
        rfl
    | true =>
        right
        rw [Contents.inUse, first]
        exact ⟨rfl, blank⟩

theorem Good.cut_mount (good : situation.Good partition files) {torn : Bool} {medium : μ}
    (stopped : Script.Interrupted
      (Store.mount (Medium.polarity situation.session.medium) (Medium.pageSize situation.session.medium)
        partition.geometry) () situation.session.medium torn () medium) :
    (situation.cut partition torn none medium).Good partition files := by
  cases good with
  | unused fits nowhere unmounted clean =>
      obtain ⟨fits', left⟩ := mount_interrupted fits stopped
      have scars : (situation.cut partition torn none medium).scars = [] := by
        simp only [cut, Contents.carried, clean, ite_self]
      rcases left with same | ⟨-, still | ⟨first, blank⟩⟩
      · refine .unused fits' ?_ rfl scars
        rw [contents, cut, same]
        exact nowhere
      · exact .unused fits' still rfl scars
      · have two := (Geometry.check_ok fits.checked).two
        refine @Good.used _ _ _ partition _ fits' .a 1 [] first ?_ (.inl rfl)
        rw [scars]
        refine Store.InOrder.erased ?_ blank
        change 1 ≤ partition.geometry.blocks
        omega
  | @used fits log free records here inOrder known =>
      obtain ⟨fits', same | ⟨nowhere, -⟩⟩ := mount_interrupted fits stopped
      · refine Good.survived fits' ⟨log, free, records, ?_, ?_, rfl⟩
        · rw [same]
          exact here
        · rw [same, contents, Contents.carried, if_pos rfl]
          exact inOrder
      · rw [contents, nowhere] at here
        cases here

/-- A power cut in the middle of any request leaves a situation in order, in which the request took effect or not. -/
theorem Good.cut_short (good : situation.Good partition files) (harmless : situation.Harmless partition)
    {request : Request} {torn : Bool} {left : Option Store} {medium : μ}
    (allowed : situation.session.Allows partition request)
    (stopped : situation.session.Stops request torn left medium) :
    ∃ files', files.Effect (.cut request) files' ∧ (situation.cut partition torn left medium).Good partition files' := by
  -- all requests but that to mount are made of the store that is mounted
  have ended {store left : Store} {medium : μ} {records : List Record} (same : store.partition = partition)
      (endured : partition.Fits medium ∧
        store.Endures situation.scars (situation.contents partition) records request torn left
          (partition.contents medium)) :
      ∃ files', (Record.files records).Effect (.cut request) files' ∧
        (situation.cut partition torn (some left) medium).Good partition files' := by
    obtain ⟨fits, files', survives, effect⟩ := endured
    rw [same] at survives
    exact ⟨files', effect, Good.survived fits survives⟩
  cases stopped with
  | mount stopped =>
      obtain rfl := allowed
      exact ⟨files, .nothing _, good.cut_mount stopped⟩
  | @save store left ufid data _ _ mounted stopped =>
      obtain ⟨records, rfl, fits, used, inOrder, rfl⟩ := good.mounted mounted
      have achieved := store.endures_save inOrder (harmless _ mounted) used (.save ufid data) (.saved ufid data)
      exact ended rfl ((achieved μ _ fits rfl).interrupted stopped)
  | @remove store left ufid _ _ mounted stopped =>
      obtain ⟨records, rfl, fits, used, inOrder, rfl⟩ := good.mounted mounted
      have achieved := @Store.endures_remove store _ _ _ ufid inOrder (harmless _ mounted) used
      exact ended rfl ((achieved μ _ fits rfl).interrupted stopped)
  | @rotate store left _ _ mounted stopped =>
      obtain ⟨records, rfl, fits, used, inOrder, rfl⟩ := good.mounted mounted
      have achieved := Store.endures_rotate inOrder (harmless _ mounted) used
      exact ended rfl ((achieved μ _ fits rfl).interrupted stopped)
  | @size store left ufid _ _ mounted stopped =>
      obtain ⟨records, rfl, fits, used, inOrder, rfl⟩ := good.mounted mounted
      have achieved := @Store.endures_size store _ _ _ ufid inOrder (harmless _ mounted) used
      exact ended rfl ((achieved μ _ fits rfl).interrupted stopped)
  | @contains store left ufid _ _ mounted stopped =>
      obtain ⟨records, rfl, fits, used, inOrder, rfl⟩ := good.mounted mounted
      have achieved := @Store.endures_contains store _ _ _ ufid inOrder (harmless _ mounted) used
      exact ended rfl ((achieved μ _ fits rfl).interrupted stopped)
  | @readAll store left ufid _ _ mounted stopped =>
      obtain ⟨records, rfl, fits, used, inOrder, rfl⟩ := good.mounted mounted
      have achieved := @Store.endures_readAll store _ _ _ ufid inOrder (harmless _ mounted) used (.readAll ufid)
      exact ended rfl ((achieved μ _ fits rfl).interrupted stopped)
  | @readInto store ufid buffer _ _ _ mounted stopped =>
      obtain ⟨records, rfl, fits, used, inOrder, rfl⟩ := good.mounted mounted
      have achieved := @Store.endures_readInto store _ _ _ ufid inOrder (harmless _ mounted) used buffer
      exact ended rfl ((achieved μ _ fits rfl).interrupted stopped)
  | @saveValue store left ufid payload _ _ mounted stopped =>
      obtain ⟨records, rfl, fits, used, inOrder, rfl⟩ := good.mounted mounted
      have achieved := @Store.endures_saveValue store _ _ _ ufid inOrder (harmless _ mounted) used payload
      exact ended rfl ((achieved μ _ fits rfl).interrupted stopped)
  | @loadValue store left ufid shape _ _ mounted stopped =>
      obtain ⟨records, rfl, fits, used, inOrder, rfl⟩ := good.mounted mounted
      have achieved := @Store.endures_loadValue store _ _ _ ufid inOrder (harmless _ mounted) used shape
      exact ended rfl ((achieved μ _ fits rfl).interrupted stopped)

theorem Good.shows_files (good : situation.Good partition files) (harmless : situation.Harmless partition) :
    situation.Shows partition files := by
  intro request allowed
  obtain ⟨answer, after, files', performed, step, -⟩ := good.perform harmless allowed
  exact ⟨answer, after, files', performed, step⟩

/-- Whatever happens in a situation in order has a possible effect on its files, and leaves one in order. -/
theorem Good.happens (good : situation.Good partition files) (harmless : situation.Harmless partition) {event : Event}
    {after : Situation μ} (happened : situation.Happens partition event after) :
    ∃ files', files.Effect event files' ∧ after.Good partition files' := by
  cases happened with
  | answered allowed performed =>
      obtain ⟨answer, after, files', also, step, good'⟩ := good.perform harmless allowed
      rw [performed] at also
      cases also
      exact ⟨files', .answered step, good'⟩
  | cut allowed stopped => exact good.cut_short harmless allowed stopped

/-- A run from a situation in order is atomic as long as it does no harm. -/
theorem Good.run (good : situation.Good partition files) (harmless : situation.Harmless partition)
    {trace : List (Event × Situation μ)} (run : situation.Run partition trace)
    (safe : ∀ step ∈ trace, step.2.Harmless partition) : Atomic partition files trace := by
  induction run generalizing files with
  | nil situation => exact .nil files
  | @cons situation after event later happens rest ih =>
      obtain ⟨files', effect, good'⟩ := good.happens harmless happens
      have still := safe _ List.mem_cons_self
      exact .cons effect (good'.shows_files still)
        (ih good' still (fun step member => safe step (List.mem_cons_of_mem _ member)))

/-- Power cuts are atomic. In every run that starts on a medium with no marker and in which at no time a block whose
write was torn, or a chain of which only some blocks were appended, passes its check, the files are those of a map
which is empty at first, in which every request that was answered takes effect and every one that was cut short takes
its whole effect or none; whatever is asked of the store at any time is answered as that map tells. -/
theorem powerCuts_atomic {medium : μ} {geometry : Geometry}
    (fits : Partition.Fits ⟨Medium.polarity medium, geometry⟩ medium)
    (unmarked : ∀ log, (Partition.contents ⟨Medium.polarity medium, geometry⟩ medium).marked log = false)
    {trace : List (Event × Situation μ)} (run : Run ⟨Medium.polarity medium, geometry⟩ ⟨⟨medium, none⟩, []⟩ trace)
    (harmless : ∀ step ∈ trace, step.2.Harmless ⟨Medium.polarity medium, geometry⟩) :
    Atomic ⟨Medium.polarity medium, geometry⟩ Files.empty trace := by
  have nowhere : (Partition.contents ⟨Medium.polarity medium, geometry⟩ medium).inUse = none := by
    rw [Contents.inUse, unmarked .a, unmarked .b]
    rfl
  have start : Good ⟨Medium.polarity medium, geometry⟩ (Situation.mk ⟨medium, none⟩ []) Files.empty :=
    .unused fits nowhere rfl rfl
  refine start.run ?_ run harmless
  intro store mounted
  cases mounted

section TornSave

set_option maxRecDepth 4000

def smallPartition : Partition :=
  ⟨.zeros, ⟨0, 128, 128⟩⟩

def tornEntry : Situation Simulated :=
  let mounted := (Session.perform ⟨Session.neverErased, none⟩ (.mount smallPartition.geometry)).2
  let words := (Block.entry .zeros ⟨0, by decide⟩ (Vector.replicate 12 7)).toList.take 3
  (answered smallPartition ⟨⟨Session.neverErased, none⟩, []⟩ mounted).cut smallPartition true
    (some ⟨smallPartition, .a, 1⟩) (Medium.write mounted.medium 32 words false).2

def tornSave : List (Event × Situation Simulated) :=
  let mounted := (Session.perform ⟨Session.neverErased, none⟩ (.mount smallPartition.geometry)).2
  [(.answered (.mount smallPartition.geometry) .done,
      answered smallPartition ⟨⟨Session.neverErased, none⟩, []⟩ mounted),
    (.cut (.save (Vector.replicate 12 7) [1, 2, 3]), tornEntry),
    (.answered (.mount smallPartition.geometry) .done,
      tornEntry.answered smallPartition (tornEntry.session.perform (.mount smallPartition.geometry)).2)]

/-- A run in which a block is torn that does not pass its check. -/
theorem powerCuts_atomic_tornSave :
    Run smallPartition ⟨⟨Session.neverErased, none⟩, []⟩ tornSave ∧
      Atomic smallPartition Files.empty tornSave := by
  have run : Run smallPartition ⟨⟨Session.neverErased, none⟩, []⟩ tornSave := by
    refine .cons (.answered (by rfl) (by rfl)) (.cons (.cut (by rfl) (.save (by rfl) ?_))
      (.cons (.answered (by rfl) (by rfl)) (.nil _)))
    exact Script.Interrupted.torn 3 (by decide) (by rfl)
  refine ⟨run, @powerCuts_atomic Simulated _ _ Session.neverErased ⟨0, 128, 128⟩ Session.neverErased_fits ?_ _ run ?_⟩
  · intro log
    cases log <;> decide
  · intro step member store mounted
    simp only [tornSave, List.mem_cons, List.not_mem_nil, or_false] at member
    rcases member with rfl | rfl | rfl
    · intro index scar
      cases scar
    · cases mounted
    · obtain rfl : ⟨smallPartition, .a, 2⟩ = store := Option.some.inj mounted
      decide +kernel

end TornSave

end Situation

end TwinLog
