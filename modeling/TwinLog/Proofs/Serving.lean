import TwinLog.Proofs.Saving
import TwinLog.Session

set_option autoImplicit false

namespace TwinLog

/-- An answer that a request may get where there are `files`, and the files afterwards. If `strict` holds then only a
file that is there can be removed. -/
inductive Files.Step (strict : Prop) (files : Files) : Request → Answer → Files → Prop
  | mount (geometry : Geometry) : Step strict files (.mount geometry) .done files
  | saved (ufid : Ufid) (data : List UInt8) : Step strict files (.save ufid data) .done (files.set ufid data)
  | refused (ufid : Ufid) (data : List UInt8) (error : StoreError)
      (reason : error = .tooLarge ∨ error = .noSpace ∨ error = .noFileIds) :
      Step strict files (.save ufid data) (.failed error) files
  | removed (ufid : Ufid) (present : strict → (files ufid).isSome = true) :
      Step strict files (.remove ufid) .done (files.erase ufid)
  | missing (ufid : Ufid) (absent : files ufid = none) : Step strict files (.remove ufid) (.failed .notFound) files
  | rotated : Step strict files .rotate .done files
  | size {ufid : Ufid} {data : List UInt8} (present : files ufid = some data) :
      Step strict files (.size ufid) (.size data.length) files
  | noSize {ufid : Ufid} (absent : files ufid = none) : Step strict files (.size ufid) (.failed .notFound) files
  | contains (ufid : Ufid) : Step strict files (.contains ufid) (.contains (files ufid).isSome) files
  | content {ufid : Ufid} {data : List UInt8} (present : files ufid = some data) :
      Step strict files (.readAll ufid) (.content data) files
  | noContent {ufid : Ufid} (absent : files ufid = none) : Step strict files (.readAll ufid) (.failed .notFound) files
  | copied {ufid : Ufid} {data : List UInt8} (present : files ufid = some data) (buffer : List UInt8) :
      Step strict files (.readInto ufid buffer)
        (.copied data.length (data.take buffer.length ++ buffer.drop data.length)) files
  | notCopied {ufid : Ufid} (absent : files ufid = none) (buffer : List UInt8) :
      Step strict files (.readInto ufid buffer) (.failedCopy .notFound buffer) files
  | usage (usage : Usage) : Step strict files .usage (.usage usage) files
  | savedValue {ufid : Ufid} {payload : Payload} {bytes : List UInt8} {answer : Answer} {after : Files}
      (encoded : payload.encode? = some bytes) (step : Step strict files (.save ufid bytes) answer after) :
      Step strict files (.saveValue ufid payload) answer after
  | notEncoded {ufid : Ufid} {payload : Payload} (stream : payload.encode? = none) :
      Step strict files (.saveValue ufid payload) (.failed .encoding) files
  | loaded {ufid : Ufid} {data rest : List UInt8} (present : files ufid = some data) {shape : Shape}
      {value : shape.Value} (decoded : shape.decode data = some (value, rest)) :
      Step strict files (.loadValue ufid shape) (.value shape value) files
  | notDecoded {ufid : Ufid} {data : List UInt8} (present : files ufid = some data) {shape : Shape}
      (invalid : shape.decode data = none) : Step strict files (.loadValue ufid shape) (.failed .encoding) files
  | notLoaded {ufid : Ufid} (absent : files ufid = none) (shape : Shape) :
      Step strict files (.loadValue ufid shape) (.failed .notFound) files

def Files.reading (files : Files) (ufid : Ufid) : Answer :=
  match files ufid with
  | some data => .content data
  | none => .failed .notFound

theorem Files.reading_injective {files files' : Files} (same : ∀ ufid, files.reading ufid = files'.reading ufid) :
    files = files' := by
  funext ufid
  have here := same ufid
  rw [reading, reading] at here
  split at here
  · rename_i data first
    split at here
    · rename_i data' second
      rw [Answer.content.injEq] at here
      rw [first, second, here]
    · cases here
  · rename_i first
    split at here
    · cases here
    · rename_i second
      rw [first, second]

theorem Files.Step.reading {strict : Prop} {files after : Files} {ufid : Ufid} {answer : Answer}
    (step : files.Step strict (.readAll ufid) answer after) : answer = files.reading ufid := by
  rw [Files.reading]
  cases step with
  | content present => rw [present]
  | noContent absent => rw [absent]

def Request.Reads : Request → Prop
  | size _ | contains _ | readAll _ | readInto _ _ | usage | loadValue _ _ => True
  | mount _ | save _ _ | remove _ | rotate | saveValue _ _ => False

def Request.ReadsFile (ufid : Ufid) : Request → Prop
  | size other | contains other | readAll other | readInto other _ | loadValue other _ => other = ufid
  | _ => False

namespace Session

variable {μ : Type} [Medium μ]

/-- Whether a request, as far as it gets, only ever programs bits away from the erased state. -/
def Legal (session : Session μ) (request : Request) : Prop :=
  match request, session.store with
  | .mount geometry, _ =>
      (Store.mount (Medium.polarity session.medium) (Medium.pageSize session.medium) geometry :
        Script Unit Store).Legal session.medium
  | _, none => True
  | .save ufid data, some store => (store.save ufid data).Legal session.medium
  | .remove ufid, some store => (store.remove ufid : Script Store Unit).Legal session.medium
  | .rotate, some store => store.rotate.Legal session.medium
  | .size ufid, some store => (store.size ufid : Script Store Nat).Legal session.medium
  | .contains ufid, some store => (store.contains ufid : Script Store Bool).Legal session.medium
  | .readAll ufid, some store => (store.readAll ufid : Script Store (List UInt8)).Legal session.medium
  | .readInto ufid buffer, some store => (store.readInto ufid buffer).Legal session.medium
  | .usage, some _ => True
  | .saveValue ufid payload, some store => (store.saveValue ufid payload).Legal session.medium
  | .loadValue ufid shape, some store => (store.loadValue ufid shape : Script Store shape.Value).Legal session.medium

def reply {α : Type} (answer : α → Answer) : Except StoreError α → Answer
  | .ok value => answer value
  | .error error => .failed error

def copyReply : Except StoreError Nat → List UInt8 → Answer
  | .ok size, buffer => .copied size buffer
  | .error error, buffer => .failedCopy error buffer

variable [LawfulMedium μ]

/-- A session with a mounted store that is in order. -/
structure Serving (partition : Partition) (session : Session μ) (store : Store) (scars : List Nat)
    (records : List Record) : Prop where
  mounted : session.store = some store
  same : store.partition = partition
  fits : partition.Fits session.medium
  inOrder : store.InOrder scars (partition.contents session.medium) records

def outcome {α : Type} (answer : α → Answer) : Except StoreError (Except Violation α) → Except Violation Answer
  | .ok (.ok value) => .ok (answer value)
  | .ok (.error violation) => .error violation
  | .error error => .ok (.failed error)

theorem change_of_caught {partition : Partition} {session : Session μ} {store : Store} {α : Type}
    {script : Script Store α} {result : Except StoreError (Except Violation α) → Store → Contents → Prop}
    {cut : Bool → Store → Contents → Prop} (fits : partition.Fits session.medium)
    (achieved : partition.Achieves result cut script.caught store (partition.contents session.medium))
    (answer : α → Answer) :
    ∃ value left after, partition.Fits after ∧ result value left (partition.contents after) ∧
      session.change store script answer = (outcome answer value, ⟨after, some left⟩) := by
  have ends := (achieved μ session.medium fits rfl).ends_or_breaks
  unfold change
  cases ran : script.run store session.medium with
  | mk ended left after =>
      rw [ran] at ends
      cases ended with
      | ok value => exact ⟨.ok (.ok value), left, after, ends.1, ends.2, rfl⟩
      | error reason =>
          cases reason with
          | error error => exact ⟨.error error, left, after, ends.1, ends.2, rfl⟩
          | halt violation => exact ⟨.ok (.error violation), left, after, ends.1, ends.2, rfl⟩

theorem change_of_achieves {partition : Partition} {session : Session μ} {store : Store} {α : Type}
    {script : Script Store α} {result : Except StoreError α → Store → Contents → Prop}
    {cut : Bool → Store → Contents → Prop} (fits : partition.Fits session.medium)
    (achieved : partition.Achieves result cut script store (partition.contents session.medium)) (answer : α → Answer) :
    ∃ value left after, partition.Fits after ∧ result value left (partition.contents after) ∧
      session.change store script answer = (.ok (reply answer value), ⟨after, some left⟩) := by
  have caught : partition.Achieves (Script.Unbroken result) cut script.caught store
      (partition.contents session.medium) := by
    apply Partition.Achieves.caught
    apply achieved.mono _ (fun _ _ _ holds => holds)
    intro value left after holds
    cases value with
    | ok value => exact holds
    | error error => exact holds
  obtain ⟨value, left, after, fits', holds, changed⟩ := change_of_caught fits caught answer
  match value, holds with
  | .ok (.ok value), holds => exact ⟨.ok value, left, after, fits', holds, changed⟩
  | .error error, holds => exact ⟨.error error, left, after, fits', holds, changed⟩

theorem copy_of_achieves {partition : Partition} {session : Session μ} {store : Store} {ufid : Ufid}
    {buffer : List UInt8} {result : Except StoreError Nat → List UInt8 → Contents → Prop}
    {cut : Bool → List UInt8 → Contents → Prop} (fits : partition.Fits session.medium)
    (achieved : partition.Achieves result cut (store.readInto ufid buffer) buffer
      (partition.contents session.medium)) :
    ∃ value left after, partition.Fits after ∧ result value left (partition.contents after) ∧
      session.copy store ufid buffer = (.ok (copyReply value left), ⟨after, some store⟩) := by
  have ends := (achieved μ session.medium fits rfl).ends
  unfold copy
  cases ran : (store.readInto ufid buffer).run buffer session.medium with
  | mk outcome left after =>
      rw [ran] at ends
      cases outcome with
      | ok value => exact ⟨.ok value, left, after, ends.1, ends.2, rfl⟩
      | error reason =>
          cases reason with
          | error error => exact ⟨.error error, left, after, ends.1, ends.2, rfl⟩
          | halt violation => cases ends

variable {partition : Partition} {session : Session μ} {store : Store} {scars : List Nat} {contents : Contents}
  {records : List Record}

section Reads

variable {medium : μ} {request : Request} {rest : Contents → Prop}

/-- A request that is answered as the records say, leaves the store as it is, and keeps `rest`. -/
def Informs (store : Store) (medium : μ) (records : List Record) (rest : Contents → Prop) (request : Request) : Prop :=
  Legal ⟨medium, some store⟩ request ∧ ∃ answer after,
    perform ⟨medium, some store⟩ request = (.ok answer, ⟨after, some store⟩) ∧ store.partition.Fits after ∧
      rest (store.partition.contents after) ∧
      ∀ strict, (Record.files records).Step strict request answer (Record.files records)

theorem informs_of_achieves (fits : store.partition.Fits medium) {α : Type} (script : Script Store α)
    (answer : α → Answer)
    (performs : perform ⟨medium, some store⟩ request = change ⟨medium, some store⟩ store script answer)
    (legal : Legal ⟨medium, some store⟩ request ↔ script.Legal medium)
    (achieved : store.partition.Achieves (fun value left after => left = store ∧ rest after ∧
      ∀ strict, (Record.files records).Step strict request (reply answer value) (Record.files records))
      (fun _ _ _ => True) script store (store.partition.contents medium)) :
    Informs store medium records rest request := by
  refine ⟨legal.mpr (achieved μ medium fits rfl).legal, ?_⟩
  obtain ⟨value, left, after, fits', ⟨rfl, kept, step⟩, changed⟩ :=
    @change_of_achieves μ _ _ store.partition ⟨medium, some store⟩ store _ _ _ _ fits achieved answer
  exact ⟨_, after, performs.trans changed, fits', kept, step⟩

/-- A file that can be read answers every request that only reads it. -/
theorem informs_of_legible (fits : store.partition.Fits medium) {ufid : Ufid}
    (legible : store.Legible ufid (store.partition.contents medium) records rest) (reads : request.ReadsFile ufid) :
    Informs store medium records rest request := by
  cases request with
  | size ufid =>
      cases reads
      apply informs_of_achieves fits (store.size ufid) .size rfl Iff.rfl
      apply Partition.achieves_size legible (fun _ _ _ => trivial)
      · intro data after kept present
        exact ⟨rfl, kept, fun _ => .size present⟩
      · intro after kept absent
        exact ⟨rfl, kept, fun _ => .noSize absent⟩
  | contains ufid =>
      cases reads
      apply informs_of_achieves fits (store.contains ufid) .contains rfl Iff.rfl
      apply Partition.achieves_contains legible (fun _ _ _ => trivial)
      intro after kept
      exact ⟨rfl, kept, fun _ => .contains ufid⟩
  | readAll ufid =>
      cases reads
      apply informs_of_achieves fits (store.readAll ufid) .content rfl Iff.rfl
      apply Partition.achieves_readAll legible (fun _ _ _ => trivial)
      · intro data after kept present
        exact ⟨rfl, kept, fun _ => .content present⟩
      · intro after kept absent
        exact ⟨rfl, kept, fun _ => .noContent absent⟩
  | readInto ufid buffer =>
      cases reads
      have achieved : store.partition.Achieves (fun value left after => rest after ∧
          ∀ strict, (Record.files records).Step strict (.readInto ufid buffer) (copyReply value left)
            (Record.files records))
          (fun _ _ _ => True) (store.readInto ufid buffer) buffer (store.partition.contents medium) := by
        apply Partition.achieves_readInto legible buffer (fun _ _ _ _ => trivial)
        · intro data after kept present
          exact ⟨kept, fun _ => .copied present buffer⟩
        · intro after kept absent
          exact ⟨kept, fun _ => .notCopied absent buffer⟩
      refine ⟨(achieved μ medium fits rfl).legal, ?_⟩
      obtain ⟨value, left, after, fits', ⟨kept, step⟩, copied⟩ :=
        @copy_of_achieves μ _ _ store.partition ⟨medium, some store⟩ store ufid buffer _ _ fits achieved
      exact ⟨_, after, copied, fits', kept, step⟩
  | loadValue ufid shape =>
      cases reads
      apply informs_of_achieves fits (store.loadValue ufid shape) (.value shape) rfl Iff.rfl
      apply Partition.Achieves.bind
      apply Partition.achieves_readAll legible (fun _ _ _ => trivial)
      · intro data after kept present
        simp only
        split
        · rename_i value left decoded
          exact Partition.achieves_pure trivial ⟨rfl, kept, fun _ => .loaded present decoded⟩
        · rename_i invalid
          exact Partition.achieves_fail trivial ⟨rfl, kept, fun _ => .notDecoded present invalid⟩
      · intro after kept absent
        exact ⟨rfl, kept, fun _ => .notLoaded absent shape⟩
  | _ => cases reads

theorem informs_of_readable (fits : store.partition.Fits medium)
    (readable : store.Readable (store.partition.contents medium) records rest) (reads : request.Reads) :
    Informs store medium records rest request := by
  cases request with
  | usage => exact ⟨trivial, _, medium, rfl, fits, readable.now, fun _ => .usage _⟩
  | size ufid | contains ufid | readAll ufid | readInto ufid _ | loadValue ufid _ =>
      exact informs_of_legible fits (readable.legible ufid) rfl
  | _ => cases reads

theorem contains_of_readable (fits : store.partition.Fits medium)
    (readable : store.Readable (store.partition.contents medium) records rest) (ufid : Ufid) :
    (perform ⟨medium, some store⟩ (.contains ufid)).1 = .ok (.contains (Record.files records ufid).isSome) := by
  have informs : Informs store medium records rest (.contains ufid) := informs_of_readable fits readable trivial
  obtain ⟨-, answer, after, performed, -, -, step⟩ := informs
  rw [performed]
  cases step True
  rfl

theorem readAll_of_readable (fits : store.partition.Fits medium)
    (readable : store.Readable (store.partition.contents medium) records rest) (ufid : Ufid) :
    (perform ⟨medium, some store⟩ (.readAll ufid)).1 = .ok ((Record.files records).reading ufid) := by
  have informs : Informs store medium records rest (.readAll ufid) := informs_of_readable fits readable trivial
  obtain ⟨-, answer, after, performed, -, -, step⟩ := informs
  rw [performed, (step True).reading]

def CanRead (session : Session μ) (ufid : Ufid) : Prop :=
  ∃ data, (session.perform (.readAll ufid)).1 = .ok (.content data)

theorem canRead_of_readable (fits : store.partition.Fits medium)
    (readable : store.Readable (store.partition.contents medium) records rest) (ufid : Ufid) :
    CanRead ⟨medium, some store⟩ ufid ↔ (Record.files records ufid).isSome = true := by
  rw [CanRead, readAll_of_readable fits readable ufid, Files.reading]
  cases Record.files records ufid with
  | none => simp
  | some data => simp

end Reads

/-- Whatever the active log holds, a rotation leaves what is live of it in the other log, or asks for the block behind
the last one if that is more than a log holds. -/
theorem rotate_turned {medium : μ} (fits : store.partition.Fits medium) (positive : 1 ≤ store.free)
    (room : store.free ≤ store.partition.blocks) :
    (∃ after left, perform ⟨medium, some store⟩ .rotate = (.ok .done, ⟨after, some left⟩) ∧ store.partition.Fits after ∧
      store.Turned (store.partition.contents medium) left (store.partition.contents after)) ∨
    (store.partition.blocks < 1 + (store.live (store.partition.contents medium)).length ∧
      (perform ⟨medium, some store⟩ .rotate).1 = .error (.blockOutside store.partition.blocks)) := by
  have achieved : store.partition.Achieves
      (fun value left after =>
        (store.Turned (store.partition.contents medium) left after ∧ ∃ turned, value = .ok (.ok turned)) ∨
        (store.partition.blocks < 1 + (store.live (store.partition.contents medium)).length ∧
          value = .ok (.error (.blockOutside store.partition.blocks))))
      (fun _ _ _ => True) store.rotate.caught store (store.partition.contents medium) := by
    apply Partition.achieves_rotate_turned positive room (fun _ _ _ => trivial)
    · exact fun beyond _ _ _ => .inr ⟨beyond, rfl⟩
    · exact fun turned after turn => ⟨trivial, .inl ⟨turn, turned, rfl⟩⟩
  obtain ⟨value, left, after, fits', ended, changed⟩ :=
    @change_of_caught μ _ _ store.partition ⟨medium, some store⟩ store _ _ _ _ fits achieved (fun _ => Answer.done)
  rcases ended with ⟨turn, turned, rfl⟩ | ⟨beyond, rfl⟩
  · exact .inl ⟨after, left, changed, fits', turn⟩
  · exact .inr ⟨beyond, congrArg Prod.fst changed⟩

/-- A step that a request takes, and what becomes of the store with it. -/
def Stepped (partition : Partition) (session : Session μ) (store : Store) (scars : List Nat) (records : List Record)
    (request : Request) : Prop :=
  ∃ answer left after files, session.perform request = (.ok answer, ⟨after, some left⟩) ∧ partition.Fits after ∧
    store.Becomes scars (partition.contents session.medium) records left (partition.contents after) files ∧
    (Record.files records).Step (Record.Backed records) request answer files

theorem Serving.stepped (serving : session.Serving partition store scars records) {α : Type} {request : Request}
    (script : Script Store α) (answer : α → Answer)
    (performs : session.perform request = session.change store script answer)
    (achieved : partition.Achieves (fun value left after => ∃ files,
      store.Becomes scars (partition.contents session.medium) records left after files ∧
      (Record.files records).Step (Record.Backed records) request (reply answer value) files)
      (fun _ _ _ => True) script store (partition.contents session.medium)) :
    session.Stepped partition store scars records request := by
  obtain ⟨value, left, after, fits, ⟨files, becomes, step⟩, changed⟩ := change_of_achieves serving.fits achieved answer
  exact ⟨_, left, after, files, performs.trans changed, fits, becomes, step⟩

/-- A save of a store in order sets the file or tells why it does not. -/
theorem save_step (inOrder : store.InOrder scars contents records) (harmless : (store.tape contents).Harmless scars)
    (ufid : Ufid) (data : List UInt8) :
    store.partition.Achieves (fun value left after => ∃ files, store.Becomes scars contents records left after files ∧
      (Record.files records).Step (Record.Backed records) (.save ufid data) (reply (fun () => .done) value) files)
      (fun _ _ _ => True) (store.save ufid data) store contents := by
  refine Partition.achieves_save_inOrder inOrder harmless (fun _ _ _ _ => trivial) ?_
  intro value left after saved
  rcases saved.becomes inOrder harmless with ⟨rfl, becomes⟩ | ⟨reason, becomes⟩
  · exact ⟨_, becomes, .saved ufid data⟩
  · obtain ⟨error, rfl⟩ : ∃ error, value = .error error := by
      rcases reason with rfl | rfl | rfl <;> exact ⟨_, rfl⟩
    refine ⟨_, becomes, .refused ufid data error ?_⟩
    simpa only [Except.error.injEq] using reason

/-- A store in order takes a step with every request, and is in order again. -/
theorem Serving.perform (serving : session.Serving partition store scars records)
    (harmless : (store.tape (partition.contents session.medium)).Harmless scars) (request : Request)
    (other : ∀ geometry, request ≠ .mount geometry) : session.Stepped partition store scars records request := by
  obtain ⟨medium, given⟩ := session
  obtain ⟨mounted, same, fits, inOrder⟩ := serving
  simp only at mounted fits inOrder harmless
  subst mounted same
  have served : Serving store.partition ⟨medium, some store⟩ store scars records := ⟨rfl, rfl, fits, inOrder⟩
  by_cases reads : request.Reads
  · obtain ⟨-, answer, after, performed, fits', ⟨kept, trimmed⟩, step⟩ :=
      informs_of_readable fits (inOrder.readable harmless) reads
    exact ⟨answer, store, after, _, performed, fits', trimmed.becomes, step _⟩
  cases request with
  | mount geometry => exact absurd rfl (other geometry)
  | save ufid data =>
      exact served.stepped (store.save ufid data) (fun () => .done) rfl (save_step inOrder harmless ufid data)
  | remove ufid =>
      refine served.stepped (store.remove ufid) (fun () => .done) rfl
        (Partition.achieves_remove inOrder harmless (fun _ => trivial) ?_ ?_)
      · rintro after kept ⟨id, present⟩ order fewer files stays
        refine ⟨trivial, _, .intro scars kept (.stays rfl rfl stays) order files ?_, .removed ufid ?_⟩
        · intro backed binding member
          obtain ⟨old, apart⟩ := fewer binding member
          rw [files, Files.erase, if_neg apart]
          exact backed binding old
        · intro backed
          exact backed _ present
      · intro absent
        exact ⟨_, .unchanged inOrder, .missing ufid (Record.files_absent absent)⟩
  | rotate =>
      refine served.stepped (store.rotate) (fun _ => .done) rfl
        (Partition.achieves_rotate (inOrder.listed harmless) inOrder.settled.positive inOrder.room inOrder.unique
          (fun _ _ _ => trivial) ?_)
      intro rotated after turn
      exact ⟨trivial, _, turn.becomes inOrder, .rotated⟩
  | saveValue ufid payload =>
      cases encoded : payload.encode? with
      | some bytes =>
          have script : store.saveValue ufid payload = store.save ufid bytes := by rw [Store.saveValue, encoded]
          refine served.stepped (store.saveValue ufid payload) (fun () => .done) rfl ?_
          rw [script]
          refine (save_step inOrder harmless ufid bytes).mono ?_ (fun _ _ _ holds => holds)
          rintro value left after ⟨files, becomes, step⟩
          exact ⟨files, becomes, .savedValue encoded step⟩
      | none =>
          have script : store.saveValue ufid payload = Script.fail .encoding := by rw [Store.saveValue, encoded]
          refine served.stepped (store.saveValue ufid payload) (fun () => .done) rfl ?_
          rw [script]
          exact Partition.achieves_fail trivial ⟨_, .unchanged inOrder, .notEncoded encoded⟩
  | _ => exact absurd trivial reads

theorem mount_of_achieves (fits : partition.Fits session.medium)
    {result : Except StoreError Store → Unit → Contents → Prop} {cut : Bool → Unit → Contents → Prop}
    (achieved : partition.Achieves result cut
      (Store.mount partition.polarity (Medium.pageSize session.medium) partition.geometry) ()
      (partition.contents session.medium)) :
    ∃ value after, partition.Fits after ∧ result value () (partition.contents after) ∧
      session.mount partition.geometry = (.ok (reply (fun _ => .done) value), ⟨after, value.toOption⟩) := by
  have ends := (achieved μ session.medium fits rfl).ends
  unfold mount
  rw [fits.polarity]
  simp only
  cases ran : (Store.mount partition.polarity (Medium.pageSize session.medium) partition.geometry : Script Unit Store).run
      () session.medium with
  | mk outcome left after =>
      rw [ran] at ends
      cases outcome with
      | ok value => exact ⟨.ok value, after, ends.1, ends.2, rfl⟩
      | error reason =>
          cases reason with
          | error error => exact ⟨.error error, after, ends.1, ends.2, rfl⟩
          | halt violation => cases ends

theorem mount_used (fits : partition.Fits session.medium) {log : Log} {free : Nat}
    (used : (partition.contents session.medium).inUse = some log)
    (knows : Store.Knows ⟨partition, log, free⟩ (partition.contents session.medium)) :
    ∃ after, session.perform (.mount partition.geometry) = (.ok .done, ⟨after, some ⟨partition, log, free⟩⟩) ∧
      partition.Fits after ∧ partition.contents after = partition.contents session.medium := by
  have positive : 1 ≤ free := knows.positive
  have achieved : partition.Achieves
      (fun value (_ : Unit) current => value = .ok ⟨partition, log, free⟩ ∧
        current = partition.contents session.medium) (fun _ _ _ => True)
      (Store.mount partition.polarity (Medium.pageSize session.medium) partition.geometry) ()
      (partition.contents session.medium) := by
    refine Partition.achieves_mount fits.checked (fun log position late => Partition.contents_outside log late)
      (fun _ => trivial) ?_ ?_
    · intro other also last late early blank ends
      rw [used, Option.some.injEq] at also
      subst also
      -- the end of a log is where nothing but erased blocks follow a block that is not erased
      have clear := knows.clear
      have below : ¬ last < free := by
        intro before
        rcases knows.ends with first | written
        · change free = 1 at first
          omega
        · exact written (blank (free - 1) (by omega))
      have above : ¬ free < last := by
        intro before
        rcases ends with first | written
        · omega
        · exact written (clear (last - 1) (by change free ≤ last - 1; omega))
      have same : last = free := by omega
      rw [same]
      exact ⟨rfl, rfl⟩
    · intro none
      rw [used] at none
      cases none
  obtain ⟨value, after, fits', ⟨rfl, same⟩, mounted⟩ := mount_of_achieves fits achieved
  exact ⟨after, mounted, fits', same⟩

/-- Mounting starts with an empty log where none is in use. -/
theorem mount_fresh (fits : partition.Fits session.medium)
    (unused : (partition.contents session.medium).inUse = none) :
    ∃ after, session.perform (.mount partition.geometry) = (.ok .done, ⟨after, some ⟨partition, .a, 1⟩⟩) ∧
      partition.Fits after ∧ (partition.contents after).inUse = some .a ∧
      Store.InOrder ⟨partition, .a, 1⟩ [] (partition.contents after) [] := by
  have two := (Geometry.check_ok fits.checked).two
  have achieved : partition.Achieves
      (fun value (_ : Unit) current => value = .ok ⟨partition, .a, 1⟩ ∧ current.marked .a = true ∧
        ∀ position, 1 ≤ position → current .a position = Block.blank partition.polarity) (fun _ _ _ => True)
      (Store.mount partition.polarity (Medium.pageSize session.medium) partition.geometry) ()
      (partition.contents session.medium) := by
    refine Partition.achieves_mount fits.checked (fun log position late => Partition.contents_outside log late)
      (fun _ => trivial) ?_ ?_
    · intro log used
      rw [unused] at used
      cases used
    · intro _ _ current blank _
      exact ⟨trivial, fun there => ⟨rfl, there, blank⟩⟩
  obtain ⟨value, after, fits', ⟨rfl, marked, blank⟩, mounted⟩ := mount_of_achieves fits achieved
  refine ⟨after, mounted, fits', by rw [Contents.inUse, if_pos marked], Store.InOrder.erased ?_ blank⟩
  change 1 ≤ partition.geometry.blocks
  omega

end Session

end TwinLog
