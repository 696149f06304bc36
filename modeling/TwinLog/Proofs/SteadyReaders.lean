import TwinLog.Proofs.LatestChain
import TwinLog.Proofs.Remounting

set_option autoImplicit false

namespace TwinLog

namespace Tape

variable {tape tape' : Tape} {ufid : Ufid} {id : FileId} {index start : Nat}

/-- Where an identifier is found is settled by what the blocks bind. -/
theorem lookup_congr (stop : tape'.stop = tape.stop)
    (same : ∀ position,
      (tape'.blocks position).binding? tape'.polarity = (tape.blocks position).binding? tape.polarity) :
    tape'.lookup ufid = tape.lookup ufid := by
  have walked (indices : List Nat) (used : List FileId) :
      tape'.lookupIn ufid indices used = tape.lookupIn ufid indices used := by
    induction indices generalizing used with
    | nil => rfl
    | cons index rest ih => simp only [lookupIn, same, ih]
  rw [lookup, lookup, stop, walked]

/-- The content of the last chain of a file stays the same where all from the first block of that chain on stays. -/
theorem content_kept (polarity : tape'.polarity = tape.polarity) (stop : tape'.stop = tape.stop)
    (kept : ∀ position, start ≤ position →
      (∀ chain, (tape.chains id start).getLast? = some chain → chain.start ≤ position) →
      tape'.blocks position = tape.blocks position) :
    ((tape'.chains id start).getLast?.map fun chain => chain.content tape'.blocks) =
      (tape.chains id start).getLast?.map fun chain => chain.content tape.blocks := by
  rw [getLast?_chains_kept polarity stop kept]
  refine Option.map_congr fun chain last => ?_
  have late := (getLast?_chains.mp last).1.from_start
  refine congrArg (Chain.data chain.head) (chain.extent_congr fun position from_chain _ => ?_)
  refine kept position (Nat.le_trans late from_chain) fun other found => ?_
  rw [last, Option.some.injEq] at found
  rwa [← found]

theorem files_found (found : tape.lookup ufid = .found id index) :
    Record.files (tape.records [] 1) ufid =
      (tape.chains id (index + 1)).getLast?.map fun chain => chain.content tape.blocks := by
  have located := tape.locates_lookup ufid
  rw [found] at located
  rw [located.files_found, latest_records]

theorem files_small (tape : Tape) {data : List UInt8} (file : Record.files (tape.records [] 1) ufid = some data) :
    data.length ≤ maxFileSize := by
  cases answer : tape.lookup ufid with
  | vacant id =>
      have located := tape.locates_lookup ufid
      rw [answer] at located
      rw [located.files_vacant] at file
      cases file
  | found id index =>
      rw [files_found answer, Option.map_eq_some_iff] at file
      obtain ⟨chain, last, rfl⟩ := file
      obtain ⟨-, -, -, passed⟩ := chainAt?_some.mp (getLast?_chains.mp last).1.sound
      rw [Chain.content, Chain.length_data passed]
      rw [Chain.sound_extent, Bool.and_eq_true, decide_eq_true_eq] at passed
      exact passed.1

end Tape

namespace Store

variable {store : Store} {contents current : Contents} {ufid : Ufid}

/-- What the readers of a file keep of a log: its first entry is found where it was, and has the content it had. -/
structure SameFile (store : Store) (ufid : Ufid) (contents current : Contents) : Prop where
  lookup : (store.tape current).lookup ufid = (store.tape contents).lookup ufid
  file : Record.files ((store.tape current).records [] 1) ufid =
    Record.files ((store.tape contents).records [] 1) ufid

/-- Making a chain void that a later one takes the place of keeps the file, where no block from the first one of that
chain on has changed. -/
theorem SameFile.void (kept : store.SameFile ufid contents current) {id : FileId} {index : Nat} {older newer : Chain}
    (found : (store.tape contents).lookup ufid = .found id index)
    (same : ∀ position, older.start ≤ position → current store.active position = contents store.active position)
    (behind : (store.tape contents).Holds id (index + 1) older)
    (ahead : (store.tape contents).Holds id (index + 1) newer) (before : older.start < newer.start) :
    store.SameFile ufid contents (current.put store.active older.start [store.partition.polarity.voidWord]) := by
  have behind' : (store.tape current).Holds id (index + 1) older := behind.same (by rfl) (by rfl) same
  have ahead' : (store.tape current).Holds id (index + 1) newer :=
    ahead.same (by rfl) (by rfl) fun position late => same position (by omega)
  obtain ⟨-, started, -⟩ := Tape.chainAt?_some.mp behind'.sound
  have lookup : (store.tape (current.put store.active older.start [store.partition.polarity.voidWord])).lookup ufid =
      (store.tape current).lookup ufid := Tape.lookup_congr (by rfl) (Contents.binding?_voided started)
  -- the last chain starts no earlier than the newer one, so it is all behind the block that becomes void
  obtain ⟨newest, last, later⟩ := ahead'.exists_last
  have there := kept.lookup.trans found
  refine ⟨lookup.trans kept.lookup, Eq.trans ?_ kept.file⟩
  rw [Tape.files_found (lookup.trans there), Tape.files_found there]
  refine Tape.content_kept (by rfl) (by rfl) fun position _ from_last => ?_
  have from_newest := from_last newest last
  exact Contents.put_apart _ _ (fun both => by omega)

/-- Whatever a log holds, each file in it can be read, and the readers of a file keep it. -/
theorem legible (room : store.free ≤ store.partition.blocks) (contents : Contents) (ufid : Ufid) :
    store.Legible ufid contents ((store.tape contents).records [] 1) (store.SameFile ufid contents) where
  room := room
  listed := rfl
  now := ⟨rfl, rfl⟩
  pruned := by
    intro id index current older newer found kept same behind ahead before
    exact kept.void found same behind ahead before

end Store

/-- The ways to ask for a file. -/
inductive Reader where
  | size
  | contains
  | readAll
  | readInto (buffer : List UInt8)

namespace Reader

def request (ufid : Ufid) : Reader → Request
  | size => .size ufid
  | contains => .contains ufid
  | readAll => .readAll ufid
  | readInto buffer => .readInto ufid buffer

def answer : Option (List UInt8) → Reader → Answer
  | some data, size => .size data.length
  | some _, contains => .contains true
  | some data, readAll => .content data
  | some data, readInto buffer => .copied data.length (data.take buffer.length ++ buffer.drop data.length)
  | none, size => .failed .notFound
  | none, contains => .contains false
  | none, readAll => .failed .notFound
  | none, readInto buffer => .failedCopy .notFound buffer

theorem readsFile_request (reader : Reader) (ufid : Ufid) : (reader.request ufid).ReadsFile ufid := by
  cases reader <;> exact rfl

theorem answer_of_step {files after : Files} {reader : Reader} {ufid : Ufid} {answered : Answer}
    (step : files.Step True (reader.request ufid) answered after) : answered = answer (files ufid) reader := by
  cases reader with
  | size =>
      cases step with
      | size present => rw [present, answer]
      | noSize absent => rw [absent, answer]
  | contains =>
      cases step with
      | contains => cases files ufid <;> rfl
  | readAll =>
      cases step with
      | content present => rw [present, answer]
      | noContent absent => rw [absent, answer]
  | readInto buffer =>
      cases step with
      | copied present => rw [present, answer]
      | notCopied absent => rw [absent, answer]

end Reader

namespace Session

variable {μ : Type} [Medium μ] [LawfulMedium μ] {session : Session μ} {store : Store} {medium : μ}

theorem perform_reader (fits : store.partition.Fits medium) (room : store.free ≤ store.partition.blocks) (ufid : Ufid)
    (reader : Reader) :
    ∃ after, perform ⟨medium, some store⟩ (reader.request ufid) =
        (.ok (reader.answer (Record.files ((store.tape (store.partition.contents medium)).records [] 1) ufid)),
          ⟨after, some store⟩) ∧
      store.partition.Fits after ∧
      store.SameFile ufid (store.partition.contents medium) (store.partition.contents after) := by
  obtain ⟨-, answered, after, performed, fits', kept, step⟩ :=
    informs_of_legible fits (store.legible room _ ufid) (reader.readsFile_request ufid)
  rw [Reader.answer_of_step (step True)] at performed
  exact ⟨after, performed, fits', kept⟩

/-- Readers of a file in a row are all answered with the same content. -/
theorem performAll_readers (fits : store.partition.Fits medium) (room : store.free ≤ store.partition.blocks)
    (ufid : Ufid) {content : Option (List UInt8)}
    (file : Record.files ((store.tape (store.partition.contents medium)).records [] 1) ufid = content)
    (readers : List Reader) :
    ∃ last, performAll ⟨medium, some store⟩ (readers.map (Reader.request ufid)) =
      (readers.map (Reader.answer content), none, last) := by
  induction readers generalizing medium with
  | nil => exact ⟨_, rfl⟩
  | cons reader rest ih =>
      obtain ⟨after, performed, fits', kept⟩ := perform_reader fits room ufid reader
      obtain ⟨last, later⟩ := ih fits' (kept.file.trans file)
      refine ⟨last, ?_⟩
      rw [List.map_cons, performAll, performed, file]
      simp only [later, List.map_cons]

/-- The readers of a file agree. Whatever was on a medium that has room for the logs, after any history that starts by
mounting it and breaks no precondition each file either has no content or has one, of no more than the largest size: the
last that the log records for its id behind its first entry. Its readers, in any order and any number, none of which
breaks a precondition, all answer so: without content all report that there is none, and buffers are as they were; with
content its size, the content itself and that it is there are reported, and a buffer holds the content from its front on
as far as it goes, and behind that what it held before. -/
theorem readers_agree {medium : μ} {geometry : Geometry}
    (fits : Partition.Fits ⟨Medium.polarity medium, geometry⟩ medium) (requests : List Request)
    (same : ∀ other, .mount other ∈ requests → other = geometry) {answers : List Answer}
    (reached : performAll ⟨medium, none⟩ (.mount geometry :: requests) = (answers, none, session)) (ufid : Ufid) :
    ∃ store content, session.store = some store ∧
      content = Record.files ((store.tape (store.partition.contents session.medium)).records [] 1) ufid ∧
      (∀ data, content = some data → data.length ≤ maxFileSize) ∧
      ∀ readers : List Reader, ∃ last, session.performAll (readers.map (Reader.request ufid)) =
        (readers.map (Reader.answer content), none, last) := by
  obtain ⟨store, knows, together, room, charge⟩ :=
    @performAll_inCharge μ _ _ ⟨Medium.polarity medium, geometry⟩ session medium fits requests same answers reached
  rw [← together] at charge room
  obtain ⟨last, given⟩ := session
  obtain rfl : given = some store := knows
  exact ⟨store, _, rfl, rfl, fun data present => Tape.files_small _ present,
    fun readers => performAll_readers room charge.room ufid rfl readers⟩

section Contested

set_option maxRecDepth 32768

/-- A log in which three starts follow the entry of a file. The last two begin sound chains; with the first of these
made void, so does the start before them. -/
def contested : Simulated where
  polarity := .ones
  pageSize := 160
  words :=
    #[0x5346504A, 0, 0, 0, 0, 0, 0, 0,
      0x3, 0x07070707, 0x07070707, 0x07070707, 0, 0, 0, 0xDDB1670F,
      0x2801, 0, 0, 0, 0, 0, 0, 0xB32DEA76,
      0x1801, 0, 0, 0, 0, 0, 0, 0x1D33F72B,
      0x1801, 1, 0, 0, 0, 0, 0, 0x9C16920C] ++ Array.replicate 40 0xFFFFFFFF

theorem contested_fits : Partition.Fits ⟨.ones, ⟨0, 160, 160⟩⟩ contested := by
  refine Partition.Fits.simulated rfl rfl (by decide) ?_
  intro log
  cases log <;> decide

def contestedSession : Session Simulated :=
  (performAll ⟨contested, none⟩ [.mount ⟨0, 160, 160⟩]).2.2

/-- There the first reader changes the medium, and it and all after it are answered with the third chain. -/
theorem readers_agree_contested :
    (contestedSession.perform (.size (Vector.replicate 12 7))).2.medium ≠ contestedSession.medium ∧
      ∀ readers : List Reader, ∃ last,
        contestedSession.performAll (readers.map (Reader.request (Vector.replicate 12 7))) =
          (readers.map (Reader.answer (some (1 :: List.replicate 23 0))), none, last) := by
  have reached : performAll ⟨contested, none⟩ [.mount ⟨0, 160, 160⟩] = ([.done], none, contestedSession) := by rfl
  obtain ⟨-, content, -, -, -, agree⟩ := @readers_agree Simulated _ _ contestedSession contested ⟨0, 160, 160⟩
    contested_fits [] (fun other member => absurd member List.not_mem_nil) _ reached (Vector.replicate 12 7)
  have read : (contestedSession.performAll [.readAll (Vector.replicate 12 7)]).1 =
      [.content (1 :: List.replicate 23 0)] := by rfl
  obtain ⟨last, answered⟩ := agree [.readAll]
  simp only [List.map_cons, List.map_nil, Reader.request] at answered
  rw [answered] at read
  cases content with
  | none => cases read
  | some data =>
      simp only [Reader.answer, List.cons.injEq, Answer.content.injEq, and_true] at read
      subst read
      exact ⟨by decide +kernel, agree⟩

end Contested

end Session

end TwinLog
