import TwinLog.Proofs.FailedSave

set_option autoImplicit false

namespace TwinLog

namespace Partition

variable {σ α β : Type} {partition : Partition} {spared : σ → Contents → Prop} {state : σ} {contents : Contents}

/-- Whether, on every medium in working order that holds `contents`, an operation leaves behind what satisfies `spared`
wherever one of its calls fails. -/
def Spares (partition : Partition) (spared : σ → Contents → Prop) (script : Script σ α) (state : σ)
    (contents : Contents) : Prop :=
  ∀ (μ : Type) [Medium μ] [LawfulMedium μ] (medium : μ), partition.Fits medium →
    partition.contents medium = contents →
    script.Spares (fun left after => partition.Fits after ∧ spared left (partition.contents after)) state medium

theorem Achieves.spares {result : Except StoreError α → σ → Contents → Prop} {cut : Bool → σ → Contents → Prop}
    {script : Script σ α} (achieved : partition.Achieves result cut script state contents)
    (cuts : ∀ torn left current, cut torn left current → spared left current) :
    partition.Spares spared script state contents := by
  intro μ _ _ medium fits same
  exact (achieved μ medium fits same).spares (fun torn left _ holds => ⟨holds.1, cuts torn left _ holds.2⟩)

/-- An operation that comes to `result` if no call fails, and to what is spared if one does. -/
structure Withstands (partition : Partition) (result : Except StoreError α → σ → Contents → Prop)
    (spared : σ → Contents → Prop) (script : Script σ α) (state : σ) (contents : Contents) : Prop where
  achieves : partition.Achieves result (fun _ _ _ => True) script state contents
  spares : partition.Spares spared script state contents

theorem Achieves.withstands {result : Except StoreError α → σ → Contents → Prop} {script : Script σ α}
    (achieved : partition.Achieves result (fun _ left current => spared left current) script state contents) :
    partition.Withstands result spared script state contents :=
  ⟨achieved.mono (fun _ _ _ holds => holds) (fun _ _ _ _ => trivial), achieved.spares (fun _ _ _ holds => holds)⟩

theorem Withstands.bind {result : Except StoreError β → σ → Contents → Prop} {script : Script σ α}
    {next : α → Script σ β}
    (withstands : partition.Withstands (fun value state contents =>
      match value with
      | .ok value => partition.Withstands result spared (next value) state contents
      | .error error => spared state contents ∧ result (.error error) state contents) spared script state contents) :
    partition.Withstands result spared (script >>= next) state contents := by
  constructor
  · apply Achieves.bind
    apply withstands.achieves.mono _ (fun _ _ _ holds => holds)
    intro value left after holds
    cases value with
    | ok value => exact holds.achieves
    | error error => exact holds.2
  · intro μ _ _ medium fits same
    apply Script.spares_bind (withstands.spares μ medium fits same)
    apply (withstands.achieves μ medium fits same).mono _ (fun _ _ _ holds => holds)
    intro value left after holds
    cases value with
    | ok value => exact holds.2.spares μ after holds.1 rfl
    | error error => exact ⟨holds.1, holds.2.1⟩

theorem withstands_pure {result : Except StoreError α → σ → Contents → Prop} {value : α}
    (next : result (.ok value) state contents) : partition.Withstands result spared (pure value) state contents := by
  refine ⟨achieves_pure trivial next, ?_⟩
  intro μ _ _ medium _ _ error kept index left after failed
  cases failed

end Partition

namespace Store

variable {store left : Store} {contents current : Contents}

theorem grown_grown (store : Store) (count more : Nat) :
    (store.grown count).grown more = store.grown (count + more) := by
  simp only [grown, Nat.add_assoc]

/-- What is left of appending `blocks` where the write of one of them fails: the blocks before it, which the store knows
of, and some of its words or all. -/
inductive BrokenOff (store : Store) (contents : Contents) (blocks : List Block) : Store → Contents → Prop
  | intro (before : List Block) (block : Block) (after : List Block) (split : blocks = before ++ block :: after)
      (count : Nat) (short : count ≤ 8) :
      BrokenOff store contents blocks (store.grown before.length)
        ((contents.lay store.active store.free before).put store.active (store.free + before.length)
          (block.toList.take count))

theorem BrokenOff.first {block : Block} (broken : store.BrokenOff contents [block] left current) (rest : List Block) :
    store.BrokenOff contents (block :: rest) left current := by
  cases broken with
  | intro before next after split count short =>
      have more : block :: rest = before ++ next :: (after ++ rest) := by
        rw [← List.cons_append, ← List.append_assoc, ← split, List.singleton_append]
      exact .intro before next (after ++ rest) more count short

theorem BrokenOff.later {block : Block} {rest : List Block}
    (broken : (store.grown 1).BrokenOff (contents.put store.active store.free block.toList) rest left current) :
    store.BrokenOff contents (block :: rest) left current := by
  cases broken with
  | intro before next after split count short =>
      have further : store.BrokenOff contents (block :: rest) _ _ :=
        .intro (block :: before) next after (by rw [split, List.cons_append]) count short
      rw [grown, List.length_cons, Nat.add_comm before.length 1, ← Nat.add_assoc] at further
      exact further

end Store

namespace Partition

variable {store : Store} {contents : Contents} {spared : Store → Contents → Prop} {ufid : Ufid} {data : List UInt8}

/-- A block is appended unless its write fails. The store knows of the block only after that, when no call is left. -/
theorem withstands_grow {result : Except StoreError Store → Store → Contents → Prop} {block : Block}
    (room : store.free < store.partition.blocks)
    (taken : Block.Takes store.partition.polarity (contents store.active store.free) block)
    (broken : ∀ left current, store.BrokenOff contents [block] left current → spared left current)
    (next : result (.ok (store.grown 1)) (store.grown 1) (contents.put store.active store.free block.toList)) :
    store.partition.Withstands result spared (store.append block) store contents := by
  have part (count : Nat) (short : count ≤ 8) :
      spared store (contents.put store.active store.free (block.toList.take count)) :=
    broken _ _ (.intro [] block [] rfl count short)
  have none := part 0 (Nat.zero_le 8)
  have whole := part 8 (Nat.le_refl 8)
  rw [List.take_zero, Contents.put_nil] at none
  rw [List.take_of_length_le (Nat.le_of_eq block.length_toList)] at whole
  apply Withstands.bind
  apply Achieves.withstands
  apply achieves_append room taken none _ whole
  · apply Withstands.bind
    refine ⟨achieves_leave trivial trivial (withstands_pure next), ?_⟩
    intro μ _ _ medium _ _ error kept index left after failed
    cases failed
  · intro count short
    exact part count (Nat.le_of_lt short)

theorem withstands_appendAll {result : Except StoreError Store → Store → Contents → Prop} (blocks : List Block)
    (room : store.free + blocks.length ≤ store.partition.blocks)
    (clear : ∀ position, store.free ≤ position →
      contents store.active position = Block.blank store.partition.polarity)
    (broken : ∀ left current, store.BrokenOff contents blocks left current → spared left current)
    (next : result (.ok (store.grown blocks.length)) (store.grown blocks.length)
      (contents.lay store.active store.free blocks)) :
    store.partition.Withstands result spared (store.appendAll blocks) store contents := by
  induction blocks generalizing store contents with
  | nil => exact withstands_pure next
  | cons block rest ih =>
      rw [List.length_cons] at room
      apply Withstands.bind
      apply withstands_grow (by omega) (Block.takes_of_blank (clear _ (Nat.le_refl _)) _)
      · intro left current first
        exact broken left current (first.first rest)
      · change (store.grown 1).partition.Withstands _ _ _ _ _
        apply ih
        · change store.free + 1 + rest.length ≤ store.partition.blocks
          omega
        · intro position late
          change store.free + 1 ≤ position at late
          change contents.put store.active store.free block.toList store.active position = _
          rw [Contents.put_apart _ _ (by rintro ⟨-, rfl⟩; omega)]
          exact clear position (by omega)
        · intro left current further
          exact broken left current further.later
        · rw [List.length_cons, Nat.add_comm rest.length 1, ← Store.grown_grown] at next
          exact next

theorem withstands_place {result : Except StoreError Bool → Store → Contents → Prop}
    (room : store.free ≤ store.partition.blocks) (small : data.length ≤ maxFileSize)
    (clear : ∀ position, store.free ≤ position →
      contents store.active position = Block.blank store.partition.polarity)
    (here : spared store contents)
    (broken : ∀ blocks, store.additions contents ufid data = some blocks →
      store.free + blocks.length ≤ store.partition.blocks →
      ∀ left current, store.BrokenOff contents blocks left current → spared left current)
    (full : result (.error .noFileIds) store contents) (fits : ∀ left current, result (.ok true) left current)
    (tight : result (.ok false) store contents) :
    store.partition.Withstands result spared (store.place ufid data) store contents := by
  rw [Store.place_eq store ufid small]
  apply Withstands.bind
  apply Achieves.withstands
  change store.journal.partition.Achieves _ _ _ _ _
  apply achieves_lookup room here
  intro answer located
  have same := Store.additions_located located data
  have left : store.usage.free = store.partition.blocks - store.free := rfl
  simp only
  split
  · exact Achieves.withstands (achieves_fail here full)
  · rename_i blocks called
    split
    · have bound : store.free + blocks.length ≤ store.partition.blocks := by omega
      apply Withstands.bind
      apply withstands_appendAll blocks bound clear (broken blocks (same.trans called) bound)
      exact withstands_pure (fits _ _)
    · exact withstands_pure tight

end Partition

namespace Store

variable {store left : Store} {contents current : Contents} {records : List Record} {blocks : List Block} {ufid : Ufid}
  {data : List UInt8}

def Finds (partition : Partition) (files : Files) (store : Store) (contents : Contents) : Prop :=
  store.partition = partition ∧ ∃ records, store.Usable contents records ∧ Record.files records = files

theorem InOrder.finds (inOrder : store.InOrder [] contents records) :
    Finds store.partition (Record.files records) store contents :=
  ⟨rfl, records, inOrder.usable, rfl⟩

/-- Blocks of a file that are not all there, as far as the store knows, do not change the file. -/
theorem BrokenOff.finds (inOrder : store.InOrder [] contents records) (small : data.length ≤ maxFileSize)
    (added : store.additions contents ufid data = some blocks)
    (room : store.free + blocks.length ≤ store.partition.blocks)
    (broken : store.BrokenOff contents blocks left current) :
    Finds store.partition (Record.files records) left current := by
  cases broken with
  | intro before block after split count short =>
      rw [split] at added room
      rw [List.length_append] at room
      have same (index : Nat) (early : index < store.free + before.length) :
          (contents.lay store.active store.free before).put store.active (store.free + before.length)
            (block.toList.take count) store.active index =
              contents.lay store.active store.free before store.active index :=
        Contents.put_apart _ _ (by rintro ⟨-, rfl⟩; omega)
      have clear (index : Nat) (late : store.free + before.length < index) :
          (contents.lay store.active store.free before).put store.active (store.free + before.length)
            (block.toList.take count) store.active index = Block.blank store.partition.polarity := by
        rw [Contents.put_apart _ _ (by rintro ⟨-, rfl⟩; omega),
          Contents.lay_apart _ _ (.inr (.inr (Nat.le_of_lt late)))]
        exact inOrder.settled.clear index (by change store.free ≤ index; omega)
      obtain ⟨kept, usable, unchanged⟩ := inOrder.usable_part small added (by omega) same clear
      exact ⟨rfl, kept, usable, unchanged (List.cons_ne_nil _ _)⟩

theorem Rotated.finds (unique : Record.Unique records) (turn : store.Rotated records left current) :
    Finds store.partition (Record.files records) left current :=
  ⟨turn.partition, _, (turn.inOrder unique).usable, Record.files_live unique.ufids⟩

/-- A rotation that fails changes no file. -/
theorem InOrder.withstands_rotate (inOrder : store.InOrder [] contents records)
    {result : Except StoreError Store → Store → Contents → Prop}
    (next : ∀ rotated after, store.Rotated records rotated after → result (.ok rotated) rotated after) :
    store.partition.Withstands result (Finds store.partition (Record.files records)) store.rotate store contents := by
  apply Partition.Achieves.withstands
  apply Partition.achieves_rotate (inOrder.listed (Tape.harmless_nil _)) inOrder.settled.positive inOrder.room
    inOrder.unique
  · intro torn current rotating
    exact (inOrder.congr (fun position late => rotating.kept late)).finds
  · intro rotated after turn
    exact ⟨turn.finds inOrder.unique, next rotated after turn⟩

/-- A save that fails changes no file. -/
theorem InOrder.withstands_save (inOrder : store.InOrder [] contents records) (ufid : Ufid) (data : List UInt8) :
    store.partition.Withstands (fun _ _ _ => True) (Finds store.partition (Record.files records)) (store.save ufid data)
      store contents := by
  rw [save]
  split
  · exact Partition.Achieves.withstands (Partition.achieves_fail inOrder.finds trivial)
  · rename_i large
    have small : data.length ≤ maxFileSize := Nat.le_of_not_lt large
    apply Partition.Withstands.bind
    apply Partition.withstands_place inOrder.room small inOrder.settled.clear inOrder.finds
    · intro blocks added room left current broken
      exact broken.finds inOrder small added room
    · exact ⟨inOrder.finds, trivial⟩
    · intro left current
      exact Partition.withstands_pure trivial
    · apply Partition.Withstands.bind
      apply inOrder.withstands_rotate
      intro rotated after turn
      have order := turn.inOrder inOrder.unique
      have files := Record.files_live inOrder.unique.ufids
      rw [← turn.partition, ← files]
      apply Partition.Withstands.bind
      apply Partition.withstands_place order.room small order.settled.clear order.finds
      · intro blocks added room left current broken
        exact broken.finds order small added room
      · exact ⟨order.finds, trivial⟩
      · intro left current
        exact Partition.withstands_pure trivial
      · exact Partition.Achieves.withstands (Partition.achieves_fail order.finds trivial)

/-- Making a chain void that a later one takes the place of changes no file of a usable store either. -/
theorem Usable.supersede (usable : store.Usable contents records) {id : FileId} {start : Nat} (positive : 1 ≤ start)
    {older newer : Chain} (behind : (store.tape contents).Holds id start older)
    (ahead : (store.tape contents).Holds id start newer) (before : older.start < newer.start) :
    Finds store.partition (Record.files records) store
      (contents.put store.active older.start [store.partition.polarity.voidWord]) := by
  have late := behind.from_start
  have clear := behind.unscarred usable.harmless positive
  have apart (position : Nat) (differs : position ≠ older.start) :
      contents.put store.active older.start [store.partition.polarity.voidWord] store.active position =
        contents store.active position :=
    Contents.put_apart _ _ (fun same => differs same.2)
  have voided : (store.tape contents).polarity.kind ((store.tape
      (contents.put store.active older.start [store.partition.polarity.voidWord])).blocks older.start).info = .cont :=
    Contents.kind_voided contents store.active older.start store.partition.polarity
  obtain ⟨earlier, split, keeps⟩ := usable.keeps.void (by omega) behind.inside clear behind.record
    (by rfl) (by rfl) apart voided
  have later := Tape.latest_isSome (show older.start + 1 ≤ newer.start by omega) ahead.inside
    (ahead.unscarred usable.harmless positive) ahead.record
  have unique := usable.unique
  rw [split] at unique
  refine ⟨rfl, _, ⟨?_, usable.room, ?_, unique.remove⟩, ?_⟩
  · rw [Tape.unfinished_void clear apart voided]
    exact keeps
  · intro position beyond
    have inside : older.start < store.free := behind.inside
    rw [apart position (by omega)]
    exact usable.clear position beyond
  · rw [split, Record.files_supersede _ _ later]

theorem Usable.readable (usable : store.Usable contents records) :
    store.Readable contents records (Finds store.partition (Record.files records) store) where
  positive := usable.keeps.positive
  room := usable.room
  listed := usable.listed
  now := ⟨rfl, records, usable, rfl⟩
  pruned := by
    intro id start current older newer positive finds same behind ahead before
    obtain ⟨-, kept, usable', files⟩ := finds
    have behind' : (store.tape current).Holds id start older := behind.same (by rfl) (by rfl) same
    have ahead' : (store.tape current).Holds id start newer :=
      ahead.same (by rfl) (by rfl) (fun position from_newer => same position (by omega))
    rw [← files]
    exact usable'.supersede positive behind' ahead' before

/-- A removal that fails has done nothing yet or made the entry of the file void. -/
theorem InOrder.withstands_remove (inOrder : store.InOrder [] contents records) (ufid : Ufid) :
    store.partition.Withstands (fun _ _ _ => True)
      (fun left current => left = store ∧ (current = contents ∨
        ∃ id index, (store.tape contents).Locates ufid 1 [] (.found id index) ∧
          current = contents.put store.active index [store.partition.polarity.voidWord]))
      (store.remove ufid) store contents := by
  apply Partition.Achieves.withstands
  apply Partition.achieves_unbind inOrder.room (fun _ => ⟨rfl, .inl rfl⟩)
  · intro id index located
    exact ⟨⟨rfl, .inr ⟨id, index, located, rfl⟩⟩, trivial⟩
  · exact fun _ _ => trivial

end Store

namespace Session

variable {μ : Type} [Medium μ]

/-- Whether all that is read of a session, any number of times, is answered as where there are `files`. -/
def Shows (session : Session μ) (files : Files) : Prop :=
  ∀ requests : List Request, (∀ request ∈ requests, request.Reads) →
    ∃ answers last, session.performAll requests = (answers, none, last) ∧ Files.Run True files requests answers files

/-- What an operation of the mounted store leaves where one of its calls fails, so that it ends with that error. -/
def FailsIn {α : Type} (session : Session μ) (store : Store) (script : Script Store α) (failed : Session μ) : Prop :=
  ∃ error kept index left after, failed = ⟨after, some left⟩ ∧
    script.runFailing error kept index store session.medium = ⟨.error (.error (.medium error)), left, after⟩

/-- What a request of a mounted store leaves where one of its calls fails. -/
def Fails (session : Session μ) (request : Request) (failed : Session μ) : Prop :=
  match request, session.store with
  | .mount _, _ => False
  | _, none => False
  | .save ufid data, some store => session.FailsIn store (store.save ufid data) failed
  | .remove ufid, some store => session.FailsIn store (store.remove ufid : Script Store Unit) failed
  | .rotate, some store => session.FailsIn store store.rotate failed
  | .size ufid, some store => session.FailsIn store (store.size ufid : Script Store Nat) failed
  | .contains ufid, some store => session.FailsIn store (store.contains ufid : Script Store Bool) failed
  | .readAll ufid, some store => session.FailsIn store (store.readAll ufid : Script Store (List UInt8)) failed
  | .readInto ufid buffer, some store =>
      ∃ error kept index left after, failed = ⟨after, some store⟩ ∧
        (store.readInto ufid buffer).runFailing error kept index buffer session.medium =
          ⟨.error (.error (.medium error)), left, after⟩
  | .usage, some _ => False
  | .saveValue ufid payload, some store => session.FailsIn store (store.saveValue ufid payload) failed
  | .loadValue ufid shape, some store =>
      session.FailsIn store (store.loadValue ufid shape : Script Store shape.Value) failed

variable [LawfulMedium μ] {partition : Partition} {session failed : Session μ} {store : Store} {medium : μ}
  {records : List Record} {files : Files} {request : Request}

def Voided (session failed : Session μ) (ufid : Ufid) : Prop :=
  ∃ store index id, session.store = some store ∧
    (store.partition.contents session.medium store.active index).binding? store.partition.polarity = some (id, ufid) ∧
    (store.partition.contents failed.medium store.active index).info = store.partition.polarity.voidWord

theorem shows_of_finds (fits : partition.Fits medium)
    (finds : Store.Finds partition files store (partition.contents medium)) : Shows ⟨medium, some store⟩ files := by
  intro requests reads
  obtain ⟨answers, last, found, performed, ⟨rfl, -⟩, run⟩ := @performAll_of_step μ _ ⟨medium, some store⟩
    (fun session given => given = files ∧ ∃ medium, session = ⟨medium, some store⟩ ∧ partition.Fits medium ∧
      Store.Finds partition files store (partition.contents medium)) requests
    (by
      intro session given request member invariant
      obtain ⟨rfl, medium, rfl, fits, rfl, records, usable, rfl⟩ := invariant
      obtain ⟨-, answer, after, performed, fits', finds', step⟩ :=
        informs_of_readable fits usable.readable (reads request member)
      exact ⟨answer, _, _, performed, ⟨rfl, after, rfl, fits', finds'⟩, step True⟩)
    files ⟨rfl, medium, rfl, fits, finds⟩
  exact ⟨answers, last, performed, run⟩

theorem FailsIn.spared {α : Type} {script : Script Store α} {spared : Store → Contents → Prop}
    (fails : session.FailsIn store script failed)
    (fits : store.partition.Fits session.medium)
    (withstands : store.partition.Withstands (fun _ _ _ => True) spared script store
      (store.partition.contents session.medium)) :
    ∃ left after, failed = ⟨after, some left⟩ ∧ store.partition.Fits after ∧
      spared left (store.partition.contents after) := by
  obtain ⟨error, kept, index, left, after, rfl, ran⟩ := fails
  obtain ⟨fits', holds⟩ := withstands.spares μ session.medium fits rfl error kept index left after ran
  exact ⟨left, after, rfl, fits', holds⟩

theorem FailsIn.shows {α : Type} {script : Script Store α} (fails : session.FailsIn store script failed)
    (fits : store.partition.Fits session.medium)
    (withstands : store.partition.Withstands (fun _ _ _ => True) (Store.Finds store.partition files) script store
      (store.partition.contents session.medium)) : failed.Shows files := by
  obtain ⟨left, after, rfl, fits', finds⟩ := fails.spared fits withstands
  exact shows_of_finds fits' finds

theorem Current.shows (current : session.Current partition store records) : session.Shows (Record.files records) := by
  obtain ⟨medium, given⟩ := session
  obtain ⟨⟨mounted, rfl, fits, inOrder⟩, -, -⟩ := current
  simp only at mounted
  subst mounted
  exact shows_of_finds fits inOrder.finds

/-- Where a call of a request fails, the store goes on with the files that it had, unless it was to remove one. -/
theorem Current.shows_failed (current : session.Current partition store records) (fails : session.Fails request failed)
    (keeps : ∀ ufid, request ≠ .remove ufid) : failed.Shows (Record.files records) := by
  obtain ⟨⟨mounted, rfl, fits, inOrder⟩, -, -⟩ := current
  have legible := inOrder.usable.readable.legible
  unfold Fails at fails
  rw [mounted] at fails
  cases request with
  | mount geometry => cases fails
  | usage => cases fails
  | remove ufid => exact absurd rfl (keeps ufid)
  | save ufid data => exact fails.shows fits (inOrder.withstands_save ufid data)
  | rotate => exact fails.shows fits (inOrder.withstands_rotate (fun _ _ _ => trivial))
  | size ufid =>
      apply fails.shows fits
      apply Partition.Achieves.withstands
      exact Partition.achieves_size (legible ufid) (fun _ _ finds => finds) (fun _ _ _ _ => trivial)
        (fun _ _ _ => trivial)
  | contains ufid =>
      apply fails.shows fits
      apply Partition.Achieves.withstands
      exact Partition.achieves_contains (legible ufid) (fun _ _ finds => finds) (fun _ _ => trivial)
  | readAll ufid =>
      apply fails.shows fits
      apply Partition.Achieves.withstands
      exact Partition.achieves_readAll (legible ufid) (fun _ _ finds => finds) (fun _ _ _ _ => trivial)
        (fun _ _ _ => trivial)
  | readInto ufid buffer =>
      have withstands : store.partition.Withstands (fun _ _ _ => True)
          (fun _ => Store.Finds store.partition (Record.files records) store) (store.readInto ufid buffer) buffer
          (store.partition.contents session.medium) := by
        apply Partition.Achieves.withstands
        exact Partition.achieves_readInto (legible ufid) buffer (fun _ _ _ finds => finds) (fun _ _ _ _ => trivial)
          (fun _ _ _ => trivial)
      obtain ⟨error, kept, index, left, after, rfl, ran⟩ := fails
      obtain ⟨fits', finds⟩ := withstands.spares μ session.medium fits rfl error kept index left after ran
      exact shows_of_finds fits' finds
  | saveValue ufid payload =>
      apply fails.shows fits
      rw [Store.saveValue]
      split
      · exact inOrder.withstands_save ufid _
      · exact Partition.Achieves.withstands (Partition.achieves_fail inOrder.finds trivial)
  | loadValue ufid shape =>
      apply fails.shows fits
      apply Partition.Achieves.withstands
      apply Partition.Achieves.bind
      apply Partition.achieves_readAll (legible ufid) (fun _ _ finds => finds)
      · intro data after finds present
        simp only
        split
        · exact Partition.achieves_pure finds trivial
        · exact Partition.achieves_fail finds trivial
      · exact fun _ _ _ => trivial

/-- A removal in which a call fails has its effect if it made the entry void, and none otherwise. -/
theorem Current.shows_unremoved (current : session.Current partition store records) {ufid : Ufid}
    (fails : session.Fails (.remove ufid) failed) :
    (¬ session.Voided failed ufid → failed.Shows (Record.files records)) ∧
      (session.Voided failed ufid → failed.Shows ((Record.files records).erase ufid)) := by
  obtain ⟨⟨mounted, rfl, fits, inOrder⟩, -, -⟩ := current
  unfold Fails at fails
  rw [mounted] at fails
  obtain ⟨left, after, rfl, fits', rfl, outcome⟩ := fails.spared fits (inOrder.withstands_remove ufid)
  rcases outcome with unchanged | ⟨id, index, located, voided⟩
  · have finds := inOrder.finds
    rw [← unchanged] at finds
    refine ⟨fun _ => shows_of_finds fits' finds, ?_⟩
    -- the entry is as it was, so it is not void
    rintro ⟨store, index, id, knows, bound, info⟩
    rw [mounted, Option.some.injEq] at knows
    subst knows
    have kind := Block.kind_of_binding bound
    rw [← unchanged, info, Polarity.kind_voidWord] at kind
    cases kind
  · obtain ⟨kept, order, -, -, files⟩ := inOrder.unbind (Tape.harmless_nil _) located
    have finds := order.finds
    rw [← voided, files] at finds
    refine ⟨?_, fun _ => shows_of_finds fits' finds⟩
    intro kept
    apply absurd _ kept
    refine ⟨left, index, id, mounted, located.2.2.1, ?_⟩
    rw [voided, Contents.put_same, Block.info_overlay]

/-- A request in which one call fails changes no file. After any history in which nothing had failed, whichever call of
a request fails, and however many words of a write that fails are there, the store that goes on shows the files that it
had; the one exception is a removal that made the entry of the file void, after which that file alone is gone. -/
theorem failedRequest_shows {medium : μ} {geometry : Geometry}
    (fits : Partition.Fits ⟨Medium.polarity medium, geometry⟩ medium)
    (unmarked : ∀ log, (Partition.contents ⟨Medium.polarity medium, geometry⟩ medium).marked log = false)
    (earlier : List Request) (same : ∀ other, .mount other ∈ earlier → other = geometry) {answers : List Answer}
    (reached : performAll ⟨medium, none⟩ (.mount geometry :: earlier) = (answers, none, session))
    (fails : session.Fails request failed) :
    ∃ files, Files.Run True Files.empty (.mount geometry :: earlier) answers files ∧ session.Shows files ∧
      ((∀ ufid, request = .remove ufid → ¬ session.Voided failed ufid) → failed.Shows files) ∧
      ∀ ufid, request = .remove ufid → session.Voided failed ufid → failed.Shows (files.erase ufid) := by
  obtain ⟨_, _, store, records, performed, current, run⟩ := performAll_unmarked fits unmarked earlier same
  rw [reached] at performed
  obtain ⟨rfl, -, rfl⟩ : _ ∧ _ ∧ _ := by simpa only [Prod.mk.injEq] using performed
  refine ⟨_, run, current.shows, ?_, ?_⟩
  · intro unharmed
    by_cases removes : ∃ ufid, request = .remove ufid
    · obtain ⟨ufid, rfl⟩ := removes
      exact (current.shows_unremoved fails).1 (unharmed ufid rfl)
    · exact current.shows_failed fails (fun ufid same => removes ⟨ufid, same⟩)
  · intro ufid removes
    subst removes
    exact (current.shows_unremoved fails).2

section WholeBlock

set_option maxRecDepth 8192

def wholeSave : Outcome Store Simulated Unit :=
  Script.runFailing .device 8 (Store.save ⟨⟨.ones, ⟨0, 128, 128⟩⟩, .a, 3⟩ (Vector.replicate 12 7) [2]) 1
    ⟨⟨.ones, ⟨0, 128, 128⟩⟩, .a, 3⟩ oneFile.medium

theorem wholeSave_fails :
    oneFile.Fails (.save (Vector.replicate 12 7) [2]) ⟨wholeSave.medium, some wholeSave.state⟩ := by
  have ended : wholeSave.result = .error (.error (.medium .device)) := by decide +kernel
  refine ⟨.device, 8, 1, wholeSave.state, wholeSave.medium, rfl, ?_⟩
  rw [← ended]
  rfl

/-- That save is not seen by the store that goes on, although its block is there. -/
theorem failedRequest_shows_wholeSave :
    oneFile.Fails (.save (Vector.replicate 12 7) [2]) ⟨wholeSave.medium, some wholeSave.state⟩ ∧
      ∃ files,
        Files.Run True Files.empty [.mount ⟨0, 128, 128⟩, .save (Vector.replicate 12 7) [1]] [.done, .done] files ∧
        oneFile.Shows files ∧ Shows ⟨wholeSave.medium, some wholeSave.state⟩ files := by
  obtain ⟨files, run, shows_before, shows_after, -⟩ := @failedRequest_shows Simulated _ _ oneFile
    ⟨wholeSave.medium, some wholeSave.state⟩ _ unwritten ⟨0, 128, 128⟩ unwritten_fits
    (fun log => by cases log <;> decide) [.save (Vector.replicate 12 7) [1]]
    (fun other member => by simp at member) _ performAll_oneFile wholeSave_fails
  refine ⟨wholeSave_fails, files, run, shows_before, shows_after ?_⟩
  intro ufid removes
  cases removes

end WholeBlock

end Session

end TwinLog
