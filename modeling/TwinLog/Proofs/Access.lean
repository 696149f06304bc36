import TwinLog.Proofs.Rotation

set_option autoImplicit false

namespace TwinLog

theorem Contents.kind_voided (contents : Contents) (log : Log) (index : Nat) (polarity : Polarity) :
    polarity.kind (contents.put log index [polarity.voidWord] log index).info = .cont := by
  rw [put_same, Block.info_overlay, Polarity.kind_voidWord]

theorem Contents.binding?_voided {contents : Contents} {log : Log} {index : Nat} {polarity : Polarity} {head : Start}
    (started : polarity.kind (contents log index).info = .start head) (position : Nat) :
    (contents.put log index [polarity.voidWord] log position).binding? polarity =
      (contents log position).binding? polarity := by
  by_cases here : position = index
  · subst here
    rw [Block.binding?_none, Block.binding?_none]
    · intro id entry
      rw [started] at entry
      cases entry
    · intro id entry
      rw [kind_voided] at entry
      cases entry
  · rw [put_apart _ _ (fun same => here same.2)]

namespace Store

/-- Whether the store knows its active log, in which `records` are found with no id and no identifier twice. -/
structure InOrder (store : Store) (scars : List Nat) (contents : Contents) (records : List Record) : Prop where
  settled : (store.tape contents).Settled scars records
  room : store.free ≤ store.partition.blocks
  unique : Record.Unique records

/-- Whether the store knows where its active log ends, whatever the log holds: nothing follows that is not erased. -/
structure Knows (store : Store) (contents : Contents) : Prop where
  positive : 1 ≤ store.free
  room : store.free ≤ store.partition.blocks
  clear : ∀ position, store.free ≤ position → contents store.active position = Block.blank store.partition.polarity
  ends : store.free = 1 ∨ contents store.active (store.free - 1) ≠ Block.blank store.partition.polarity

/-- What a change of the active log leaves alone: the other log, and both markers. -/
structure Stays (store : Store) (contents current : Contents) : Prop where
  other : current store.active.other = contents store.active.other
  marker : current store.active 0 = contents store.active 0

/-- What reading leaves of a log in order: the same files. -/
structure Trimmed (store : Store) (scars : List Nat) (contents : Contents) (records : List Record)
    (current : Contents) (kept : List Record) : Prop where
  inOrder : store.InOrder scars current kept
  files : Record.files kept = Record.files records
  entries : Record.entries kept = Record.entries records
  stays : store.Stays contents current

variable {store : Store} {scars : List Nat} {contents current : Contents} {records kept : List Record}

theorem InOrder.knows (inOrder : store.InOrder scars contents records) : store.Knows contents :=
  ⟨inOrder.settled.positive, inOrder.room, inOrder.settled.clear, inOrder.settled.ends⟩

theorem InOrder.listed (inOrder : store.InOrder scars contents records)
    (harmless : (store.tape contents).Harmless scars) : (store.tape contents).records [] 1 = records := by
  rw [harmless.records (Nat.le_refl 1), inOrder.settled.listed]

theorem InOrder.trimmed (inOrder : store.InOrder scars contents records) :
    store.Trimmed scars contents records contents records :=
  ⟨inOrder, rfl, rfl, ⟨rfl, rfl⟩⟩

/-- Only the blocks of the active log after its marker matter. -/
theorem InOrder.congr (inOrder : store.InOrder scars contents records)
    (same : ∀ position, 1 ≤ position → current store.active position = contents store.active position) :
    store.InOrder scars current records :=
  ⟨inOrder.settled.congr (by rfl) (by rfl) same, inOrder.room, inOrder.unique⟩

theorem InOrder.erased {partition : Partition} {log : Log} (room : 1 ≤ partition.blocks)
    (blank : ∀ position, 1 ≤ position → contents log position = Block.blank partition.polarity) :
    InOrder ⟨partition, log, 1⟩ [] contents [] := by
  refine ⟨⟨⟨Nat.le_refl _, ?_, ?_, Tape.records_done _ (Nat.le_refl _)⟩, blank, .inl rfl⟩, room,
    ⟨List.nodup_nil, List.nodup_nil⟩⟩
  · intro index member
    cases member
  · intro index head late early
    change index < 1 at early
    omega

theorem Stays.put (stays : store.Stays contents current) {index : Nat} (late : 1 ≤ index) (words : List Word) :
    store.Stays contents (current.put store.active index words) := by
  constructor
  · rw [← stays.other]
    exact Contents.put_other _ _ _ store.active.other_ne
  · rw [Contents.put_apart _ _ (by rintro ⟨-, rfl⟩; omega), stays.marker]

/-- The log in use does not change while the markers are left alone. -/
theorem Stays.inUse (stays : store.Stays contents current) : current.inUse = contents.inUse := by
  have here : current.marked store.active = contents.marked store.active := Contents.marked_congr stays.marker
  have there : current.marked store.active.other = contents.marked store.active.other :=
    Contents.marked_congr (congrFun stays.other 0)
  cases log : store.active <;> rw [log] at here there <;> simp only [Log.other] at there <;>
    rw [Contents.inUse, Contents.inUse, here, there]

/-- Making a block of the active log void takes its record out of it. -/
theorem InOrder.void (inOrder : store.InOrder scars contents records) {index : Nat} {record : Record}
    (late : 1 ≤ index) (inside : index < store.free) (clear : index ∉ scars)
    (found : (store.tape contents).recordAt index = some record) :
    ∃ before, records = before ++ record :: (store.tape contents).records scars (index + 1) ∧
      store.InOrder scars (contents.put store.active index [store.partition.polarity.voidWord])
        (before ++ (store.tape contents).records scars (index + 1)) := by
  have voided : (store.tape contents).polarity.kind
      ((store.tape (contents.put store.active index [store.partition.polarity.voidWord])).blocks index).info = .cont :=
    Contents.kind_voided contents store.active index store.partition.polarity
  obtain ⟨before, split, settled⟩ := inOrder.settled.void late inside clear found (by rfl) (by rfl)
    (fun position apart => Contents.put_apart _ _ (fun same => apart same.2)) voided
  have unique := inOrder.unique
  rw [split] at unique
  exact ⟨before, split, settled, inOrder.room, unique.remove⟩

/-- Making the entry of a file void takes the file out of the records. -/
theorem InOrder.unbind (inOrder : store.InOrder scars contents records)
    (harmless : (store.tape contents).Harmless scars) {ufid : Ufid} {id : FileId} {index : Nat}
    (located : (store.tape contents).Locates ufid 1 [] (.found id index)) :
    ∃ kept, store.InOrder scars (contents.put store.active index [store.partition.polarity.voidWord]) kept ∧
      (id, ufid) ∈ Record.entries records ∧
      (∀ binding ∈ Record.entries kept, binding ∈ Record.entries records ∧ binding.2 ≠ ufid) ∧
      Record.files kept = (Record.files records).erase ufid := by
  obtain ⟨late, inside, bound, -⟩ := located
  have found : (store.tape contents).recordAt index = some (.entry id ufid) := Tape.recordAt_entry bound
  have clear : index ∉ scars := by
    intro scar
    rw [harmless index scar late] at found
    cases found
  obtain ⟨before, split, after⟩ := inOrder.void late inside clear found
  have unique := inOrder.unique
  rw [split] at unique
  have files := Record.files_remove unique
  rw [← split] at files
  refine ⟨_, after, ?_, by rw [split]; exact unique.others, files⟩
  rw [split, Record.entries_append]
  exact List.mem_append_right _ List.mem_cons_self

/-- Making a chain void that a later one takes the place of changes no file. -/
theorem Trimmed.supersede (trimmed : store.Trimmed scars contents records current kept)
    (harmless : (store.tape contents).Harmless scars) {id : FileId} {start : Nat} (positive : 1 ≤ start)
    {older newer : Chain} (behind : (store.tape contents).Holds id start older)
    (ahead : (store.tape contents).Holds id start newer) (before : older.start < newer.start)
    (same : ∀ position, older.start ≤ position → current store.active position = contents store.active position) :
    ∃ kept', store.Trimmed scars contents records
      (current.put store.active older.start [store.partition.polarity.voidWord]) kept' := by
  have late := behind.from_start
  have further := ahead.from_start
  have behind' : (store.tape current).Holds id start older := behind.same (by rfl) (by rfl) same
  have ahead' : (store.tape current).Holds id start newer :=
    ahead.same (by rfl) (by rfl) (fun position from_newer => same position (by omega))
  obtain ⟨before, split, inOrder⟩ := trimmed.inOrder.void (by omega) behind.inside (behind.unscarred harmless positive)
    behind'.record
  have later := Tape.latest_isSome (show older.start + 1 ≤ newer.start by omega) ahead'.inside
    (ahead.unscarred harmless positive) ahead'.record
  refine ⟨_, inOrder, ?_, ?_, trimmed.stays.put (by omega) _⟩
  · rw [← trimmed.files, split, Record.files_supersede _ _ later]
  · rw [← trimmed.entries, split, Record.entries_append, Record.entries_append, Record.entries]

/-- Whether a store can be read: it knows where its log ends and which records are in it, and `rest` is kept by what
reading may change, which is to make a chain void that a later one of the same file takes the place of. -/
structure Readable (store : Store) (contents : Contents) (records : List Record) (rest : Contents → Prop) : Prop where
  positive : 1 ≤ store.free
  room : store.free ≤ store.partition.blocks
  listed : (store.tape contents).records [] 1 = records
  now : rest contents
  pruned : ∀ id start current older newer, 1 ≤ start → rest current →
    (∀ position, older.start ≤ position → current store.active position = contents store.active position) →
    (store.tape contents).Holds id start older → (store.tape contents).Holds id start newer →
    older.start < newer.start → rest (current.put store.active older.start [store.partition.polarity.voidWord])

/-- Whether the file `ufid` can be read: as in a store that can be read, where `rest` is kept by making chains void that
a reader of this file does. -/
structure Legible (store : Store) (ufid : Ufid) (contents : Contents) (records : List Record)
    (rest : Contents → Prop) : Prop where
  room : store.free ≤ store.partition.blocks
  listed : (store.tape contents).records [] 1 = records
  now : rest contents
  pruned : ∀ id index current older newer, (store.tape contents).lookup ufid = .found id index → rest current →
    (∀ position, older.start ≤ position → current store.active position = contents store.active position) →
    (store.tape contents).Holds id (index + 1) older → (store.tape contents).Holds id (index + 1) newer →
    older.start < newer.start → rest (current.put store.active older.start [store.partition.polarity.voidWord])

theorem Readable.legible {rest : Contents → Prop} (readable : store.Readable contents records rest) (ufid : Ufid) :
    store.Legible ufid contents records rest where
  room := readable.room
  listed := readable.listed
  now := readable.now
  pruned := fun id index current older newer _ =>
    readable.pruned id (index + 1) current older newer (Nat.le_add_left 1 index)

theorem InOrder.readable (inOrder : store.InOrder scars contents records)
    (harmless : (store.tape contents).Harmless scars) :
    store.Readable contents records (fun current => ∃ kept, store.Trimmed scars contents records current kept) where
  positive := inOrder.settled.positive
  room := inOrder.room
  listed := inOrder.listed harmless
  now := ⟨records, inOrder.trimmed⟩
  pruned := by
    rintro id start current older newer positive ⟨kept, trimmed⟩ same behind ahead before
    exact trimmed.supersede harmless positive behind ahead before same

end Store

namespace Partition

variable {σ : Type} {cut : Bool → σ → Contents → Prop} {state : σ} {store : Store} {scars : List Nat}
  {contents : Contents} {records : List Record} {ufid : Ufid}

/-- Removing a file makes its first entry void, if it has one. -/
theorem achieves_unbind {result : Except StoreError Unit → σ → Contents → Prop}
    (room : store.free ≤ store.partition.blocks) (here : ∀ torn, cut torn state contents)
    (removed : ∀ id index, (store.tape contents).Locates ufid 1 [] (.found id index) →
      cut false state (contents.put store.active index [store.partition.polarity.voidWord]) ∧
        result (.ok ()) state (contents.put store.active index [store.partition.polarity.voidWord]))
    (absent : ∀ id, (store.tape contents).Locates ufid 1 [] (.vacant id) → result (.error .notFound) state contents) :
    store.partition.Achieves result cut (store.remove ufid) state contents := by
  apply Achieves.bind
  change store.journal.partition.Achieves _ _ _ _ _
  apply achieves_lookup room (here false)
  intro answer located
  cases answer with
  | vacant id => exact achieves_fail (here false) (absent id located)
  | found id index =>
      have free : (store.journal.tape contents).stop = store.free := rfl
      have inside := located.2.1
      have gone := removed id index located
      exact achieves_void (by omega) here gone.1 gone.2

theorem achieves_remove {result : Except StoreError Unit → σ → Contents → Prop}
    (inOrder : store.InOrder scars contents records) (harmless : (store.tape contents).Harmless scars)
    (here : ∀ torn, cut torn state contents)
    (removed : ∀ after kept, (∃ id, (id, ufid) ∈ Record.entries records) → store.InOrder scars after kept →
      (∀ binding ∈ Record.entries kept, binding ∈ Record.entries records ∧ binding.2 ≠ ufid) →
      Record.files kept = (Record.files records).erase ufid → store.Stays contents after →
      cut false state after ∧ result (.ok ()) state after)
    (absent : ufid ∉ (Record.entries records).map Prod.snd → result (.error .notFound) state contents) :
    store.partition.Achieves result cut (store.remove ufid) state contents := by
  have listed := inOrder.listed harmless
  apply achieves_unbind inOrder.room here
  · intro id index located
    obtain ⟨kept, order, bound, fewer, files⟩ := inOrder.unbind harmless located
    exact removed _ kept ⟨id, bound⟩ order fewer files (inOrder.trimmed.stays.put located.1 _)
  · intro id located
    have missing := located.1
    rw [listed] at missing
    exact absent missing

section Readers

variable {rest : Contents → Prop} (legible : store.Legible ufid contents records rest)
include legible

theorem achieves_locate {result : Except StoreError (Option Chain) → σ → Contents → Prop}
    (cuts : ∀ torn current, rest current → cut torn state current)
    (found : ∀ chain after, rest after → Record.files records ufid = some (chain.content (after store.active)) →
      (chain.content (after store.active)).length = chain.size → chain.stop ≤ store.partition.blocks →
      result (.ok (some chain)) state after)
    (absent : ∀ after, rest after → Record.files records ufid = none → result (.ok none) state after) :
    store.partition.Achieves result cut (store.locate ufid) state contents := by
  have now := legible.now
  refine Achieves.bind ?_
  change store.journal.partition.Achieves _ _ _ _ _
  refine (observes_lookup legible.room).achieves (cuts _ _ now) ?_
  have located := (store.journal.tape contents).locates_lookup ufid
  cases answer : (store.journal.tape contents).lookup ufid with
  | vacant id =>
      rw [answer] at located
      have missing : Record.files ((store.tape contents).records [] 1) ufid = none := located.files_vacant
      rw [legible.listed] at missing
      exact achieves_pure (cuts _ _ now) (absent _ now missing)
  | found id index =>
      rw [answer] at located
      have content : Record.files ((store.tape contents).records [] 1) ufid =
          Record.latest id ((store.tape contents).records [] (index + 1)) := located.files_found
      rw [legible.listed] at content
      change store.journal.partition.Achieves _ _ _ _ _
      refine achieves_latest rest legible.room cuts ?_ now ?_
      · intro _ current older newer
        exact legible.pruned id index current older newer answer
      · intro answer after rested valid last
        change _ = Record.latest id ((store.tape contents).records [] (index + 1)) at last
        rw [← content] at last
        cases answer with
        | none => exact absent after rested last.symm
        | some chain =>
            obtain ⟨holds, same⟩ := valid chain rfl
            obtain ⟨-, -, ends, passed⟩ := Tape.chainAt?_some.mp holds.sound
            have room := legible.room
            have bound : chain.stop ≤ store.free := ends
            have held : chain.content (after store.active) = chain.content (contents store.active) := by
              have extent := chain.extent_congr (fun position from_start _ => same position from_start)
              exact congrArg (Chain.data chain.head) extent
            refine found chain after rested ?_ ?_ (by omega)
            · rw [held, ← last]
              rfl
            · rw [held]
              exact Chain.length_data passed

theorem achieves_chainOf {result : Except StoreError Chain → σ → Contents → Prop}
    (cuts : ∀ torn current, rest current → cut torn state current)
    (found : ∀ chain after, rest after → Record.files records ufid = some (chain.content (after store.active)) →
      (chain.content (after store.active)).length = chain.size → chain.stop ≤ store.partition.blocks →
      result (.ok chain) state after)
    (absent : ∀ after, rest after → Record.files records ufid = none → result (.error .notFound) state after) :
    store.partition.Achieves result cut (store.chainOf ufid) state contents := by
  apply Achieves.bind
  apply achieves_locate legible cuts
  · intro chain after rested content size room
    exact achieves_pure (cuts _ _ rested) (found chain after rested content size room)
  · intro after rested none
    exact achieves_fail (cuts _ _ rested) (absent after rested none)

theorem achieves_size {result : Except StoreError Nat → σ → Contents → Prop}
    (cuts : ∀ torn current, rest current → cut torn state current)
    (found : ∀ data after, rest after → Record.files records ufid = some data →
      result (.ok data.length) state after)
    (absent : ∀ after, rest after → Record.files records ufid = none → result (.error .notFound) state after) :
    store.partition.Achieves result cut (store.size ufid) state contents := by
  apply Achieves.bind
  apply achieves_chainOf legible cuts _ absent
  intro chain after rested content size room
  apply achieves_pure (cuts _ _ rested)
  rw [← size]
  exact found _ after rested content

theorem achieves_contains {result : Except StoreError Bool → σ → Contents → Prop}
    (cuts : ∀ torn current, rest current → cut torn state current)
    (next : ∀ after, rest after → result (.ok (Record.files records ufid).isSome) state after) :
    store.partition.Achieves result cut (store.contains ufid) state contents := by
  apply Achieves.bind
  apply achieves_locate legible cuts
  · intro chain after rested content _ _
    have answer := next after rested
    rw [content] at answer
    exact achieves_pure (cuts _ _ rested) answer
  · intro after rested none
    have answer := next after rested
    rw [none] at answer
    exact achieves_pure (cuts _ _ rested) answer

theorem achieves_readAll {result : Except StoreError (List UInt8) → σ → Contents → Prop}
    (cuts : ∀ torn current, rest current → cut torn state current)
    (found : ∀ data after, rest after → Record.files records ufid = some data → result (.ok data) state after)
    (absent : ∀ after, rest after → Record.files records ufid = none → result (.error .notFound) state after) :
    store.partition.Achieves result cut (store.readAll ufid) state contents := by
  apply Achieves.bind
  apply achieves_chainOf legible cuts _ absent
  intro chain after rested content size room
  have reading : store.journal.partition.Achieves result cut (store.journal.read chain chain.size fun _ => return ())
      ((fun _ : List UInt8 => state) []) after := by
    refine achieves_read store.journal (fun _ => state) room (fun _ => cuts _ _ rested) ?_ ?_
    · intro result _ _ next
      exact achieves_pure (cuts _ _ rested) next
    · rintro read rfl
      change result (.ok ((chain.content (after store.active)).take chain.size)) state after
      rw [List.take_of_length_le (Nat.le_of_eq size)]
      exact found _ after rested content
  exact reading

/-- Reading a file into a buffer fills it from the front with the content as far as it goes. -/
theorem achieves_readInto {cut : Bool → List UInt8 → Contents → Prop} (buffer : List UInt8)
    {result : Except StoreError Nat → List UInt8 → Contents → Prop}
    (cuts : ∀ torn left current, rest current → cut torn left current)
    (found : ∀ data after, rest after → Record.files records ufid = some data →
      result (.ok data.length) (data.take buffer.length ++ buffer.drop data.length) after)
    (absent : ∀ after, rest after → Record.files records ufid = none → result (.error .notFound) buffer after) :
    store.partition.Achieves result cut (store.readInto ufid buffer) buffer contents := by
  apply Achieves.bind
  apply achieves_chainOf legible (fun torn current => cuts torn _ current) _ absent
  intro chain after rested content size room
  apply Achieves.bind
  apply achieves_discard
  apply achieves_copy store.journal buffer room (fun _ => cuts _ _ _ rested)
  refine achieves_pure (cuts _ _ _ rested) (achieves_pure (cuts _ _ _ rested) ?_)
  rw [← size]
  exact found _ after rested content

end Readers

end Partition

end TwinLog
