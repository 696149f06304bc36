import TwinLog.Proofs.OneDirectional

set_option autoImplicit false

namespace TwinLog

namespace Store

variable {store left : Store} {contents current : Contents} {ufid : Ufid} {data : List UInt8} {chain : Chain}

/-- Whether the log of a store ends with a sound chain that holds `data` for the id that `ufid` goes by. -/
structure LastWrote (store : Store) (contents : Contents) (ufid : Ufid) (data : List UInt8) (chain : Chain) : Prop where
  first : 1 ≤ chain.start
  sound : (store.tape contents).chainAt? chain.start = some chain
  last : chain.stop = store.free
  content : chain.content (contents store.active) = data
  owner : Record.owner? ((store.tape contents).records [] 1) ufid = some chain.head.id

/-- The content of the last chain is that of its file, whatever is before it. -/
theorem LastWrote.files (wrote : store.LastWrote contents ufid data chain) :
    Record.files ((store.tape contents).records [] 1) ufid = some data := by
  have counted := chain.one_le_count
  have ends : (store.tape contents).stop = chain.start + chain.count := wrote.last.symm
  have inside : chain.start < (store.tape contents).stop := by omega
  have split := @Tape.records_split (store.tape contents) [] 1 chain.start wrote.first (Nat.le_of_lt inside)
  have own : (store.tape contents).records [] chain.start = [.content chain.head.id data] := by
    rw [Tape.records_step _ [] inside, Tape.visible, if_neg List.not_mem_nil, Tape.recordAt_chain wrote.sound,
      Tape.records_skip [] wrote.sound,
      Tape.records_done [] (Nat.le_of_eq ends : (store.tape contents).stop ≤ chain.stop)]
    have content : chain.content (store.tape contents).blocks = data := wrote.content
    rw [content]
    rfl
  have owner := wrote.owner
  rw [split, own, Record.owner?, Record.entries_append, Record.entries, Record.entries, List.append_nil] at owner
  rw [split, own]
  exact Record.files_append_own owner data

/-- Making an earlier chain void leaves the last one, and every entry, as it was. -/
theorem LastWrote.void (wrote : store.LastWrote contents ufid data chain) {index : Nat} (before : index < chain.start)
    {head : Start} (started : store.partition.polarity.kind (contents store.active index).info = .start head) :
    store.LastWrote (contents.put store.active index [store.partition.polarity.voidWord]) ufid data chain := by
  have same (position : Nat) (apart : position ≠ index) :
      contents.put store.active index [store.partition.polarity.voidWord] store.active position =
        contents store.active position :=
    Contents.put_apart _ _ (fun both => apart both.2)
  have entries : Record.entries
        ((store.tape (contents.put store.active index [store.partition.polarity.voidWord])).records [] 1) =
      Record.entries ((store.tape contents).records [] 1) := by
    rw [Tape.entries_records, Tape.entries_records]
    exact List.filterMap_congr fun position _ => Contents.binding?_voided started position
  refine ⟨wrote.first, ?_, wrote.last, ?_, ?_⟩
  · rw [← wrote.sound]
    exact Tape.chainAt?_same (by rfl) (by rfl) (fun position late => same position (by omega))
  · rw [← wrote.content, Chain.content, Chain.content,
      chain.extent_congr (fun position late _ => same position (by omega))]
  · rw [Record.owner?, entries]
    exact wrote.owner

theorem lastWrote_lay (positive : 1 ≤ store.free) (small : data.length ≤ maxFileSize) (before : List Block)
    {blocks : List Block} {id : FileId} (all : blocks = before ++ Chain.fresh store.partition.polarity id data)
    (owner : ((Record.entries ((store.tape contents).records [] 1) ++
      blocks.filterMap (Block.binding? store.partition.polarity)).find? fun binding => binding.2 = ufid) =
        some (id, ufid)) :
    (store.grown blocks.length).LastWrote (contents.lay store.active store.free blocks) ufid data
      ⟨store.free + before.length, Chain.headOf id data⟩ := by
  have length :
      blocks.length = before.length + (Chain.mk (store.free + before.length) (Chain.headOf id data)).count := by
    rw [all, List.length_append, Chain.length_fresh, Chain.count, Chain.size, Chain.headOf_size small]
  have stop : (Chain.mk (store.free + before.length) (Chain.headOf id data)).stop = store.free + blocks.length := by
    rw [length]
    exact Nat.add_assoc _ _ _
  have laid : (Chain.mk (store.free + before.length) (Chain.headOf id data)).extent
      (contents.lay store.active store.free blocks store.active) = Chain.fresh store.partition.polarity id data := by
    have there := @Contents.map_lay (contents.lay store.active store.free before) store.active
      (store.free + before.length) (Chain.fresh store.partition.polarity id data)
    rw [← Contents.lay_append, ← all, Chain.length_fresh] at there
    rw [Chain.extent, Chain.count, Chain.size, Chain.headOf_size small]
    exact there
  have entries := @Tape.entries_lay store.partition.polarity contents store.active store.free positive blocks
  obtain ⟨sound, content⟩ := @Tape.chainAt?_fresh
    ⟨store.partition.polarity, contents.lay store.active store.free blocks store.active, store.free + blocks.length⟩
    _ id data small laid (Nat.le_of_eq stop)
  refine ⟨Nat.le_add_right_of_le positive, sound, stop, content, ?_⟩
  rw [Record.owner?, show Record.entries (((store.grown blocks.length).tape
    (contents.lay store.active store.free blocks)).records [] 1) = _ from entries]
  exact congrArg (Option.map Prod.fst) owner

theorem lastWrote_of_additions (positive : 1 ≤ store.free) (small : data.length ≤ maxFileSize) {blocks : List Block}
    (added : store.additions contents ufid data = some blocks) :
    ∃ chain, (store.grown blocks.length).LastWrote (contents.lay store.active store.free blocks) ufid data chain := by
  rw [additions, Record.additions] at added
  cases found : Record.owner? ((store.tape contents).records [] 1) ufid with
  | some id =>
      rw [found, Option.some.injEq] at added
      rw [Record.owner?, Option.map_eq_some_iff] at found
      obtain ⟨⟨_, owner⟩, first, rfl⟩ := found
      have named : owner = ufid := by simpa using List.find?_some first
      subst named
      refine ⟨_, lastWrote_lay positive small [] added.symm ?_⟩
      rw [List.find?_append, first, Option.some_or]
  | none =>
      rw [found, Option.map_eq_some_iff] at added
      obtain ⟨id, -, rfl⟩ := added
      rw [Record.owner?, Option.map_eq_none_iff] at found
      refine ⟨_, lastWrote_lay positive small [Block.entry store.partition.polarity id ufid]
        List.singleton_append.symm ?_⟩
      rw [List.find?_append, found, Option.none_or,
        List.filterMap_cons_some (Block.binding?_entry store.partition.polarity id ufid)]
      exact List.find?_cons_of_pos (decide_eq_true rfl)

theorem Placed.lastWrote (positive : 1 ≤ store.free) (small : data.length ≤ maxFileSize)
    (placed : store.Placed contents ufid data (.ok ()) left current) :
    ∃ chain, left.LastWrote current ufid data chain := by
  cases placed with
  | fits added room => exact lastWrote_of_additions positive small added

/-- What is saved without an error ends the log in use, whether it was turned or not. -/
theorem Saved.lastWrote (positive : 1 ≤ store.free) (saved : store.Saved contents ufid data (.ok ()) left current) :
    ∃ chain, left.LastWrote current ufid data chain := by
  cases saved with
  | atOnce small placed enough => exact placed.lastWrote positive small
  | turned small added short turn placed => exact placed.lastWrote turn.settled.positive small

/-- Readers only make chains void that are before the last one. -/
theorem LastWrote.readable (wrote : store.LastWrote contents ufid data chain) (charge : store.InCharge contents) :
    store.Readable contents ((store.tape contents).records [] 1)
      (fun current => store.InCharge current ∧ store.LastWrote current ufid data chain) where
  positive := charge.positive
  room := charge.room
  listed := rfl
  now := ⟨charge, wrote⟩
  pruned := by
    intro id start current older newer positive holds same behind ahead before
    obtain ⟨charge', wrote'⟩ := holds
    obtain ⟨-, kind, -, -⟩ := Tape.chainAt?_some.mp ahead.sound
    obtain ⟨-, started, -, -⟩ := Tape.chainAt?_some.mp behind.sound
    -- a chain does not start inside of the last one
    have outside : ¬ chain.start < newer.start := by
      intro further
      have inside : newer.start < chain.stop := Nat.lt_of_lt_of_eq ahead.inside wrote.last.symm
      rw [Chain.sound_further (Tape.chainAt?_some.mp wrote.sound).2.2.2 further inside] at kind
      cases kind
    have kept : store.partition.polarity.kind (current store.active older.start).info = .start older.head := by
      rw [same older.start (Nat.le_refl _)]
      exact started
    exact ⟨charge.readable.pruned id start current older newer positive charge' same behind ahead before,
      wrote'.void (by omega) kept⟩

end Store

namespace Partition

variable {store : Store} {contents : Contents} {ufid : Ufid} {data : List UInt8}

theorem achieves_save_lastWrote (charge : store.InCharge contents) :
    store.partition.Achieves
      (fun value left current => value = .ok (.ok ()) → left.partition = store.partition ∧ left.InCharge current ∧
        ∃ chain, left.LastWrote current ufid data chain)
      (fun _ _ _ => True) (store.save ufid data).caught store contents := by
  apply achieves_save_inCharge charge
  · intro _ _ _ _ broken
    cases broken
  · intro value left after saved acknowledged
    obtain ⟨same, charge'⟩ := saved.inCharge charge
    cases value with
    | ok value => exact ⟨same, charge', saved.lastWrote charge.positive⟩
    | error error => cases acknowledged

end Partition

namespace Session

variable {μ : Type} [Medium μ]

structure ReadsBack (session : Session μ) (ufid : Ufid) (data : List UInt8) : Prop where
  content : (session.perform (.readAll ufid)).1 = .ok (.content data)
  size : (session.perform (.size ufid)).1 = .ok (.size data.length)
  there : (session.perform (.contains ufid)).1 = .ok (.contains true)
  copied : ∀ buffer, (session.perform (.readInto ufid buffer)).1 =
    .ok (.copied data.length (data.take buffer.length ++ buffer.drop data.length))

variable [LawfulMedium μ] {partition : Partition} {session : Session μ} {store : Store} {chain : Chain} {ufid : Ufid}
  {data : List UInt8}

/-- A session whose log in use ends with what was last written. -/
structure Remembers (partition : Partition) (session : Session μ) (store : Store) (ufid : Ufid) (data : List UInt8)
    (chain : Chain) : Prop where
  mounted : session.store = some store
  same : store.partition = partition
  fits : partition.Fits session.medium
  charge : store.InCharge (partition.contents session.medium)
  wrote : store.LastWrote (partition.contents session.medium) ufid data chain

/-- Reading is answered by what is on the medium, and what was last written stays the end of the log. -/
theorem Remembers.read (remembers : session.Remembers partition store ufid data chain) (request : Request)
    (reads : request.Reads) :
    ∃ answer after files, session.perform request = (.ok answer, after) ∧
      after.Remembers partition store ufid data chain ∧ files ufid = some data ∧
      Files.Step True files request answer files := by
  obtain ⟨medium, given⟩ := session
  obtain ⟨mounted, same, fits, charge, wrote⟩ := remembers
  simp only at mounted fits charge wrote
  subst mounted same
  obtain ⟨-, answer, after, performed, fits', ⟨charge', wrote'⟩, step⟩ :=
    informs_of_readable fits (wrote.readable charge) reads
  exact ⟨answer, _, _, performed, ⟨rfl, rfl, fits', charge', wrote'⟩, wrote.files, step True⟩

theorem Remembers.readsBack (remembers : session.Remembers partition store ufid data chain) :
    session.ReadsBack ufid data := by
  constructor
  · obtain ⟨answer, after, files, performed, -, present, step⟩ :=
      remembers.read (.readAll ufid) trivial
    rw [performed, step.reading, Files.reading, present]
  · obtain ⟨answer, after, files, performed, -, present, step⟩ := remembers.read (.size ufid) trivial
    rw [performed]
    cases step with
    | size there =>
        rw [present, Option.some.injEq] at there
        rw [there]
    | noSize absent =>
        rw [present] at absent
        cases absent
  · obtain ⟨answer, after, files, performed, -, present, step⟩ := remembers.read (.contains ufid) trivial
    rw [performed]
    cases step
    rw [present]
    rfl
  · intro buffer
    obtain ⟨answer, after, files, performed, -, present, step⟩ :=
      remembers.read (.readInto ufid buffer) trivial
    rw [performed]
    cases step with
    | copied there =>
        rw [present, Option.some.injEq] at there
        rw [there]
    | notCopied absent =>
        rw [present] at absent
        cases absent

/-- Reading and mounting again leave what was last written at the end of the log. -/
theorem Remembers.perform (remembers : session.Remembers partition store ufid data chain) {request : Request}
    (keeps : request.Reads ∨ request = .mount partition.geometry) :
    ∃ answer after, session.perform request = (.ok answer, after) ∧
      after.Remembers partition store ufid data chain := by
  cases keeps with
  | inl reads =>
      obtain ⟨answer, after, _, performed, remembers', -, -⟩ := remembers.read request reads
      exact ⟨answer, after, performed, remembers'⟩
  | inr mounts =>
      subst mounts
      obtain ⟨mounted, rfl, fits, charge, wrote⟩ := remembers
      obtain ⟨after, performed, fits', unchanged⟩ := mount_used fits charge.used charge.toKnows
      exact ⟨_, _, performed, ⟨rfl, rfl, fits', unchanged ▸ charge, unchanged ▸ wrote⟩⟩

theorem Remembers.performAll (remembers : session.Remembers partition store ufid data chain) {requests : List Request}
    (keep : ∀ request ∈ requests, request.Reads ∨ request = .mount partition.geometry) :
    ∃ answers last, session.performAll requests = (answers, none, last) ∧
      last.Remembers partition store ufid data chain := by
  induction requests generalizing session with
  | nil => exact ⟨[], session, rfl, remembers⟩
  | cons request rest ih =>
      obtain ⟨answer, between, performed, remembers'⟩ := remembers.perform (keep request List.mem_cons_self)
      obtain ⟨answers, last, ran, ends⟩ :=
        ih remembers' (fun later member => keep later (List.mem_cons_of_mem _ member))
      refine ⟨answer :: answers, last, ?_, ends⟩
      rw [Session.performAll, performed]
      simp only [ran]

theorem Steady.remembers (steady : session.Steady partition) {after : Session μ}
    (saved : session.perform (.save ufid data) = (.ok .done, after)) :
    ∃ store chain, after.Remembers partition store ufid data chain := by
  obtain ⟨medium, given⟩ := session
  cases given with
  | none => cases saved
  | some store =>
      obtain ⟨fits, known⟩ := steady
      obtain ⟨rfl, charge⟩ := known store rfl
      obtain ⟨value, left, written, fits', wrote, changed⟩ :=
        @change_of_caught μ _ _ store.partition ⟨medium, some store⟩ store _ _ _ _ fits
          (Partition.achieves_save_lastWrote charge) (fun () => Answer.done)
      have performed : Session.perform ⟨medium, some store⟩ (.save ufid data) = _ := changed
      rw [saved] at performed
      cases value with
      | error error => cases performed
      | ok value =>
          cases value with
          | error violation => cases performed
          | ok value =>
              cases performed
              obtain ⟨same, charge', chain, wrote'⟩ := wrote rfl
              exact ⟨left, chain, rfl, same, fits', charge', wrote'⟩

/-- What was saved is read back. Whatever a medium in working order holds when it is mounted, and whatever was asked of
the store since then, a save that is acknowledged is what reading the file gives from then on: at once, after any files
were read, and after the medium was mounted again, any number of times. -/
theorem save_readsBack {medium : μ} {geometry : Geometry}
    (fits : Partition.Fits ⟨Medium.polarity medium, geometry⟩ medium) {earlier later : List Request}
    (same : ∀ other, .mount other ∈ earlier → other = geometry) {answers : List Answer} {session after : Session μ}
    (ran : Session.performAll ⟨medium, none⟩ (.mount geometry :: earlier) = (answers, none, session))
    (saved : session.perform (.save ufid data) = (.ok .done, after))
    (keep : ∀ request ∈ later, request.Reads ∨ request = .mount geometry) :
    ∃ answers' last, after.performAll later = (answers', none, last) ∧ last.ReadsBack ufid data := by
  obtain ⟨-, steady, -⟩ := performAll_steady fits earlier same
  rw [ran] at steady
  obtain ⟨store, chain, remembers⟩ := steady.remembers saved
  obtain ⟨answers', last, finished, remembers'⟩ := remembers.performAll keep
  exact ⟨answers', last, finished, remembers'.readsBack⟩

section MarkedTwice

set_option maxRecDepth 8192

/-- Two marked logs; in the first one a file has two entries, their id is that of another file too, and a chain is torn
that would go on into what is appended. -/
def disordered : Simulated :=
  let blocks := [Block.ofList [Partition.marker], Block.entry .zeros 5 (Vector.replicate 12 7),
    Block.entry .zeros 6 (Vector.replicate 12 7), Block.entry .zeros 5 (Vector.replicate 12 8),
    Block.ofList [Polarity.startWord .zeros ⟨6, 60, 0⟩]]
  ⟨.zeros, 64, ((blocks.flatMap Block.toList ++ List.replicate 24 0) ++
    Partition.marker :: List.replicate 63 Simulated.garbage).toArray⟩

theorem disordered_fits : Partition.Fits ⟨.zeros, ⟨0, 256, 256⟩⟩ disordered := by
  refine Partition.Fits.simulated rfl rfl (by decide) ?_
  intro log
  cases log <;> decide

/-- A save on that medium that is read back after another file was read and the medium was mounted again. -/
theorem save_readsBack_disordered :
    (performAll ⟨disordered, none⟩ [.mount ⟨0, 256, 256⟩]).2.1 = none ∧
      ((performAll ⟨disordered, none⟩ [.mount ⟨0, 256, 256⟩]).2.2.perform
        (.save (Vector.replicate 12 7) [1, 2])).1 = .ok .done ∧
      ∃ answers last, ((performAll ⟨disordered, none⟩ [.mount ⟨0, 256, 256⟩]).2.2.perform
          (.save (Vector.replicate 12 7) [1, 2])).2.performAll
            [.readAll (Vector.replicate 12 8), .mount ⟨0, 256, 256⟩] = (answers, none, last) ∧
        last.ReadsBack (Vector.replicate 12 7) [1, 2] := by
  have ran : performAll ⟨disordered, none⟩ [.mount ⟨0, 256, 256⟩] =
      ([.done], none, (performAll ⟨disordered, none⟩ [.mount ⟨0, 256, 256⟩]).2.2) := by rfl
  have saved : (performAll ⟨disordered, none⟩ [.mount ⟨0, 256, 256⟩]).2.2.perform
      (.save (Vector.replicate 12 7) [1, 2]) =
        (.ok .done, ((performAll ⟨disordered, none⟩ [.mount ⟨0, 256, 256⟩]).2.2.perform
          (.save (Vector.replicate 12 7) [1, 2])).2) := by rfl
  refine ⟨congrArg (fun result => result.2.1) ran, congrArg Prod.fst saved, ?_⟩
  exact @save_readsBack Simulated _ _ _ _ disordered ⟨0, 256, 256⟩ disordered_fits [] _
    (fun other member => absurd member List.not_mem_nil) _ _ _ ran saved (by simp [Request.Reads])

end MarkedTwice

end Session

end TwinLog
