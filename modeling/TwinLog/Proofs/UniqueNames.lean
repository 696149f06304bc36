import TwinLog.Proofs.OneDirectional
import TwinLog.Proofs.PowerCut

set_option autoImplicit false

namespace TwinLog

theorem filterMap_sublist {α β : Type} {first second : α → Option β} (list : List α)
    (fewer : ∀ item ∈ list, first item = none ∨ first item = second item) :
    (list.filterMap first).Sublist (list.filterMap second) := by
  induction list with
  | nil => exact List.Sublist.refl _
  | cons item rest ih =>
      have later := ih fun other member => fewer other (List.mem_cons_of_mem _ member)
      rw [List.filterMap_cons, List.filterMap_cons]
      rcases fewer item List.mem_cons_self with none | same
      · rw [none]
        cases second item with
        | none => exact later
        | some value => exact later.cons value
      · rw [same]
        cases second item with
        | none => exact later
        | some value => exact later.cons_cons value

/-- Where a log grows by blocks that are no entries, and other blocks of it only cease to be entries, it has no new
entry. -/
theorem Tape.entries_sublist {polarity : Polarity} {blocks blocks' : Nat → Block} {stop stop' : Nat}
    (positive : 1 ≤ stop) (grown : stop ≤ stop')
    (fewer : ∀ index < stop, (blocks' index).binding? polarity = none ∨
      (blocks' index).binding? polarity = (blocks index).binding? polarity)
    (silent : ∀ index, stop ≤ index → index < stop' → (blocks' index).binding? polarity = none) :
    (Record.entries (Tape.records ⟨polarity, blocks', stop'⟩ [] 1)).Sublist
      (Record.entries (Tape.records ⟨polarity, blocks, stop⟩ [] 1)) := by
  have none : (List.range' stop (stop' - stop)).filterMap (fun index => (blocks' index).binding? polarity) = [] := by
    rw [List.filterMap_eq_nil_iff]
    intro index member
    rw [List.mem_range'_1] at member
    exact silent index member.1 (by omega)
  rw [entries_records, entries_records, range'_split positive grown, List.filterMap_append, none, List.append_nil]
  apply filterMap_sublist
  intro index member
  rw [List.mem_range'_1] at member
  exact fewer index (by omega)

theorem Record.Unique.additions {polarity : Polarity} {records kept : List Record} {ufid : Ufid} {data : List UInt8}
    {before after : List Block} (unique : Unique records)
    (added : Record.additions polarity records ufid data = some (before ++ after))
    (grown : entries kept = entries records ++ before.filterMap (Block.binding? polarity)) : Unique kept := by
  have unbound {id : FileId} {blocks : List Block} (part : blocks ⊆ Chain.fresh polarity id data) :
      blocks.filterMap (Block.binding? polarity) = [] := by
    rw [List.filterMap_eq_nil_iff]
    exact fun block member => Block.binding?_none (Chain.kind_fresh (part member))
  rw [Record.additions] at added
  cases owner : owner? records ufid with
  | some id =>
      rw [owner, Option.some.injEq] at added
      rw [unbound (added ▸ List.subset_append_left before after), List.append_nil] at grown
      exact unique.sublist (grown ▸ List.Sublist.refl _)
  | none =>
      rw [owner, Option.map_eq_some_iff] at added
      obtain ⟨id, unused, laid⟩ := added
      have more := unique.append_entry (FileId.lowestUnused_not_mem unused) (owner?_none owner)
      apply more.sublist
      rw [entries_append, entries, entries, grown]
      apply List.Sublist.append_left
      cases before with
      | nil => exact List.nil_sublist _
      | cons first before =>
          rw [List.cons_append, List.cons.injEq] at laid
          obtain ⟨rfl, split⟩ := laid
          rw [List.filterMap_cons_some (Block.binding?_entry polarity id ufid),
            unbound (split ▸ List.subset_append_left before after)]

namespace Store

variable {store left : Store} {contents current : Contents} {scars : List Nat} {ufid : Ufid} {data : List UInt8}
  {torn : Bool}

/-- Whether a store is in charge of a log in which names are unique. -/
structure Names (store : Store) (contents : Contents) : Prop extends store.InCharge contents where
  unique : Record.Unique ((store.tape contents).records [] 1)

theorem Names.void (names : store.Names contents) {index : Nat} (late : 1 ≤ index) (inside : index < store.free) :
    store.Names (contents.put store.active index [store.partition.polarity.voidWord]) := by
  refine ⟨names.toInCharge.void late inside, names.unique.sublist ?_⟩
  apply Tape.entries_sublist names.positive (Nat.le_refl _)
  · intro position _
    by_cases here : position = index
    · subst here
      left
      apply Block.binding?_none
      intro id entry
      change store.partition.polarity.kind
        (contents.put store.active position [store.partition.polarity.voidWord] store.active position).info = _ at entry
      rw [Contents.kind_voided] at entry
      cases entry
    · right
      change (contents.put store.active index [store.partition.polarity.voidWord] store.active position).binding? _ = _
      rw [Contents.put_apart _ _ (fun same => here same.2)]
      rfl
  · intro position late early
    exact absurd early (Nat.not_lt.mpr late)

theorem Names.distinct (names : store.Names contents) {first second : Nat} (late : 1 ≤ first) (before : first < second)
    {id other : FileId} {ufid another : Ufid}
    (bound : (contents store.active first).binding? store.partition.polarity = some (id, ufid))
    (further : (contents store.active second).binding? store.partition.polarity = some (other, another)) :
    id ≠ other ∧ ufid ≠ another := by
  have inside : second < store.free := by
    by_contra outside
    exact Block.ne_blank_of_binding further (names.clear second (by omega))
  have apart {related : Nat → Nat → Prop} (pairwise : (List.range' 1 (store.free - 1)).Pairwise related) :
      related first second := by
    have between := List.pairwise_iff_getElem.mp pairwise (first - 1) (second - 1)
      (by rw [List.length_range']; omega) (by rw [List.length_range']; omega) (by omega)
    rw [List.getElem_range', List.getElem_range', show 1 + 1 * (first - 1) = first by omega,
      show 1 + 1 * (second - 1) = second by omega] at between
    exact between
  obtain ⟨ids, ufids⟩ := names.unique
  rw [Tape.entries_records, List.Nodup, List.pairwise_map, List.pairwise_filterMap] at ids ufids
  exact ⟨apart ids _ bound _ further, apart ufids _ bound _ further⟩

theorem Names.lay (names : store.Names contents) {blocks : List Block}
    (added : store.additions contents ufid data = some blocks)
    (room : store.free + blocks.length ≤ store.partition.blocks) :
    (store.grown blocks.length).Names (contents.lay store.active store.free blocks) := by
  refine ⟨names.toInCharge.lay (Record.additions_written added) room, ?_⟩
  rw [additions, ← List.append_nil blocks] at added
  exact names.unique.additions added (Tape.entries_lay names.positive blocks)

/-- A log of which nothing is written behind a block ends after that block, or before it if it is erased. -/
theorem knows_ended {partition : Partition} {log : Log} {last : Nat} (positive : 1 ≤ last)
    (room : Tape.ended partition.polarity (current log) last ≤ partition.blocks)
    (clear : ∀ index, last < index → current log index = Block.blank partition.polarity)
    (ends : last = 1 ∨ current log (last - 1) ≠ Block.blank partition.polarity) :
    Knows ⟨partition, log, Tape.ended partition.polarity (current log) last⟩ current := by
  rw [Tape.ended] at room ⊢
  by_cases erased : (current log last).isErased partition.polarity = true
  · rw [if_pos erased] at room ⊢
    rw [Block.isErased_iff] at erased
    refine ⟨positive, room, ?_, ends⟩
    intro position late
    by_cases here : position = last
    · rw [here]
      exact erased
    · change last ≤ position at late
      exact clear position (by omega)
  · rw [if_neg erased] at room ⊢
    rw [Block.isErased_iff] at erased
    exact ⟨Nat.le_add_left 1 last, room, clear, .inr erased⟩

/-- Names stay unique where blocks were being appended, unless one that was torn passes for an entry. -/
theorem Names.appending (names : store.Names contents) {blocks : List Block}
    (added : store.additions contents ufid data = some blocks)
    (room : store.free + blocks.length ≤ store.partition.blocks)
    (appending : Appending store contents blocks torn left current)
    (silent : ∀ index ∈ Tape.torn left.partition.polarity (current left.active) (left.reached current torn),
      (current left.active index).binding? left.partition.polarity = none) :
    ∃ free, Names ⟨store.partition, store.active, free⟩ current := by
  have positive := names.positive
  have used := (appending.stays positive).inUse.trans names.used
  rw [appending.partition, appending.active] at silent
  obtain ⟨before, after, rfl, reached, same, clear, last⟩ :=
    appending.parts names.clear (Record.additions_written added)
  rw [reached, Tape.torn] at silent
  rw [List.length_append, ← Nat.add_assoc] at room
  have ends := laid_ends positive names.ends
    (fun block member => Record.additions_written added block (List.mem_append_left _ member)) same
  have knows := knows_ended (Nat.le_add_right_of_le positive) (Tape.ended_le room last) clear ends
  have laid : Record.Unique
      (Tape.records ⟨store.partition.polarity, contents.lay store.active store.free before store.active,
        store.free + before.length⟩ [] 1) :=
    names.unique.additions added (Tape.entries_lay positive before)
  have fewer : (Record.entries (Tape.records ⟨store.partition.polarity, current store.active,
        Tape.ended store.partition.polarity (current store.active) (store.free + before.length)⟩ [] 1)).Sublist
      (Record.entries (Tape.records ⟨store.partition.polarity, contents.lay store.active store.free before store.active,
        store.free + before.length⟩ [] 1)) := by
    apply Tape.entries_sublist (Nat.le_add_right_of_le positive)
    · rw [Tape.ended]
      split
      · exact Nat.le_refl _
      · exact Nat.le_succ _
    · intro index early
      rw [same index early]
      exact .inr rfl
    · intro index late early
      rw [Tape.ended] at early
      split at early
      · exact absurd early (Nat.not_lt.mpr late)
      · rename_i written
        rw [if_neg written] at silent
        have here : index = store.free + before.length := by omega
        rw [here]
        exact silent _ List.mem_cons_self
  exact ⟨_, ⟨knows, used⟩, laid.sublist fewer⟩

theorem Names.congr (names : store.Names contents) (same : current store.active = contents store.active)
    (used : current.inUse = some store.active) : store.Names current := by
  refine ⟨names.toInCharge.congr same used, ?_⟩
  have tape : store.tape current = store.tape contents := by
    change Tape.mk _ (current store.active) _ = _
    rw [same]
    rfl
  rw [tape]
  exact names.unique

/-- Names are unique in a log into which one was compacted in which they were. -/
theorem Rotated.names {records : List Record} (unique : Record.Unique records)
    (turn : store.Rotated records left current) : left.Names current := by
  refine ⟨turn.inCharge, ?_⟩
  rw [turn.settled.listed]
  exact unique.live

/-- A rotation appends no more blocks than the log has whose names are unique. -/
theorem Rotated.shorter (names : store.Names contents)
    (turn : store.Rotated ((store.tape contents).records [] 1) left current) : left.free ≤ store.free := by
  rw [turn.full]
  exact live_short rfl names.positive names.unique.live.ids

theorem Placed.names (names : store.Names contents) {value : Except StoreError Unit}
    (placed : store.Placed contents ufid data value left current) :
    left.partition = store.partition ∧ left.Names current := by
  cases placed with
  | full added => exact ⟨rfl, names⟩
  | fits added room => exact ⟨rfl, names.lay added room⟩
  | tight added short => exact ⟨rfl, names⟩

theorem Saved.names (names : store.Names contents) {value : Except StoreError Unit}
    (saved : store.Saved contents ufid data value left current) :
    left.partition = store.partition ∧ left.Names current := by
  cases saved with
  | large size => exact ⟨rfl, names⟩
  | atOnce small placed enough => exact placed.names names
  | turned small added short turn placed =>
      obtain ⟨same, names'⟩ := placed.names (turn.names names.unique)
      exact ⟨same.trans turn.partition, names'⟩

theorem Names.readable (names : store.Names contents) :
    store.Readable contents ((store.tape contents).records [] 1) store.Names where
  positive := names.positive
  room := names.room
  listed := rfl
  now := names
  pruned := by
    intro id start current older newer positive names' _ behind _ _
    have late := behind.from_start
    exact names'.void (by omega) behind.inside

def NamesInUse (partition : Partition) (contents : Contents) : Prop :=
  ∃ log free, Names ⟨partition, log, free⟩ contents

theorem Names.inUse (names : store.Names contents) : NamesInUse store.partition contents :=
  ⟨store.active, store.free, names⟩

theorem Rotating.names (names : store.Names contents)
    (rotating : store.Rotating contents ((store.tape contents).records [] 1) current) :
    NamesInUse store.partition current := by
  rcases rotating.inUse names.used with ⟨still, same⟩ | ⟨turned, free, room, settled⟩
  · exact (names.congr same still).inUse
  · refine ⟨store.active.other, free, ⟨⟨settled.positive, room, settled.clear, settled.ends⟩, turned⟩, ?_⟩
    have unique := names.unique.live
    rw [← settled.listed] at unique
    exact unique

end Store

/-- Whether none of the scars of the log in use passes for an entry. Scars are the blocks whose write was torn, and the
first blocks of chains that are not all there, which are no entries anyway. -/
def Contents.Silent (contents : Contents) (polarity : Polarity) (scars : List Nat) : Prop :=
  ∀ log, contents.inUse = some log → ∀ index ∈ scars, (contents log index).binding? polarity = none

namespace Store

variable {store left : Store} {contents current : Contents} {scars : List Nat} {ufid : Ufid} {data : List UInt8}
  {torn : Bool}

/-- What is left where an operation is interrupted has unique names, unless a block that was torn passes for an
entry. -/
def Spared (store : Store) (scars : List Nat) (contents : Contents) (torn : Bool) (left : Store)
    (current : Contents) : Prop :=
  current.Silent store.partition.polarity (left.scarsAfter torn contents current scars) →
    NamesInUse store.partition current

theorem Names.spared (names : store.Names current) (torn : Bool) (left : Store) :
    store.Spared scars contents torn left current :=
  fun _ => names.inUse

theorem Saving.names (names : store.Names contents) (saving : store.Saving contents ufid data torn left current) :
    store.Spared scars contents torn left current := by
  intro silent
  -- what was torn at the end of the log in use is among the scars
  have last (same : left.partition = store.partition) (used : current.inUse = some left.active) :
      ∀ index ∈ Tape.torn left.partition.polarity (current left.active) (left.reached current torn),
        (current left.active index).binding? left.partition.polarity = none := by
    intro index member
    rw [same] at member ⊢
    apply silent left.active used
    rw [scarsAfter, if_pos used, same]
    exact List.mem_append_right _ (List.mem_append_right _ member)
  cases saving with
  | placing small blocks added room appending =>
      have used := (appending.stays names.positive).inUse.trans names.used
      rw [← appending.active] at used
      obtain ⟨free, spared⟩ := names.appending added room appending (last appending.partition used)
      exact spared.inUse
  | turning torn rotating => exact rotating.names names
  | turned turn =>
      have spared := (turn.names names.unique).inUse
      rw [turn.partition] at spared
      exact spared
  | placingTurned small turn blocks added room appending =>
      have rotated := turn.names names.unique
      have used := (appending.stays rotated.positive).inUse.trans rotated.used
      rw [← appending.active] at used
      obtain ⟨free, spared⟩ := rotated.appending added room appending
        (last (appending.partition.trans turn.partition) used)
      have inUse := spared.inUse
      rw [turn.partition] at inUse
      exact inUse

def KeepsNames {α : Type} (store : Store) (scars : List Nat) (contents : Contents) (script : Script Store α) : Prop :=
  store.partition.Achieves (fun _ left current => left.partition = store.partition ∧ left.Names current)
    (store.Spared scars contents) script store contents

section Operations

variable (names : store.Names contents) (scars : List Nat)
include names

theorem keepsNames_save (ufid : Ufid) (data : List UInt8) :
    store.KeepsNames scars contents (store.save ufid data) := by
  apply Partition.achieves_save names.positive names.room names.unique
  · exact fun position late => names.clear position (Nat.le_of_lt late)
  · exact fun _ _ _ _ => Block.takes_of_blank (names.clear store.free (Nat.le_refl _)) _
  · exact fun torn left current saving => saving.names names
  · exact fun value left after saved => saved.names names

theorem keepsNames_rotate : store.KeepsNames scars contents store.rotate := by
  apply Partition.achieves_rotate rfl names.positive names.room names.unique
  · exact fun torn current rotating _ => rotating.names names
  · intro rotated after turn
    have names' := turn.names names.unique
    refine ⟨fun _ => ?_, turn.partition, names'⟩
    rw [← turn.partition]
    exact names'.inUse

theorem keepsNames_remove (ufid : Ufid) : store.KeepsNames scars contents (store.remove ufid) := by
  apply Partition.achieves_unbind names.room (fun torn => names.spared torn store)
  · intro id index located
    have voided := names.void located.1 located.2.1
    exact ⟨voided.spared false store, rfl, voided⟩
  · exact fun id located => ⟨rfl, names⟩

theorem keepsNames_size (ufid : Ufid) : store.KeepsNames scars contents (store.size ufid) := by
  apply Partition.achieves_size (names.readable.legible ufid) (fun torn current kept => kept.spared torn store)
  · exact fun data after kept _ => ⟨rfl, kept⟩
  · exact fun after kept _ => ⟨rfl, kept⟩

theorem keepsNames_contains (ufid : Ufid) : store.KeepsNames scars contents (store.contains ufid) := by
  apply Partition.achieves_contains (names.readable.legible ufid) (fun torn current kept => kept.spared torn store)
  exact fun after kept => ⟨rfl, kept⟩

theorem keepsNames_readAll (ufid : Ufid) : store.KeepsNames scars contents (store.readAll ufid) := by
  apply Partition.achieves_readAll (names.readable.legible ufid) (fun torn current kept => kept.spared torn store)
  · exact fun data after kept _ => ⟨rfl, kept⟩
  · exact fun after kept _ => ⟨rfl, kept⟩

theorem keepsNames_saveValue (ufid : Ufid) (payload : Payload) :
    store.KeepsNames scars contents (store.saveValue ufid payload) := by
  unfold Store.saveValue
  split
  · exact keepsNames_save names scars ufid _
  · exact Partition.achieves_fail (names.spared false store) ⟨rfl, names⟩

theorem keepsNames_loadValue (ufid : Ufid) (shape : Shape) :
    store.KeepsNames scars contents (store.loadValue ufid shape) := by
  apply Partition.Achieves.bind
  apply Partition.achieves_readAll (names.readable.legible ufid) (fun torn current kept => kept.spared torn store)
  · intro data after kept _
    simp only
    split
    · exact Partition.achieves_pure (kept.spared false store) ⟨rfl, kept⟩
    · exact Partition.achieves_fail (kept.spared false store) ⟨rfl, kept⟩
  · exact fun after kept _ => ⟨rfl, kept⟩

theorem keepsNames_readInto (ufid : Ufid) (buffer : List UInt8) :
    store.partition.Achieves (fun _ _ _ => True) (fun torn _ current => store.Spared scars contents torn store current)
      (store.readInto ufid buffer) buffer contents := by
  apply Partition.achieves_readInto (names.readable.legible ufid) buffer
    (fun torn _ current kept => kept.spared torn store)
  · exact fun _ _ _ _ => trivial
  · exact fun _ _ _ => trivial

end Operations

end Store

namespace Session

variable {μ : Type} [Medium μ] [LawfulMedium μ] {medium : μ} {store : Store}

def KeepsNames (store : Store) (medium : μ) (request : Request) : Prop :=
  ∃ answer left after, perform ⟨medium, some store⟩ request = (.ok answer, ⟨after, some left⟩) ∧
    store.partition.Fits after ∧ left.partition = store.partition ∧ left.Names (store.partition.contents after)

theorem keepsNames_of_script (fits : store.partition.Fits medium) {α : Type} {request : Request}
    {script : Script Store α} {answer : α → Answer}
    (performs : perform ⟨medium, some store⟩ request = change ⟨medium, some store⟩ store script answer)
    (keeps : store.KeepsNames [] (store.partition.contents medium) script) : KeepsNames store medium request := by
  obtain ⟨value, left, after, fits', kept, changed⟩ :=
    @change_of_achieves μ _ _ store.partition ⟨medium, some store⟩ store _ _ _ _ fits keeps answer
  exact ⟨_, left, after, performs.trans changed, fits', kept⟩

/-- Every request of a store in charge of unique names is answered and keeps them so. -/
theorem keepsNames_perform (fits : store.partition.Fits medium) (names : store.Names (store.partition.contents medium))
    (request : Request) (other : ∀ geometry, request ≠ .mount geometry) : KeepsNames store medium request := by
  by_cases reads : request.Reads
  · obtain ⟨-, answer, after, performed, fits', kept, -⟩ := informs_of_readable fits names.readable reads
    exact ⟨answer, store, after, performed, fits', rfl, kept⟩
  cases request with
  | mount geometry => exact absurd rfl (other geometry)
  | save ufid data =>
      exact keepsNames_of_script fits (by rfl) (Store.keepsNames_save names [] ufid data)
  | remove ufid =>
      exact keepsNames_of_script fits (by rfl) (Store.keepsNames_remove names [] ufid)
  | rotate =>
      exact keepsNames_of_script fits (by rfl) (Store.keepsNames_rotate names [])
  | saveValue ufid payload =>
      exact keepsNames_of_script fits (by rfl) (Store.keepsNames_saveValue names [] ufid payload)
  | _ => exact absurd trivial reads

end Session

namespace Situation

variable {μ : Type} [Medium μ] [LawfulMedium μ] {partition : Partition} {situation : Situation μ}

def Silent (partition : Partition) (situation : Situation μ) : Prop :=
  (situation.contents partition).Silent partition.polarity situation.scars

/-- Whether no log is in use yet, or names are unique in the one in use, and a mounted store is in charge of it. -/
inductive Named (partition : Partition) (situation : Situation μ) : Prop
  | unused (fits : partition.Fits situation.session.medium) (nowhere : (situation.contents partition).inUse = none)
      (unmounted : situation.session.store = none)
  | used (fits : partition.Fits situation.session.medium) {store : Store} (same : store.partition = partition)
      (names : store.Names (situation.contents partition))
      (known : situation.session.store = none ∨ situation.session.store = some store)

theorem Named.mounted (named : situation.Named partition) {store : Store}
    (mounted : situation.session.store = some store) :
    store.partition = partition ∧ partition.Fits situation.session.medium ∧
      store.Names (situation.contents partition) := by
  cases named with
  | unused fits nowhere unmounted =>
      rw [unmounted] at mounted
      cases mounted
  | used fits same names known =>
      rcases known with unmounted | knows
      · rw [unmounted] at mounted
        cases mounted
      · rw [knows, Option.some.injEq] at mounted
        subst mounted
        exact ⟨same, fits, names⟩

theorem names_empty {contents : Contents} (room : 1 ≤ partition.blocks) (used : contents.inUse = some .a)
    (blank : ∀ position, 1 ≤ position → contents .a position = Block.blank partition.polarity) :
    Store.Names ⟨partition, .a, 1⟩ contents := by
  refine ⟨⟨⟨Nat.le_refl _, room, blank, .inl rfl⟩, used⟩, ?_⟩
  have none : (Store.tape ⟨partition, .a, 1⟩ contents).records [] 1 = [] := Tape.records_done [] (Nat.le_refl _)
  rw [none]
  exact ⟨List.nodup_nil, List.nodup_nil⟩

/-- Every request that can be made is answered, and names are unique after it. -/
theorem Named.perform (named : situation.Named partition) {request : Request}
    (allowed : situation.session.Allows partition request) :
    ∃ answer after, situation.session.perform request = (.ok answer, after) ∧
      (situation.answered partition after).Named partition := by
  by_cases mounts : ∃ geometry, request = .mount geometry
  · obtain ⟨geometry, rfl⟩ := mounts
    obtain rfl : geometry = partition.geometry := allowed
    cases named with
    | unused fits nowhere unmounted =>
        obtain ⟨after, performed, fits', here, inOrder⟩ := Session.mount_fresh fits nowhere
        refine ⟨_, _, performed, .used fits' rfl (names_empty inOrder.room here ?_) (.inr rfl)⟩
        exact inOrder.settled.clear
    | @used fits store same names known =>
        obtain ⟨_, log, free⟩ := store
        obtain rfl := same
        obtain ⟨after, performed, fits', unchanged⟩ := Session.mount_used fits names.used names.toKnows
        refine ⟨_, _, performed, .used fits' rfl ?_ (.inr rfl)⟩
        rw [contents, answered, unchanged]
        exact names
  · have mounted : situation.session.store.isSome = true := by
      cases request with
      | mount geometry => exact absurd ⟨geometry, rfl⟩ mounts
      | _ => exact allowed
    obtain ⟨store, knows⟩ := Option.isSome_iff_exists.mp mounted
    obtain ⟨rfl, fits, names⟩ := named.mounted knows
    obtain ⟨⟨medium, given⟩, scars⟩ := situation
    obtain rfl : given = some store := knows
    obtain ⟨answer, left, after, performed, fits', same, names'⟩ :=
      Session.keepsNames_perform fits names request (fun geometry mount => mounts ⟨geometry, mount⟩)
    exact ⟨answer, _, performed, .used fits' same names' (.inr rfl)⟩

/-- Names are unique in what a power cut in the middle of a request leaves, unless a block that it tore passes for an
entry. -/
theorem Named.cut_short (named : situation.Named partition) {request : Request} {torn : Bool} {left : Option Store}
    {medium : μ} (allowed : situation.session.Allows partition request)
    (stopped : situation.session.Stops request torn left medium)
    (silent : (situation.cut partition torn left medium).Silent partition) :
    (situation.cut partition torn left medium).Named partition := by
  -- all requests but that to mount are made of the store that is mounted
  have spared {store left : Store} {medium : μ} (same : store.partition = partition)
      (ended : partition.Fits medium ∧
        store.Spared situation.scars (situation.contents partition) torn left (partition.contents medium))
      (silent : (situation.cut partition torn (some left) medium).Silent partition) :
      (situation.cut partition torn (some left) medium).Named partition := by
    obtain ⟨fits, spared⟩ := ended
    subst same
    obtain ⟨log, free, names⟩ := spared silent
    exact @Named.used _ _ _ _ _ fits ⟨store.partition, log, free⟩ rfl names (.inl rfl)
  cases stopped with
  | mount stopped =>
      obtain rfl := allowed
      cases named with
      | unused fits nowhere unmounted =>
          obtain ⟨fits', same | ⟨-, still | ⟨first, blank⟩⟩⟩ := mount_interrupted fits stopped
          · refine .unused fits' ?_ rfl
            rw [contents, cut, same]
            exact nowhere
          · exact .unused fits' still rfl
          · have two := (Geometry.check_ok fits.checked).two
            have room : 1 ≤ partition.blocks := by
              change 1 ≤ partition.geometry.blocks
              omega
            exact .used fits' rfl (names_empty room first blank) (.inl rfl)
      | used fits same names known =>
          obtain ⟨fits', unchanged | ⟨nowhere, -⟩⟩ := mount_interrupted fits stopped
          · refine .used fits' same ?_ (.inl rfl)
            rw [contents, cut, unchanged]
            exact names
          · have used := names.used
            rw [contents, nowhere] at used
            cases used
  | @save store left ufid data _ _ mounted stopped =>
      obtain ⟨rfl, fits, names⟩ := named.mounted mounted
      exact spared rfl ((Store.keepsNames_save names _ ufid data μ _ fits rfl).interrupted stopped) silent
  | @remove store left ufid _ _ mounted stopped =>
      obtain ⟨rfl, fits, names⟩ := named.mounted mounted
      exact spared rfl ((Store.keepsNames_remove names _ ufid μ _ fits rfl).interrupted stopped) silent
  | rotate mounted stopped =>
      obtain ⟨rfl, fits, names⟩ := named.mounted mounted
      exact spared rfl ((Store.keepsNames_rotate names _ μ _ fits rfl).interrupted stopped) silent
  | @size store left ufid _ _ mounted stopped =>
      obtain ⟨rfl, fits, names⟩ := named.mounted mounted
      exact spared rfl ((Store.keepsNames_size names _ ufid μ _ fits rfl).interrupted stopped) silent
  | @contains store left ufid _ _ mounted stopped =>
      obtain ⟨rfl, fits, names⟩ := named.mounted mounted
      exact spared rfl ((Store.keepsNames_contains names _ ufid μ _ fits rfl).interrupted stopped) silent
  | @readAll store left ufid _ _ mounted stopped =>
      obtain ⟨rfl, fits, names⟩ := named.mounted mounted
      exact spared rfl ((Store.keepsNames_readAll names _ ufid μ _ fits rfl).interrupted stopped) silent
  | @readInto store ufid buffer _ _ _ mounted stopped =>
      obtain ⟨rfl, fits, names⟩ := named.mounted mounted
      exact spared rfl ((Store.keepsNames_readInto names _ ufid buffer μ _ fits rfl).interrupted stopped) silent
  | @saveValue store left ufid payload _ _ mounted stopped =>
      obtain ⟨rfl, fits, names⟩ := named.mounted mounted
      exact spared rfl ((Store.keepsNames_saveValue names _ ufid payload μ _ fits rfl).interrupted stopped) silent
  | @loadValue store left ufid shape _ _ mounted stopped =>
      obtain ⟨rfl, fits, names⟩ := named.mounted mounted
      exact spared rfl ((Store.keepsNames_loadValue names _ ufid shape μ _ fits rfl).interrupted stopped) silent

theorem Named.distinct (named : situation.Named partition) {log : Log}
    (used : (situation.contents partition).inUse = some log) {first second : Nat} (late : 1 ≤ first)
    (before : first < second) {id other : FileId} {ufid another : Ufid}
    (bound : (situation.contents partition log first).binding? partition.polarity = some (id, ufid))
    (further : (situation.contents partition log second).binding? partition.polarity = some (other, another)) :
    id ≠ other ∧ ufid ≠ another := by
  cases named with
  | unused fits nowhere unmounted =>
      rw [nowhere] at used
      cases used
  | @used fits store same names known =>
      rw [names.used, Option.some.injEq] at used
      subst used same
      exact names.distinct late before bound further

/-- A rotation where names are unique is done, and leaves no more blocks in use than there were. -/
theorem Named.rotate (named : situation.Named partition) {store : Store}
    (mounted : situation.session.store = some store) :
    ∃ after left, situation.session.perform .rotate = (.ok .done, ⟨after, some left⟩) ∧ left.free ≤ store.free := by
  obtain ⟨rfl, fits, names⟩ := named.mounted mounted
  obtain ⟨⟨medium, given⟩, scars⟩ := situation
  obtain rfl : given = some store := mounted
  have achieved : store.partition.Achieves
      (fun value left _ => (∃ rotated, value = .ok rotated) ∧ left.free ≤ store.free) (fun _ _ _ => True)
      store.rotate store (store.partition.contents medium) := by
    apply Partition.achieves_rotate rfl names.positive names.room names.unique (fun _ _ _ => trivial)
    intro rotated after turn
    exact ⟨trivial, ⟨rotated, rfl⟩, turn.shorter names⟩
  obtain ⟨value, left, after, -, ⟨⟨rotated, rfl⟩, shorter⟩, changed⟩ :=
    @Session.change_of_achieves μ _ _ store.partition ⟨medium, some store⟩ store _ _ _ _ fits achieved
      (fun _ => Answer.done)
  exact ⟨after, left, changed, shorter⟩

theorem Named.happens (named : situation.Named partition) {event : Event} {after : Situation μ}
    (happened : situation.Happens partition event after) (silent : after.Silent partition) :
    after.Named partition := by
  cases happened with
  | answered allowed performed =>
      obtain ⟨answer, after, also, named'⟩ := named.perform allowed
      rw [performed] at also
      cases also
      exact named'
  | cut allowed stopped => exact named.cut_short allowed stopped silent

/-- Names are unique at any time of a run from where they are. -/
theorem Named.run (named : situation.Named partition) {trace : List (Event × Situation μ)}
    (run : situation.Run partition trace) (silent : ∀ step ∈ trace, step.2.Silent partition) :
    ∀ step ∈ trace, step.2.Named partition := by
  induction run with
  | nil situation => exact fun step member => absurd member List.not_mem_nil
  | @cons situation after event later happens rest ih =>
      have still := silent _ List.mem_cons_self
      have named' := named.happens happens still
      have ends := ih named' (fun step member => silent step (List.mem_cons_of_mem _ member))
      intro step member
      rcases List.mem_cons.mp member with rfl | behind
      · exact named'
      · exact ends step behind

/-- Names are unique. In every run that starts on a medium with no marker, in which any request may be cut short after
any part of a write, and in which at no time a block whose write was torn passes for an entry, no two sound entries of
the log in use ever have an id or an identifier in common. So every request that can be made is answered at any time,
and a rotation is done and leaves no more blocks in use than there were. -/
theorem run_namesUnique {medium : μ} {geometry : Geometry}
    (fits : Partition.Fits ⟨Medium.polarity medium, geometry⟩ medium)
    (unmarked : ∀ log, (Partition.contents ⟨Medium.polarity medium, geometry⟩ medium).marked log = false)
    {trace : List (Event × Situation μ)} (run : Run ⟨Medium.polarity medium, geometry⟩ ⟨⟨medium, none⟩, []⟩ trace)
    (silent : ∀ step ∈ trace, step.2.Silent ⟨Medium.polarity medium, geometry⟩) :
    ∀ event situation, (event, situation) ∈ trace →
      (∀ log, (situation.contents ⟨Medium.polarity medium, geometry⟩).inUse = some log →
        ∀ first second, 1 ≤ first → first < second → ∀ id ufid other another,
          (situation.contents ⟨Medium.polarity medium, geometry⟩ log first).binding? (Medium.polarity medium) =
            some (id, ufid) →
          (situation.contents ⟨Medium.polarity medium, geometry⟩ log second).binding? (Medium.polarity medium) =
            some (other, another) →
          id ≠ other ∧ ufid ≠ another) ∧
      (∀ request, situation.session.Allows ⟨Medium.polarity medium, geometry⟩ request →
        ∃ answer after, situation.session.perform request = (.ok answer, after)) ∧
      ∀ store, situation.session.store = some store →
        (situation.contents ⟨Medium.polarity medium, geometry⟩).inUse = some store.active ∧
        ∃ after left, situation.session.perform .rotate = (.ok .done, ⟨after, some left⟩) ∧
          left.free ≤ store.free := by
  have start : Named ⟨Medium.polarity medium, geometry⟩ (Situation.mk ⟨medium, none⟩ []) :=
    .unused fits (Contents.inUse_unmarked unmarked) rfl
  intro event situation member
  have named := start.run run silent _ member
  refine ⟨?_, ?_, ?_⟩
  · intro log used first second late before id ufid other another bound further
    exact named.distinct used late before bound further
  · intro request allowed
    obtain ⟨answer, after, performed, -⟩ := named.perform allowed
    exact ⟨answer, after, performed⟩
  · intro store mounted
    obtain ⟨-, -, names⟩ := named.mounted mounted
    exact ⟨names.used, named.rotate mounted⟩

section RetriedSave

set_option maxRecDepth 8192

def retried : Situation Simulated :=
  let mounted := tornEntry.answered smallPartition (tornEntry.session.perform (.mount smallPartition.geometry)).2
  mounted.answered smallPartition (mounted.session.perform (.save (Vector.replicate 12 7) [1])).2

def retriedSave : List (Event × Situation Simulated) :=
  tornSave ++ [(.answered (.save (Vector.replicate 12 7) [1]) .done, retried)]

/-- A run in which an entry that was torn stays without a name, so that the next one can have it. -/
theorem run_namesUnique_retriedSave :
    Run smallPartition ⟨⟨Session.neverErased, none⟩, []⟩ retriedSave ∧
      (retried.contents smallPartition .a 2).binding? .zeros = some (⟨0, by decide⟩, Vector.replicate 12 7) ∧
      ∀ second id ufid, 2 < second →
        (retried.contents smallPartition .a second).binding? .zeros = some (id, ufid) →
        ⟨0, by decide⟩ ≠ id ∧ Vector.replicate 12 7 ≠ ufid := by
  have run : Run smallPartition ⟨⟨Session.neverErased, none⟩, []⟩ retriedSave := by
    refine .cons (.answered (by rfl) (by rfl)) (.cons (.cut (by rfl) (.save (by rfl) ?_))
      (.cons (.answered (by rfl) (by rfl)) (.cons (.answered (by rfl) (by rfl)) (.nil _))))
    exact Script.Interrupted.torn 3 (by decide) (by rfl)
  have named : (retried.contents smallPartition .a 2).binding? .zeros =
      some (⟨0, by decide⟩, Vector.replicate 12 7) := by
    decide +kernel
  refine ⟨run, named, ?_⟩
  intro second id ufid before bound
  have unique := @run_namesUnique Simulated _ _ Session.neverErased ⟨0, 128, 128⟩ Session.neverErased_fits
    (by intro log; cases log <;> decide) _ run ?_
  · have distinct := (unique _ retried (List.mem_append_right _ List.mem_cons_self)).1 .a (by decide +kernel)
    exact distinct 2 second (by decide) before _ _ _ _ named bound
  · intro step member log used
    simp only [retriedSave, tornSave, List.cons_append, List.nil_append, List.mem_cons, List.not_mem_nil, or_false]
      at member
    rcases member with rfl | rfl | rfl | rfl <;> cases log <;> decide +kernel

end RetriedSave

end Situation

end TwinLog
