import TwinLog.Proofs.Contents
import TwinLog.Store.Value

set_option autoImplicit false

namespace TwinLog

/-- How far an operation of a store has come. -/
inductive Stage where
  /-- It has appended to the active log up to this index. -/
  | appending (free : Nat)
  /-- It has erased the other log. -/
  | turned
  deriving DecidableEq, Repr

namespace Store

def Follows (store : Store) : Stage → Store → Prop
  | .appending free, current => current = { store with free }
  | .turned, current => current.partition = store.partition ∧ current.active = store.active.other

def Leaves (store : Store) : Stage → Store → Prop
  | .appending free, left => left = { store with free }
  | .turned, _ => True

/-- Whether a block of the active log may be made void at a stage. Once the other log is erased any may be. -/
def MayVoid (store : Store) : Stage → Nat → Prop
  | .appending _, index => index < store.free
  | .turned, _ => True

/-- The words that an operation of `store` may program at the start of a block, and the stage after that. -/
inductive Programs (store : Store) : Stage → Log → Nat → List Word → Stage → Prop
  | void {stage : Stage} {index : Nat} (old : store.MayVoid stage index) :
      Programs store stage store.active index [store.partition.polarity.voidWord] stage
  | append {free : Nat} (block : Block) :
      Programs store (.appending free) store.active free block.toList (.appending (free + 1))
  | copy {index : Nat} {words : List Word} (short : words.length ≤ 8) :
      Programs store .turned store.active.other index words .turned

variable {store current : Store} {stage : Stage}

theorem Programs.turned {log : Log} {index : Nat} {words : List Word} {after : Stage}
    (programs : store.Programs stage log index words after) : after = .turned ↔ stage = .turned := by
  cases programs with
  | void old => exact Iff.rfl
  | append block => simp
  | copy short => exact Iff.rfl

theorem leaves_turned (store left : Store) : store.Leaves .turned left :=
  trivial

theorem Follows.leaves (follows : store.Follows stage current) : store.Leaves stage current := by
  cases stage with
  | appending free => exact follows
  | turned => trivial

theorem Follows.partition (follows : store.Follows stage current) : current.partition = store.partition := by
  cases stage with
  | appending free => cases follows; rfl
  | turned => exact follows.1

/-- A block that the store appends may be programmed, and the store that has grown by it is the one that appends
next. -/
theorem Follows.append (follows : store.Follows stage current) (block : Block) :
    ∃ after, store.Programs stage current.active current.free block.toList after ∧
      store.Follows after { current with free := current.free + 1 } ∧ (after = .turned ↔ stage = .turned) := by
  cases stage with
  | appending free =>
      cases follows
      exact ⟨_, .append block, rfl, by simp⟩
  | turned =>
      have short : block.toList.length ≤ 8 := Nat.le_of_eq block.length_toList
      have copied := @Programs.copy store current.free block.toList short
      rw [← follows.2] at copied
      exact ⟨_, copied, follows, Iff.rfl⟩

end Store

namespace Script

variable {σ α β : Type}

/-- Whether an operation makes no other medium calls than `store` may, from a stage on and whatever its reads deliver,
leaves what it should at every one of them, and comes to its end with what satisfies `ends`. -/
def Treads (store : Store) (mounted : σ → Store) (ends : α → Stage → σ → Prop) : Script σ α → Stage → σ → Prop
  | .done value, stage, state => ends value stage state
  | .stop _, stage, state => store.Leaves stage (mounted state)
  | .keep kept rest, stage, _ => Treads store mounted ends rest stage kept
  | .read address count next, stage, state =>
      store.Leaves stage (mounted state) ∧
        (∃ log index, store.partition.address log index = .ok address ∧ count ≤ 8) ∧
        ∀ words, Treads store mounted ends (next words) stage state
  | .write address words rest, stage, state =>
      store.Leaves stage (mounted state) ∧
        ∃ log index after, store.partition.address log index = .ok address ∧
          store.Programs stage log index words after ∧ Treads store mounted ends rest after state
  | .erase address count rest, stage, state =>
      store.Leaves stage (mounted state) ∧ stage ≠ .turned ∧
        store.partition.address store.active.other 0 = .ok address ∧
        count = UInt32.ofNat (Block.wordCount * store.partition.blocks) ∧
        Treads store mounted ends rest .turned state

variable {store : Store} {mounted : σ → Store} {stage : Stage} {state : σ}

theorem treads_bind {script : Script σ α} {next : α → Script σ β} {ends : β → Stage → σ → Prop}
    (treads : Treads store mounted (fun value stage state => Treads store mounted ends (next value) stage state) script
      stage state) : Treads store mounted ends (script >>= next) stage state := by
  induction script generalizing stage state with
  | done value => exact treads
  | stop reason => exact treads
  | keep kept rest ih => exact ih treads
  | read address count rest ih => exact ⟨treads.1, treads.2.1, fun words => ih words (treads.2.2 words)⟩
  | write address words rest ih =>
      obtain ⟨leaves, log, index, after, located, programs, later⟩ := treads
      exact ⟨leaves, log, index, after, located, programs, ih later⟩
  | erase address count rest ih =>
      obtain ⟨leaves, early, located, whole, later⟩ := treads
      exact ⟨leaves, early, located, whole, ih later⟩

theorem Treads.mono {ends ends' : α → Stage → σ → Prop} {script : Script σ α}
    (treads : Treads store mounted ends script stage state)
    (weaker : ∀ value stage state, ends value stage state → ends' value stage state) :
    Treads store mounted ends' script stage state := by
  induction script generalizing stage state with
  | done value => exact weaker _ _ _ treads
  | stop reason => exact treads
  | keep kept rest ih => exact ih treads
  | read address count rest ih => exact ⟨treads.1, treads.2.1, fun words => ih words (treads.2.2 words)⟩
  | write address words rest ih =>
      obtain ⟨leaves, log, index, after, located, programs, later⟩ := treads
      exact ⟨leaves, log, index, after, located, programs, ih later⟩
  | erase address count rest ih =>
      obtain ⟨leaves, early, located, whole, later⟩ := treads
      exact ⟨leaves, early, located, whole, ih later⟩

section Reading

variable (leaves : store.Leaves stage (mounted state))
include leaves

theorem treads_load {partition : Partition} (same : partition = store.partition) {log : Log} {index : Nat}
    {ends : Block → Stage → σ → Prop} (next : ∀ block, ends block stage state) :
    Treads store mounted ends (partition.load log index) stage state := by
  subst same
  unfold Partition.load
  cases located : store.partition.address log index with
  | error violation => exact leaves
  | ok address => exact ⟨leaves, ⟨log, index, located, Nat.le_refl 8⟩, fun words => next _⟩

theorem treads_isMarked {partition : Partition} (same : partition = store.partition) {log : Log}
    {ends : Bool → Stage → σ → Prop} (next : ∀ marked, ends marked stage state) :
    Treads store mounted ends (partition.isMarked log) stage state := by
  subst same
  unfold Partition.isMarked
  cases located : store.partition.address log 0 with
  | error violation => exact leaves
  | ok address => exact ⟨leaves, ⟨log, 0, located, by omega⟩, fun words => next _⟩

theorem treads_void {partition : Partition} (same : partition = store.partition) {index : Nat}
    (old : store.MayVoid stage index) {ends : Unit → Stage → σ → Prop} (next : ends () stage state) :
    Treads store mounted ends (partition.void store.active index) stage state := by
  subst same
  unfold Partition.void
  cases located : store.partition.address store.active index with
  | error violation => exact leaves
  | ok address => exact ⟨leaves, store.active, index, stage, located, .void old, next⟩

variable {journal : Journal} (same : journal.partition = store.partition)
include same

theorem treads_lookupLast {ends : Lookup → Stage → σ → Prop} (ufid : Ufid) (remaining : Nat) (used : List FileId)
    (short : remaining ≤ journal.stop - 1)
    (next : ∀ answer, (∀ id index, answer = .found id index → index < journal.stop) → ends answer stage state) :
    Treads store mounted ends (journal.lookupLast ufid remaining used) stage state := by
  induction remaining generalizing used with
  | zero => exact next _ (fun id index found => by cases found)
  | succ remaining ih =>
      have later (used : List FileId) := ih used (by omega)
      rw [Journal.lookupLast]
      apply treads_bind
      apply treads_load leaves same
      intro block
      cases block.binding? journal.polarity with
      | none => exact later used
      | some binding =>
          obtain ⟨id, owner⟩ := binding
          simp only
          split
          · apply next
            intro id' index found
            cases found
            omega
          · exact later (id :: used)

theorem treads_lookup {ends : Lookup → Stage → σ → Prop} (ufid : Ufid)
    (next : ∀ answer, (∀ id index, answer = .found id index → index < journal.stop) → ends answer stage state) :
    Treads store mounted ends (journal.lookup ufid) stage state :=
  treads_lookupLast leaves same ufid _ _ (Nat.le_refl _) next

theorem treads_continues {ends : Bool → Stage → σ → Prop} (stop remaining : Nat) (sum : Word) (block : Block)
    (next : ∀ sound, ends sound stage state) :
    Treads store mounted ends (journal.continues stop remaining sum block) stage state := by
  induction remaining generalizing sum block with
  | zero => exact next _
  | succ remaining ih =>
      rw [Journal.continues]
      apply treads_bind
      apply treads_load leaves same
      intro further
      split
      · exact ih _ further
      · exact next false

theorem treads_chainAt {ends : Option Chain → Stage → σ → Prop} (id : FileId) (index : Nat)
    (next : ∀ found, (∀ chain, found = some chain → chain.start = index) → ends found stage state) :
    Treads store mounted ends (journal.chainAt id index) stage state := by
  have none := next none (fun chain found => by cases found)
  have some (head : Start) := next (some ⟨index, head⟩) (fun chain found => by cases found; rfl)
  rw [Journal.chainAt]
  apply treads_bind
  apply treads_load leaves same
  intro first
  cases journal.polarity.kind first.info with
  | entry other => exact none
  | cont => exact none
  | start head =>
      simp only
      split
      · apply treads_bind
        unfold Journal.accepts
        split
        · exact none
        · split
          · exact none
          · apply treads_continues leaves same
            intro sound
            cases sound with
            | false => exact none
            | true => exact some head
      · exact none

/-- Looking for the last chain of a file reads, and with `prune` makes the first blocks of earlier chains void. -/
theorem treads_latestLast {ends : Option Chain → Stage → σ → Prop} (id : FileId) (prune : Bool)
    (old : prune = true → journal.log = store.active ∧ ∀ index < journal.stop, store.MayVoid stage index)
    (remaining inside : Nat) (latest : Option Chain) (short : remaining ≤ journal.stop)
    (before : ∀ chain, latest = some chain → chain.start < journal.stop) (next : ∀ found, ends found stage state) :
    Treads store mounted ends (journal.latestLast id prune remaining inside latest) stage state := by
  induction remaining generalizing inside latest with
  | zero => exact next latest
  | succ remaining ih =>
      cases inside with
      | succ inside => exact ih inside latest (by omega) before
      | zero =>
          rw [Journal.latestLast]
          apply treads_bind
          apply treads_chainAt leaves same
          intro found here
          cases found with
          | none => exact ih 0 latest (by omega) before
          | some chain =>
              have start := here chain rfl
              have later : Treads store mounted ends
                  (journal.latestLast id prune remaining (chain.count - 1) (some chain)) stage state := by
                apply ih _ _ (by omega)
                intro other also
                cases also
                omega
              cases prune with
              | false => exact later
              | true =>
                  apply treads_bind
                  -- an older chain starts before the one that was found, so it is among what may be made void
                  cases latest with
                  | none => exact later
                  | some older =>
                      obtain ⟨log, written⟩ := old rfl
                      rw [Journal.supersede, log]
                      exact treads_void leaves same (written _ (before older rfl)) later

theorem treads_latest {ends : Option Chain → Stage → σ → Prop} (id : FileId) (start : Nat) (prune : Bool)
    (old : prune = true → journal.log = store.active ∧ ∀ index < journal.stop, store.MayVoid stage index)
    (next : ∀ found, ends found stage state) :
    Treads store mounted ends (journal.latest id start prune) stage state :=
  treads_latestLast leaves same id prune old _ 0 none (by omega) (fun chain found => by cases found) next

end Reading

theorem treads_readLast {journal : Journal} (same : journal.partition = store.partition) {chain : Chain} {limit : Nat}
    {note : List UInt8 → Script σ Unit} {ends : List UInt8 → Stage → σ → Prop}
    (noted : ∀ copied state, store.Leaves stage (mounted state) →
      Treads store mounted (fun _ after state => after = stage ∧ store.Leaves stage (mounted state)) (note copied) stage
        state)
    (next : ∀ copied state, store.Leaves stage (mounted state) → ends copied stage state) (remaining : Nat)
    (copied : List UInt8) (leaves : store.Leaves stage (mounted state)) :
    Treads store mounted ends (journal.readLast chain limit note remaining copied) stage state := by
  induction remaining generalizing copied state with
  | zero => exact next _ _ leaves
  | succ remaining ih =>
      rw [Journal.readLast]
      split
      · exact next _ _ leaves
      · apply treads_bind
        apply treads_load leaves same
        intro block
        apply treads_bind
        apply (noted _ _ leaves).mono
        rintro _ _ state ⟨rfl, leaves⟩
        exact ih _ leaves

end Script

namespace Store

open Script

variable {σ : Type} {store : Store} {mounted : σ → Store}

section Readers

variable {state : σ} (leaves : store.Leaves (.appending store.free) (mounted state))
include leaves

theorem treads_locate {ends : Option Chain → Stage → σ → Prop} (ufid : Ufid)
    (next : ∀ found, ends found (.appending store.free) state) :
    Treads store mounted ends (store.locate ufid) (.appending store.free) state := by
  apply treads_bind
  apply treads_lookup leaves rfl
  intro answer _
  cases answer with
  | vacant id => exact next none
  | found id index => exact treads_latest leaves rfl id _ true (fun _ => ⟨rfl, fun _ inside => inside⟩) next

theorem treads_chainOf {ends : Chain → Stage → σ → Prop} (ufid : Ufid)
    (next : ∀ chain, ends chain (.appending store.free) state) :
    Treads store mounted ends (store.chainOf ufid) (.appending store.free) state := by
  apply treads_bind
  apply treads_locate leaves
  intro found
  cases found with
  | none => exact leaves
  | some chain => exact next chain

theorem treads_size {ends : Nat → Stage → σ → Prop} (ufid : Ufid)
    (next : ∀ size, ends size (.appending store.free) state) :
    Treads store mounted ends (store.size ufid) (.appending store.free) state :=
  treads_bind (treads_chainOf leaves ufid fun _ => next _)

theorem treads_contains {ends : Bool → Stage → σ → Prop} (ufid : Ufid)
    (next : ∀ found, ends found (.appending store.free) state) :
    Treads store mounted ends (store.contains ufid) (.appending store.free) state :=
  treads_bind (treads_locate leaves ufid fun _ => next _)

theorem treads_readAll {ends : List UInt8 → Stage → σ → Prop} (ufid : Ufid)
    (next : ∀ content state, store.Leaves (.appending store.free) (mounted state) →
      ends content (.appending store.free) state) :
    Treads store mounted ends (store.readAll ufid) (.appending store.free) state := by
  apply treads_bind
  apply treads_chainOf leaves
  intro chain
  apply treads_readLast rfl _ next _ _ leaves
  intro copied state leaves
  exact And.intro rfl leaves

theorem treads_loadValue {shape : Shape} {ends : shape.Value → Stage → σ → Prop} (ufid : Ufid)
    (next : ∀ value state, store.Leaves (.appending store.free) (mounted state) →
      ends value (.appending store.free) state) :
    Treads store mounted ends (store.loadValue ufid shape) (.appending store.free) state := by
  apply treads_bind
  apply treads_readAll leaves
  intro content state leaves
  split
  · exact next _ _ leaves
  · exact leaves

theorem treads_remove {ends : Unit → Stage → σ → Prop} (ufid : Ufid) (next : ends () (.appending store.free) state) :
    Treads store mounted ends (store.remove ufid) (.appending store.free) state := by
  apply treads_bind
  apply treads_lookup leaves rfl
  intro answer inside
  cases answer with
  | vacant id => exact leaves
  | found id index => exact treads_void leaves rfl (inside id index rfl) next

end Readers

theorem treads_readInto {buffer : List UInt8} {ends : Nat → Stage → List UInt8 → Prop} (ufid : Ufid)
    (state : List UInt8) (next : ∀ size state, ends size (.appending store.free) state) :
    Treads store (fun _ => store) ends (store.readInto ufid buffer) (.appending store.free) state := by
  have leaves : store.Leaves (.appending store.free) store := rfl
  apply treads_bind
  apply treads_chainOf leaves
  intro chain
  apply treads_bind
  apply treads_bind
  apply treads_readLast rfl _ _ _ _ leaves
  · intro copied state _
    exact And.intro rfl leaves
  · intro copied state _
    exact next _ state

section Appending

variable {current : Store} {stage : Stage} {state : Store} (follows : store.Follows stage current)
  (leaves : store.Leaves stage state)
include follows leaves

theorem treads_append {ends : Store → Stage → Store → Prop} (block : Block)
    (next : ∀ grown after, store.Follows after grown → (after = .turned ↔ stage = .turned) → ends grown after grown) :
    Treads store (fun left => left) ends (current.append block) stage state := by
  obtain ⟨after, programs, grows, turned⟩ := follows.append block
  unfold Store.append Partition.append
  cases located : current.partition.address current.active current.free with
  | error violation => exact leaves
  | ok address =>
      rw [follows.partition] at located
      exact ⟨leaves, current.active, current.free, after, located, programs, next _ after grows turned⟩

theorem treads_appendAll {ends : Store → Stage → Store → Prop} (blocks : List Block)
    (next : ∀ grown after state, store.Leaves after state → (after = .turned ↔ stage = .turned) →
      ends grown after state) :
    Treads store (fun left => left) ends (current.appendAll blocks) stage state := by
  induction blocks generalizing current stage state with
  | nil => exact next current stage state leaves Iff.rfl
  | cons block rest ih =>
      apply treads_bind
      apply treads_append follows leaves
      intro grown after grows turned
      apply ih grows grows.leaves
      intro last stage state leaves later
      exact next last stage state leaves (later.trans turned)

theorem treads_appendContent {ends : Store → Stage → Store → Prop} (id : FileId) (data : List UInt8)
    (next : ∀ grown after state, store.Leaves after state → (after = .turned ↔ stage = .turned) →
      ends grown after state) :
    Treads store (fun left => left) ends (current.appendContent id data) stage state := by
  apply treads_bind
  cases current.partition.polarity.startWord? id data.length (restoreBits data).toNat with
  | error violation => exact leaves
  | ok info => exact treads_appendAll follows leaves _ next

theorem treads_place {ends : Bool → Stage → Store → Prop} (ufid : Ufid) (data : List UInt8)
    (next : ∀ placed after state, store.Leaves after state → (after = .turned ↔ stage = .turned) →
      ends placed after state) :
    Treads store (fun left => left) ends (current.place ufid data) stage state := by
  have refused := next false stage state leaves Iff.rfl
  apply treads_bind
  apply treads_lookup leaves follows.partition
  intro answer _
  cases answer with
  | found id index =>
      simp only
      split
      · apply treads_bind
        apply treads_bind
        apply treads_appendContent follows leaves
        intro _ after state leaves turned
        exact next true after state leaves turned
      · exact refused
  | vacant unused =>
      cases unused with
      | none => exact leaves
      | some id =>
          simp only
          split
          · apply treads_bind
            apply treads_append follows leaves
            intro grown between grows turned
            apply treads_bind
            apply treads_bind
            apply treads_appendContent grows grows.leaves
            intro _ after state leaves later
            exact next true after state leaves (later.trans turned)
          · exact refused

end Appending

section Turning

variable {state : Store}

theorem treads_copied {ends : Nat → Stage → Store → Prop} (free : Nat) (block : Block)
    (next : ends (free + 1) .turned state) :
    Treads store (fun left => left) ends (store.partition.append store.active.other free block) .turned state := by
  unfold Partition.append
  cases located : store.partition.address store.active.other free with
  | error violation => exact trivial
  | ok address =>
      have short : block.toList.length ≤ 8 := Nat.le_of_eq block.length_toList
      exact ⟨trivial, store.active.other, free, .turned, located, .copy short, next⟩

theorem treads_copyChainLast {ends : Nat → Stage → Store → Prop} (chain : Chain) (remaining free : Nat)
    (next : ∀ free, ends free .turned state) :
    Treads store (fun left => left) ends (store.journal.copyChainLast chain store.active.other remaining free) .turned
      state := by
  induction remaining generalizing free with
  | zero => exact next free
  | succ remaining ih =>
      apply treads_bind
      apply treads_load (leaves_turned store state) rfl
      intro block
      apply treads_bind
      exact treads_copied free block (ih (free + 1))

theorem treads_copyLast {ends : Nat → Stage → Store → Prop} (remaining free : Nat)
    (next : ∀ free, ends free .turned state) :
    Treads store (fun left => left) ends (store.journal.copyLast store.active.other remaining free) .turned state := by
  induction remaining generalizing free with
  | zero => exact next free
  | succ remaining ih =>
      apply treads_bind
      apply treads_load (leaves_turned store state) rfl
      intro block
      cases block.binding? store.journal.polarity with
      | none => exact ih free
      | some binding =>
          apply treads_bind
          apply treads_latest (leaves_turned store state) rfl _ _ false (fun prune => by cases prune)
          intro found
          cases found with
          | none => exact ih free
          | some chain =>
              apply treads_bind
              apply treads_copied free block
              apply treads_bind
              exact treads_copyChainLast chain _ _ ih

theorem treads_activate {ends : Unit → Stage → Store → Prop} (next : ends () .turned state) :
    Treads store (fun left => left) ends (store.partition.activate store.active.other) .turned state := by
  have last : Treads store (fun left => left) ends (do
      if ← store.partition.isMarked store.active.other.other then
        store.partition.void store.active.other.other 0) .turned state := by
    apply treads_bind
    apply treads_isMarked (leaves_turned store state) rfl
    intro marked
    cases marked with
    | false => exact next
    | true =>
        rw [Log.other_other]
        have old : store.MayVoid .turned 0 := trivial
        exact treads_void (leaves_turned store state) rfl old next
  apply treads_bind
  apply treads_isMarked (leaves_turned store state) rfl
  intro marked
  cases marked with
  | true => exact last
  | false =>
      apply treads_bind
      unfold Partition.mark
      cases located : store.partition.address store.active.other 0 with
      | error violation => exact trivial
      | ok address => exact ⟨trivial, store.active.other, 0, .turned, located, .copy (by simp), last⟩

/-- A compaction erases the other log first and then writes to it alone, but for the marker that it makes void. -/
theorem treads_rotate {stage : Stage} {ends : Store → Stage → Store → Prop} (leaves : store.Leaves stage state)
    (early : stage ≠ .turned) (next : ∀ rotated, store.Follows .turned rotated → ends rotated .turned rotated) :
    Treads store (fun left => left) ends store.rotate stage state := by
  apply treads_bind
  unfold Partition.wipe
  cases located : store.partition.address store.active.other 0 with
  | error violation => exact leaves
  | ok address =>
      refine ⟨leaves, early, located, rfl, ?_⟩
      apply treads_bind
      apply treads_copyLast
      intro free
      apply treads_bind
      apply treads_activate
      exact next _ ⟨rfl, rfl⟩

/-- A save appends, at most once after a turn. -/
theorem treads_save {ends : Unit → Stage → Store → Prop} (ufid : Ufid) (data : List UInt8)
    (leaves : store.Leaves (.appending store.free) state)
    (next : ∀ after state, store.Leaves after state → ends () after state) :
    Treads store (fun left => left) ends (store.save ufid data) (.appending store.free) state := by
  unfold Store.save
  split
  · exact leaves
  · apply treads_bind
    have follows : store.Follows (.appending store.free) store := rfl
    apply treads_place follows leaves
    intro placed after state leaves turned
    have early : after ≠ .turned := fun same => by cases turned.mp same
    cases placed with
    | true => exact next after state leaves
    | false =>
        apply treads_bind
        apply treads_rotate leaves early
        intro rotated follows
        apply treads_bind
        apply treads_place follows (leaves_turned store rotated)
        intro placed after state leaves _
        cases placed with
        | true => exact next after state leaves
        | false => exact leaves

theorem treads_saveValue {ends : Unit → Stage → Store → Prop} (ufid : Ufid) (payload : Payload)
    (leaves : store.Leaves (.appending store.free) state)
    (next : ∀ after state, store.Leaves after state → ends () after state) :
    Treads store (fun left => left) ends (store.saveValue ufid payload) (.appending store.free) state := by
  unfold Store.saveValue
  split
  · exact treads_save ufid _ leaves next
  · exact leaves

end Turning

end Store

end TwinLog
