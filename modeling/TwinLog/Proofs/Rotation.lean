import TwinLog.Proofs.Compaction

set_option autoImplicit false

namespace TwinLog

namespace Contents

def marked (contents : Contents) (log : Log) : Bool :=
  (contents log 0).info == Partition.marker

/-- The log that mounting takes for the active one. -/
def inUse (contents : Contents) : Option Log :=
  if contents.marked .a then some .a else if contents.marked .b then some .b else none

variable {contents current : Contents} {log : Log}

theorem marked_congr (same : current log 0 = contents log 0) : current.marked log = contents.marked log := by
  rw [marked, marked, same]

theorem marked_blank {polarity : Polarity} (blank : contents log 0 = Block.blank polarity) :
    contents.marked log = false := by
  rw [marked, blank, Block.info_eq, Block.getD_blank _ _ (by omega)]
  cases polarity <;> decide

theorem marked_put_marker (contents : Contents) (log : Log) :
    (contents.put log 0 [Partition.marker]).marked log = true := by
  rw [marked, put_same, Block.info_overlay, beq_self_eq_true]

theorem marked_put_void (contents : Contents) (log : Log) (polarity : Polarity) :
    (contents.put log 0 [polarity.voidWord]).marked log = false := by
  rw [marked, put_same, Block.info_overlay]
  cases polarity <;> decide

theorem inUse_only (here : contents.marked log = true) (there : contents.marked log.other = false) :
    contents.inUse = some log := by
  cases log
  · rw [inUse, if_pos here]
  · have first : contents.marked .a = false := there
    rw [inUse, if_neg (by rw [first]; decide), if_pos here]

theorem inUse_none (nowhere : contents.inUse = none) (log : Log) : contents.marked log = false := by
  rw [inUse] at nowhere
  split at nowhere
  · cases nowhere
  · rename_i first
    split at nowhere
    · cases nowhere
    · rename_i second
      cases log
      · simpa using first
      · simpa using second

theorem inUse_unmarked (unmarked : ∀ log, contents.marked log = false) : contents.inUse = none := by
  rw [inUse, unmarked .a, unmarked .b]
  rfl

theorem marked_of_inUse (used : contents.inUse = some log) : contents.marked log = true := by
  rw [inUse] at used
  split at used
  · rename_i first
    cases used
    exact first
  · split at used
    · rename_i second
      cases used
      exact second
    · cases used

theorem unmarked_of_inUse (used : contents.inUse = some .b) : contents.marked .a = false := by
  rw [inUse] at used
  split at used
  · cases used
  · rename_i first
    exact Bool.eq_false_iff.mpr first

end Contents

namespace Tape

/-- The marker block is not part of what a log says. -/
theorem Keeps.congr {tape tape' : Tape} {scars : List Nat} {records : List Record} (keeps : tape.Keeps scars records)
    (polarity : tape'.polarity = tape.polarity) (stop : tape'.stop = tape.stop)
    (same : ∀ position, 1 ≤ position → tape'.blocks position = tape.blocks position) : tape'.Keeps scars records := by
  have chains (index : Nat) (late : 1 ≤ index) : tape'.chainAt? index = tape.chainAt? index :=
    chainAt?_same polarity stop (fun position further => same position (by omega))
  refine ⟨?_, ?_, ?_, ?_⟩
  · rw [stop]
    exact keeps.positive
  · rw [stop]
    exact keeps.below
  · intro index head late inside clear kind
    rw [polarity, same index late] at kind
    rw [chains index late]
    exact keeps.started index head late (by omega) clear kind
  · rw [← keeps.listed, Tape.records, Tape.records, stop]
    apply List.filterMap_congr
    intro index member
    rw [List.mem_range'_1] at member
    rw [visible, visible]
    split
    · rfl
    · rw [recordAt, recordAt, polarity, same index member.1, chains index member.1]
      split
      · rfl
      · cases found : tape.chainAt? index with
        | none => rfl
        | some chain =>
            have first := (chainAt?_some.mp found).1
            rw [Option.map_some, Option.map_some, Chain.content, Chain.content,
              chain.extent_congr (fun position late _ => same position (by omega))]

theorem Settled.congr {tape tape' : Tape} {scars : List Nat} {records : List Record}
    (settled : tape.Settled scars records) (polarity : tape'.polarity = tape.polarity) (stop : tape'.stop = tape.stop)
    (same : ∀ position, 1 ≤ position → tape'.blocks position = tape.blocks position) :
    tape'.Settled scars records := by
  have positive := settled.positive
  refine ⟨settled.toKeeps.congr polarity stop same, ?_, ?_⟩
  · intro position late
    rw [polarity, same position (by omega)]
    exact settled.clear position (by omega)
  · rw [stop, polarity]
    by_cases first : tape.stop = 1
    · exact .inl first
    · rw [same _ (by omega)]
      exact settled.ends

end Tape

def Partition.logOf (polarity : Polarity) (blocks : List Block) : Nat → Block
  | 0 => (Block.blank polarity).overlay [marker]
  | index + 1 => blocks.getD index (Block.blank polarity)

theorem Contents.logOf_lay {polarity : Polarity} {contents : Contents} {log : Log}
    (erased : ∀ position, contents log position = Block.blank polarity) (blocks : List Block) :
    (contents.lay log 1 blocks).put log 0 [Partition.marker] log = Partition.logOf polarity blocks := by
  funext position
  cases position with
  | zero => rw [put_same, lay_apart _ _ (.inr (.inl Nat.zero_lt_one)), erased, Partition.logOf]
  | succ index =>
      rw [put_apart _ _ (by rintro ⟨-, same⟩; cases same), Partition.logOf]
      by_cases inside : index < blocks.length
      · rw [Nat.add_comm, lay_inside 1 blocks inside, List.getD_eq_getElem _ _ inside]
      · rw [lay_apart _ _ (.inr (.inr (by omega))), erased, List.getD_eq_default _ _ (by omega)]

theorem Contents.marked_logOf {contents : Contents} {log : Log} {polarity : Polarity} {blocks : List Block}
    (written : contents log = Partition.logOf polarity blocks) : contents.marked log = true := by
  rw [marked, written, Partition.logOf, Block.info_overlay, beq_self_eq_true]

theorem Tape.onward_logOf (polarity : Polarity) (blocks : List Block) :
    Tape.onward ⟨polarity, Partition.logOf polarity blocks, 1 + blocks.length⟩ 1 = blocks := by
  have laid := @Contents.map_lay (fun _ _ => Block.blank polarity) .a 1 blocks
  have filled := @Contents.logOf_lay polarity (fun _ _ => Block.blank polarity) .a (fun _ => rfl) blocks
  rw [Tape.onward, ← filled, Nat.add_sub_cancel_left]
  refine Eq.trans (List.map_congr_left fun index member => ?_) laid
  rw [List.mem_range'_1] at member
  exact Contents.put_apart _ _ (by rintro ⟨-, rfl⟩; omega)

/-- A log that was filled with what is live in another one says what is live there. -/
theorem Tape.settled_logOf (source : Tape) :
    Tape.Settled ⟨source.polarity, Partition.logOf source.polarity (Block.live source.polarity (source.onward 1)),
      1 + (Block.live source.polarity (source.onward 1)).length⟩ [] (Record.live (source.records [] 1)) := by
  have none : Tape.records ⟨source.polarity, fun _ => Block.blank source.polarity, 1⟩ [] 1 = [] :=
    Tape.records_done _ (Nat.le_refl _)
  have empty : Tape.Settled ⟨source.polarity, fun _ => Block.blank source.polarity, 1⟩ [] [] := by
    refine ⟨⟨Nat.le_refl _, ?_, ?_, none⟩, fun _ _ => rfl, .inl rfl⟩
    · intro index member
      cases member
    · intro index head late early
      simp only at early
      omega
  have filled := @Contents.logOf_lay source.polarity (fun _ _ => Block.blank source.polarity) .a (fun _ => rfl)
    (Block.live source.polarity (source.onward 1))
  have laid := @Settled.lay_live source (fun _ _ => Block.blank source.polarity) .a 1 [] empty 1
  refine laid.congr rfl rfl ?_
  intro position late
  simp only
  rw [← filled]
  exact Contents.put_apart _ _ (by rintro ⟨-, rfl⟩; omega)

namespace Store

/-- What is left where a rotation was interrupted: the old log as it was and still marked if it was, or the new log
with everything live and marked. -/
inductive Rotating (store : Store) (contents : Contents) (records : List Record) (current : Contents) : Prop
  | early (same : current store.active = contents store.active)
      (other : current store.active.other = contents store.active.other ∨
        current.marked store.active.other = false)
  | complete (free : Nat) (room : free ≤ store.partition.blocks)
      (settled : Tape.Settled ⟨store.partition.polarity, current store.active.other, free⟩ [] (Record.live records))
      (marked : current.marked store.active.other = true)
      (old : current store.active = contents store.active ∨ current.marked store.active = false)
      (kept : ∀ position, 1 ≤ position → current store.active position = contents store.active position)

/-- Wherever a rotation is interrupted, the log in use is the old one as it was or the new one with everything live. -/
theorem Rotating.inUse {store : Store} {contents current : Contents} {records : List Record}
    (rotating : store.Rotating contents records current) (used : contents.inUse = some store.active) :
    current.inUse = some store.active ∧ current store.active = contents store.active ∨
      current.inUse = some store.active.other ∧ ∃ free ≤ store.partition.blocks,
        Tape.Settled ⟨store.partition.polarity, current store.active.other, free⟩ [] (Record.live records) := by
  have here := Contents.marked_of_inUse used
  cases rotating with
  | early same other =>
      have marked : current.marked store.active = true := by
        rw [← here]
        exact Contents.marked_congr (by rw [same])
      refine .inl ⟨?_, same⟩
      rcases other with kept | unmarked
      · have there : current.marked store.active.other = contents.marked store.active.other :=
          Contents.marked_congr (by rw [kept])
        rw [← used]
        cases log : store.active <;> rw [log] at marked here there <;> simp only [Log.other] at there <;>
          rw [Contents.inUse, Contents.inUse, marked, here, there]
      · exact Contents.inUse_only marked unmarked
  | complete free room settled marked old _ =>
      rcases old with same | unmarked
      · -- with both logs marked, the first one is in use
        have still : current.marked store.active = true := by
          rw [← here]
          exact Contents.marked_congr (by rw [same])
        cases log : store.active with
        | a =>
            rw [log] at still same
            exact .inl ⟨by rw [Contents.inUse, if_pos still], same⟩
        | b =>
            rw [log] at marked settled
            have first : current.marked .a = true := marked
            exact .inr ⟨by rw [Contents.inUse, if_pos first]; rfl, free, room, settled⟩
      · refine .inr ⟨Contents.inUse_only marked ?_, free, room, settled⟩
        rw [Log.other_other]
        exact unmarked

theorem Rotating.kept {store : Store} {contents current : Contents} {records : List Record}
    (rotating : store.Rotating contents records current) {position : Nat} (late : 1 ≤ position) :
    current store.active position = contents store.active position := by
  cases rotating with
  | early same _ => rw [same]
  | complete _ _ _ _ _ kept => exact kept position late

/-- What a rotation comes to. -/
structure Rotated (store : Store) (records : List Record) (rotated : Store) (after : Contents) : Prop where
  partition : rotated.partition = store.partition
  active : rotated.active = store.active.other
  room : rotated.free ≤ rotated.partition.blocks
  settled : (rotated.tape after).Settled [] (Record.live records)
  marked : after.marked rotated.active = true
  unmarked : after.marked store.active = false
  full : rotated.free = 1 + Record.weights (Record.live records)

theorem Rotated.inUse {store rotated : Store} {records : List Record} {current : Contents}
    (turn : store.Rotated records rotated current) : current.inUse = some rotated.active := by
  refine Contents.inUse_only turn.marked ?_
  rw [turn.active, Log.other_other]
  exact turn.unmarked

def live (store : Store) (contents : Contents) : List Block :=
  Block.live store.partition.polarity ((store.tape contents).onward 1)

/-- What a rotation leaves, to the block: the other log is in use and holds what is live behind its marker. -/
structure Turned (store : Store) (contents : Contents) (turned : Store) (after : Contents) : Prop where
  left : turned = { store with active := store.active.other, free := 1 + (store.live contents).length }
  room : turned.free ≤ store.partition.blocks
  written : after store.active.other = Partition.logOf store.partition.polarity (store.live contents)
  unmarked : after.marked store.active = false

theorem length_live (store : Store) (contents : Contents) : (store.live contents).length =
    Record.weights (Record.live ((store.tape contents).records [] 1)) :=
  (store.tape contents).length_live_onward 1

/-- What a rotation leaves says what was live. -/
theorem Turned.rotated {store turned : Store} {contents after : Contents} (turn : store.Turned contents turned after) :
    store.Rotated ((store.tape contents).records [] 1) turned after := by
  obtain ⟨rfl, room, written, unmarked⟩ := turn
  refine ⟨rfl, rfl, room, ?_, Contents.marked_logOf written, unmarked, ?_⟩
  · change Tape.Settled ⟨store.partition.polarity, after store.active.other, _⟩ [] _
    rw [written]
    exact (store.tape contents).settled_logOf
  · rw [length_live]

/-- What is live in a log takes no more blocks than the log has, unless two live entries share an id. -/
theorem live_short {store : Store} {contents : Contents} {records : List Record}
    (listed : (store.tape contents).records [] 1 = records) (positive : 1 ≤ store.free)
    (distinct : ((Record.entries (Record.live records)).map Prod.fst).Nodup) :
    1 + Record.weights (Record.live records) ≤ store.free := by
  have enough : Record.weights records ≤ store.free - 1 := by
    rw [← listed]
    exact Tape.weights_records _ _ _
  have fewer := Record.weights_live distinct
  omega

theorem live_fits {store : Store} {contents : Contents} {records : List Record}
    (listed : (store.tape contents).records [] 1 = records) (positive : 1 ≤ store.free)
    (room : store.free ≤ store.partition.blocks) (unique : Record.Unique records) :
    1 + Record.weights (Record.live records) ≤ store.partition.blocks :=
  Nat.le_trans (live_short listed positive unique.live.ids) room

/-- What is left while a compaction fills the other log: the marker block of that is blank, and the active log is as it
was. -/
structure Filling (store : Store) (contents current : Contents) : Prop where
  source : current store.active = contents store.active
  blank : current store.active.other 0 = Block.blank store.partition.polarity

theorem Filling.wiped {store : Store} {contents : Contents} :
    store.Filling contents (contents.wiped store.partition.polarity store.active.other) where
  source := contents.wiped_other _ store.active.other_ne.symm
  blank := contents.wiped_same _ _ 0

theorem Filling.put {store : Store} {contents current : Contents} (filling : store.Filling contents current)
    {index : Nat} (late : 1 ≤ index) (words : List Word) :
    store.Filling contents (current.put store.active.other index words) where
  source := (current.put_other index words store.active.other_ne.symm).trans filling.source
  blank := by rw [Contents.put_apart _ _ (by rintro ⟨-, rfl⟩; omega), filling.blank]

theorem Filling.rotating {store : Store} {contents current : Contents} {records : List Record}
    (filling : store.Filling contents current) : store.Rotating contents records current :=
  .early filling.source (.inr (Contents.marked_blank filling.blank))

end Store

namespace Partition

section Activate

variable {σ : Type} {partition : Partition} {cut : Bool → σ → Contents → Prop} {state : σ} {contents : Contents}

/-- A log that is erased is marked, and the marker of the other one is made void if it is there. -/
theorem achieves_activate {log : Log} {result : Except StoreError Unit → σ → Contents → Prop}
    (inside : 0 < partition.blocks) (blank : contents log 0 = Block.blank partition.polarity)
    (here : ∀ torn, cut torn state contents) (marked : ∀ torn, cut torn state (contents.put log 0 [marker]))
    (next : ∀ after, after log = contents.put log 0 [marker] log →
      (after log.other = contents log.other ∧ contents.marked log.other = false ∨
        contents.marked log.other = true ∧
          after = (contents.put log 0 [marker]).put log.other 0 [partition.polarity.voidWord]) →
      cut false state after ∧ result (.ok ()) state after) :
    partition.Achieves result cut (partition.activate log) state contents := by
  have apart := log.other_ne
  have other : contents.put log 0 [marker] log.other = contents log.other := Contents.put_other _ _ _ apart
  have rest : partition.Achieves result cut
      (do if ← partition.isMarked log.other then partition.void log.other 0) state (contents.put log 0 [marker]) := by
    refine Achieves.bind (achieves_isMarked inside (marked false) ?_)
    have same : (((contents.put log 0 [marker]) log.other 0).info == marker) = contents.marked log.other := by
      rw [other]
      rfl
    rw [same]
    cases there : contents.marked log.other with
    | false => exact achieves_pure (marked false) (next _ rfl (.inl ⟨other, there⟩)).2
    | true =>
        have after := next ((contents.put log 0 [marker]).put log.other 0 [partition.polarity.voidWord])
          (Contents.put_other _ _ _ apart.symm) (.inr ⟨there, rfl⟩)
        exact achieves_void inside marked after.1 after.2
  refine Achieves.bind (achieves_isMarked inside (here false) ?_)
  have unmarked : ((contents log 0).info == marker) = false := Contents.marked_blank blank
  rw [unmarked]
  refine Achieves.bind (achieves_mark inside ?_ here (marked false) rest)
  rw [blank, Block.info_eq, Block.getD_blank _ _ (by omega)]
  exact partition.polarity.canProgram_erased _

end Activate

section Turn

variable {store : Store} {contents current : Contents} {cut : Bool → Store → Contents → Prop}
  {result : Except StoreError (Except Violation Store) → Store → Contents → Prop}

/-- A log that is filled behind its blank marker block is marked, and the old one is not any more. Only then the store
goes on in it. -/
theorem achieves_turn (inside : 0 < store.partition.blocks)
    (fits : 1 + (store.live contents).length ≤ store.partition.blocks) (filling : store.Filling contents current)
    (filled : current.put store.active.other 0 [marker] store.active.other =
      logOf store.partition.polarity (store.live contents))
    (cuts : ∀ torn current, store.Rotating contents ((store.tape contents).records [] 1) current →
      cut torn store current)
    (next : ∀ turned after, store.Turned contents turned after →
      cut false turned after ∧ result (.ok (.ok turned)) turned after) :
    store.partition.Achieves result cut (do
      store.partition.activate store.active.other
      let rotated : Store := { store with active := store.active.other, free := 1 + (store.live contents).length }
      Script.leave rotated
      return rotated).caught store current := by
  have apart := store.active.other_ne
  have copied {after : Contents} (written : after store.active.other =
      logOf store.partition.polarity (store.live contents)) :
      Tape.Settled ⟨store.partition.polarity, after store.active.other, 1 + (store.live contents).length⟩ []
        (Record.live ((store.tape contents).records [] 1)) := by
    rw [written]
    exact (store.tape contents).settled_logOf
  have still : current.put store.active.other 0 [marker] store.active = contents store.active :=
    (Contents.put_other _ _ _ apart.symm).trans filling.source
  apply Achieves.then_caught
  apply achieves_activate inside filling.blank (fun torn => cuts _ _ filling.rotating)
  · intro torn
    exact cuts _ _ (.complete _ fits (copied filled) (Contents.marked_logOf filled) (.inl still)
      (fun position _ => congrFun still position))
  · intro final same old
    rw [Log.other_other] at old
    have gone : final.marked store.active = false := by
      rcases old with ⟨unchanged, unmarked⟩ | ⟨-, rfl⟩
      · rw [← unmarked]
        exact Contents.marked_congr (by rw [unchanged])
      · exact Contents.marked_put_void _ _ _
    have kept (position : Nat) (late : 1 ≤ position) : final store.active position = contents store.active position := by
      rw [← filling.source]
      rcases old with ⟨unchanged, -⟩ | ⟨-, rfl⟩
      · rw [unchanged]
      · rw [Contents.put_apart _ _ (by rintro ⟨-, rfl⟩; omega), Contents.put_other _ _ _ apart.symm]
    have written := same.trans filled
    have rotating : store.Rotating contents ((store.tape contents).records [] 1) final :=
      .complete _ fits (copied written) (Contents.marked_logOf written) (.inr gone) kept
    have ended := next _ _ ⟨rfl, fits, written, gone⟩
    refine ⟨cuts _ _ rotating, Achieves.caught (Achieves.bind ?_)⟩
    exact achieves_leave (cuts _ _ rotating) ended.1 (achieves_pure ended.1 ended.2)

/-- A rotation ends with what is live in the other log, which is then the only one marked; if that log is too small, it
runs past its end while the active log is as it was. -/
theorem achieves_rotate_turned (positive : 1 ≤ store.free) (room : store.free ≤ store.partition.blocks)
    (cuts : ∀ torn current, store.Rotating contents ((store.tape contents).records [] 1) current →
      cut torn store current)
    (short : store.partition.blocks < 1 + (store.live contents).length → ∀ current,
      current store.active = contents store.active → current.marked store.active.other = false →
      result (.ok (.error (.blockOutside store.partition.blocks))) store current)
    (next : ∀ turned after, store.Turned contents turned after →
      cut false turned after ∧ result (.ok (.ok turned)) turned after) :
    store.partition.Achieves result cut store.rotate.caught store contents := by
  have unchanged : store.Rotating contents ((store.tape contents).records [] 1) contents := .early rfl (.inl rfl)
  have wiped : store.Filling contents (contents.wiped store.partition.polarity store.active.other) := .wiped
  have erased := contents.wiped_same store.partition.polarity store.active.other
  apply Achieves.then_caught
  apply achieves_wipe (cuts _ _ unchanged) (cuts _ _ wiped.rotating)
  apply Achieves.bind_caught
  change store.journal.partition.Achieves _ _ _ _ _
  have puts (current : Contents) (index : Nat) (words : List Word) (late : 1 ≤ index)
      (filling : store.Filling contents current) :
      store.Filling contents (current.put store.active.other index words) :=
    filling.put late words
  refine achieves_copyTo (store.Filling contents) (fun _ filling => filling.source)
    (fun torn _ filling => cuts torn _ filling.rotating) puts positive room _ wiped erased (store.live contents) rfl
    ?_ ?_
  · intro beyond current filling
    exact ⟨cuts _ _ filling.rotating, short beyond current filling.source (Contents.marked_blank filling.blank)⟩
  · intro fits
    have filling := Contents.lay_keeps puts wiped 1 (Nat.le_refl 1) (store.live contents)
    have filled := Contents.logOf_lay erased (store.live contents)
    exact achieves_turn (Nat.lt_of_lt_of_le positive room) fits filling filled cuts next

end Turn

theorem achieves_rotate_caught {cut : Bool → Store → Contents → Prop} {store : Store} {contents : Contents}
    {result : Except StoreError (Except Violation Store) → Store → Contents → Prop} {records : List Record}
    (listed : (store.tape contents).records [] 1 = records) (positive : 1 ≤ store.free)
    (room : store.free ≤ store.partition.blocks)
    (cuts : ∀ torn current, store.Rotating contents records current → cut torn store current)
    (short : store.partition.blocks < 1 + Record.weights (Record.live records) → ∀ current,
      current store.active = contents store.active → current.marked store.active.other = false →
      result (.ok (.error (.blockOutside store.partition.blocks))) store current)
    (next : ∀ rotated after, store.Rotated records rotated after →
      cut false rotated after ∧ result (.ok (.ok rotated)) rotated after) :
    store.partition.Achieves result cut store.rotate.caught store contents := by
  subst listed
  rw [← Store.length_live] at short
  exact achieves_rotate_turned positive room cuts short fun turned after turn => next turned after turn.rotated

theorem achieves_rotate {cut : Bool → Store → Contents → Prop} {store : Store} {contents : Contents}
    {result : Except StoreError Store → Store → Contents → Prop} {records : List Record}
    (listed : (store.tape contents).records [] 1 = records) (positive : 1 ≤ store.free)
    (room : store.free ≤ store.partition.blocks) (unique : Record.Unique records)
    (cuts : ∀ torn current, store.Rotating contents records current → cut torn store current)
    (next : ∀ rotated after, store.Rotated records rotated after →
      cut false rotated after ∧ result (.ok rotated) rotated after) :
    store.partition.Achieves result cut store.rotate store contents := by
  have fits := Store.live_fits listed positive room unique
  apply Achieves.of_caught
  apply achieves_rotate_caught listed positive room cuts _ next
  intro beyond
  exact absurd fits (Nat.not_le.mpr beyond)

/-- Where no log is in use, the first one is erased and marked. -/
theorem achieves_format {σ : Type} {cut : Bool → σ → Contents → Prop} {state : σ} {contents : Contents}
    {result : Except StoreError Store → σ → Contents → Prop} {partition : Partition} (inside : 0 < partition.blocks)
    (none : contents.inUse = none) (here : cut false state contents)
    (fresh : ∀ torn current, (∀ position, 1 ≤ position →
        current .a position = Block.blank partition.polarity) → current .b = contents .b →
      cut torn state current ∧ (current.marked .a = true → result (.ok ⟨partition, .a, 1⟩) state current)) :
    partition.Achieves result cut (do
      partition.wipe .a
      partition.activate .a
      return ⟨partition, .a, 1⟩) state contents := by
  have erased := contents.wiped_same partition.polarity .a
  have other : contents.wiped partition.polarity .a .b = contents .b := contents.wiped_other _ (by decide)
  have blank {current : Contents}
      (now : current .a = (contents.wiped partition.polarity .a).put .a 0 [marker] .a) (position : Nat)
      (late : 1 ≤ position) : current .a position = Block.blank partition.polarity := by
    rw [now, Contents.put_apart _ _ (by rintro ⟨-, rfl⟩; omega), erased]
  have wiped (torn : Bool) := fresh torn _ (fun position _ => erased position) other
  have marked (torn : Bool) := fresh torn ((contents.wiped partition.polarity .a).put .a 0 [marker]) (blank rfl)
    ((Contents.put_other _ _ _ (by decide)).trans other)
  refine Achieves.bind (achieves_wipe here (wiped false).1 ?_)
  refine Achieves.bind (achieves_activate inside (erased 0) (fun torn => (wiped torn).1)
    (fun torn => (marked torn).1) ?_)
  rintro after now (⟨unchanged, -⟩ | ⟨there, -⟩)
  · have started := fresh false after (blank now) (unchanged.trans other)
    have there : after.marked .a = true := by
      rw [Contents.marked, now]
      exact Contents.marked_put_marker _ .a
    exact ⟨started.1, achieves_pure started.1 (started.2 there)⟩
  · have unmarked : (contents.wiped partition.polarity .a).marked Log.a.other = contents.marked .b :=
      Contents.marked_congr (congrFun other 0)
    rw [unmarked, Contents.inUse_none none] at there
    cases there

/-- Mounting finds the log in use and its end, or starts with an empty log where none is in use. -/
theorem achieves_mount {σ : Type} {cut : Bool → σ → Contents → Prop} {state : σ} {contents : Contents}
    {result : Except StoreError Store → σ → Contents → Prop} {partition : Partition} {pageSize : Word}
    (checked : partition.geometry.check pageSize = .ok ())
    (outside : ∀ log position, partition.blocks ≤ position → contents log position = Block.blank partition.polarity)
    (here : ∀ torn, cut torn state contents)
    (found : ∀ log, contents.inUse = some log → ∀ last, 1 ≤ last → last ≤ partition.blocks →
      (∀ position, last ≤ position → contents log position = Block.blank partition.polarity) →
      (last = 1 ∨ contents log (last - 1) ≠ Block.blank partition.polarity) →
      result (.ok ⟨partition, log, last⟩) state contents)
    (fresh : contents.inUse = none → ∀ torn current, (∀ position, 1 ≤ position →
        current .a position = Block.blank partition.polarity) → current .b = contents .b →
      cut torn state current ∧ (current.marked .a = true → result (.ok ⟨partition, .a, 1⟩) state current)) :
    partition.Achieves result cut (Store.mount partition.polarity pageSize partition.geometry) state contents := by
  have two := (Geometry.check_ok checked).two
  have inside : 0 < partition.blocks := by
    change 0 < partition.geometry.blocks
    omega
  have ended (log : Log) (used : contents.inUse = some log) :
      partition.Achieves result cut
        (do return (⟨partition, log, ← partition.freeBelow log partition.blocks⟩ : Store)) state contents := by
    refine Achieves.bind (achieves_freeBelow (here false) partition.blocks inside (Nat.le_refl _) ?_)
    intro last late early blank ends
    refine achieves_pure (here false) (found log used last late early ?_ ends)
    intro position from_last
    by_cases within : position < partition.blocks
    · exact blank position from_last within
    · exact outside log position (by omega)
  rw [Store.mount, checked]
  refine Achieves.bind (achieves_isMarked inside (here false) ?_)
  change partition.Achieves result cut (if contents.marked .a = true then _ else _) state contents
  split
  · rename_i first
    exact ended .a (by rw [Contents.inUse, if_pos first])
  · rename_i first
    refine Achieves.bind (achieves_isMarked inside (here false) ?_)
    change partition.Achieves result cut (if contents.marked .b = true then _ else _) state contents
    split
    · rename_i second
      exact ended .b (by rw [Contents.inUse, if_neg first, if_pos second])
    · rename_i second
      have none : contents.inUse = none := by rw [Contents.inUse, if_neg first, if_neg second]
      exact achieves_format inside none (here false) (fresh none)

end Partition

end TwinLog
