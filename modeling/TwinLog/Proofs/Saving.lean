import TwinLog.Proofs.Access

set_option autoImplicit false

namespace TwinLog

namespace Store

def grown (store : Store) (count : Nat) : Store :=
  { store with free := store.free + count }

/-- How it ends to place the content of a file in the active log, without a rotation. -/
inductive Placed (store : Store) (contents : Contents) (ufid : Ufid) (data : List UInt8) :
    Except StoreError Unit → Store → Contents → Prop
  | full (added : store.additions contents ufid data = none) :
      Placed store contents ufid data (.error .noFileIds) store contents
  | fits {blocks : List Block} (added : store.additions contents ufid data = some blocks)
      (room : store.free + blocks.length ≤ store.partition.blocks) :
      Placed store contents ufid data (.ok ()) (store.grown blocks.length)
        (contents.lay store.active store.free blocks)
  | tight {blocks : List Block} (added : store.additions contents ufid data = some blocks)
      (short : store.partition.blocks < store.free + blocks.length) :
      Placed store contents ufid data (.error .noSpace) store contents

/-- Whether what a save appends is more than is left, so that it rotates first. -/
def Turns (store : Store) (contents : Contents) (ufid : Ufid) (data : List UInt8) : Prop :=
  data.length ≤ maxFileSize ∧ ∃ blocks, store.additions contents ufid data = some blocks ∧
    store.partition.blocks < store.free + blocks.length

theorem Placed.active {store left : Store} {contents after : Contents} {ufid : Ufid} {data : List UInt8}
    {value : Except StoreError Unit} (placed : Placed store contents ufid data value left after) :
    left.active = store.active := by
  cases placed <;> rfl

/-- How a save ends: refused, placed at once, or placed or not after a rotation. -/
inductive Saved (store : Store) (contents : Contents) (ufid : Ufid) (data : List UInt8) :
    Except StoreError Unit → Store → Contents → Prop
  | large (size : maxFileSize < data.length) : Saved store contents ufid data (.error .tooLarge) store contents
  | atOnce (small : data.length ≤ maxFileSize) {value : Except StoreError Unit} {left : Store} {after : Contents}
      (placed : Placed store contents ufid data value left after) (enough : value ≠ .error .noSpace) :
      Saved store contents ufid data value left after
  | turned (small : data.length ≤ maxFileSize) {blocks : List Block}
      (added : store.additions contents ufid data = some blocks)
      (short : store.partition.blocks < store.free + blocks.length) {rotated left : Store} {between after : Contents}
      {value : Except StoreError Unit} (turn : store.Rotated ((store.tape contents).records [] 1) rotated between)
      (placed : Placed rotated between ufid data value left after) : Saved store contents ufid data value left after

/-- Where a save can be interrupted: while it appends, while it rotates, or while it appends after that. -/
inductive Saving (store : Store) (contents : Contents) (ufid : Ufid) (data : List UInt8) :
    Bool → Store → Contents → Prop
  | placing (small : data.length ≤ maxFileSize) (blocks : List Block)
      (added : store.additions contents ufid data = some blocks)
      (room : store.free + blocks.length ≤ store.partition.blocks) {torn : Bool} {left : Store} {current : Contents}
      (appending : Appending store contents blocks torn left current) :
      Saving store contents ufid data torn left current
  | turning (torn : Bool) {current : Contents}
      (rotating : store.Rotating contents ((store.tape contents).records [] 1) current) :
      Saving store contents ufid data torn store current
  | turned {rotated : Store} {between : Contents}
      (turn : store.Rotated ((store.tape contents).records [] 1) rotated between) :
      Saving store contents ufid data false rotated between
  | placingTurned (small : data.length ≤ maxFileSize) {rotated : Store} {between : Contents}
      (turn : store.Rotated ((store.tape contents).records [] 1) rotated between) (blocks : List Block)
      (added : rotated.additions between ufid data = some blocks)
      (room : rotated.free + blocks.length ≤ rotated.partition.blocks) {torn : Bool} {left : Store}
      {current : Contents} (appending : Appending rotated between blocks torn left current) :
      Saving store contents ufid data torn left current

end Store

namespace Partition

variable {cut : Bool → Store → Contents → Prop} {store : Store} {contents : Contents} {ufid : Ufid}
  {data : List UInt8}

/-- A save ends in one of the ways listed, or its rotation runs past the end of the other log while the active one is as
it was. It is interrupted only where listed. -/
theorem achieves_save_caught {result : Except StoreError (Except Violation Unit) → Store → Contents → Prop}
    (positive : 1 ≤ store.free) (room : store.free ≤ store.partition.blocks)
    (clear : ∀ position, store.free < position →
      contents store.active position = Block.blank store.partition.polarity)
    (taken : store.TakesFirst contents ufid data)
    (cuts : ∀ torn left current, store.Saving contents ufid data torn left current → cut torn left current)
    (short : store.Turns contents ufid data →
      store.partition.blocks < 1 + Record.weights (Record.live ((store.tape contents).records [] 1)) →
      ∀ current, current store.active = contents store.active → current.marked store.active.other = false →
      result (.ok (.error (.blockOutside store.partition.blocks))) store current)
    (next : ∀ value left after, store.Saved contents ufid data value left after →
      result (value.map .ok) left after) :
    store.partition.Achieves result cut (store.save ufid data).caught store contents := by
  have here : cut false store contents := cuts _ _ _ (.turning false (.early rfl (.inl rfl)))
  rw [Store.save]
  split
  · rename_i large
    exact Achieves.caught (achieves_fail here (next _ _ _ (.large large)))
  · rename_i small
    have small : data.length ≤ maxFileSize := by omega
    apply Achieves.then_caught
    apply achieves_place room small clear taken here
    · intro blocks added enough torn left current appending
      exact cuts torn left current (.placing small blocks added enough appending)
    · intro none
      exact next _ _ _ (.atOnce small (.full none) (by simp))
    · intro blocks added enough
      exact Achieves.caught (achieves_pure (cuts _ _ _ (.placing small blocks added enough (.finish _ _ _)))
        (next _ _ _ (.atOnce small (.fits added enough) (by simp))))
    · intro blocks needed tight
      apply Achieves.bind_caught
      apply achieves_rotate_caught rfl positive room
      · intro torn current rotating
        exact cuts torn store current (.turning torn rotating)
      · intro beyond current same unmarked
        exact ⟨cuts _ _ _ (.turning false (.early same (.inr unmarked))),
          short ⟨small, blocks, needed, tight⟩ beyond current same unmarked⟩
      · intro rotated after turn
        have settled := turn.settled
        have start : store.Saving contents ufid data false rotated after := .turned turn
        refine ⟨cuts _ _ _ start, Achieves.then_caught ?_⟩
        rw [← turn.partition]
        -- the content is placed once more, in the other log, and if it does not fit there it does not fit at all
        apply achieves_place turn.room small _ _ (cuts _ _ _ start)
        · intro blocks added enough torn left current appending
          exact cuts torn left current (.placingTurned small turn blocks added enough appending)
        · intro none
          exact next _ _ _ (.turned small needed tight turn (.full none))
        · intro blocks added enough
          have ended := cuts _ _ _ (.placingTurned small turn blocks added enough (.finish _ _ _))
          exact Achieves.caught (achieves_pure ended (next _ _ _ (.turned small needed tight turn (.fits added enough))))
        · intro blocks added still
          exact Achieves.caught
            (achieves_fail (cuts _ _ _ start) (next _ _ _ (.turned small needed tight turn (.tight added still))))
        · intro position late
          exact settled.clear position (Nat.le_of_lt late)
        · exact fun _ _ _ _ => Block.takes_of_blank (settled.clear rotated.free (Nat.le_refl _)) _

theorem achieves_save {result : Except StoreError Unit → Store → Contents → Prop} (positive : 1 ≤ store.free)
    (room : store.free ≤ store.partition.blocks) (unique : Record.Unique ((store.tape contents).records [] 1))
    (clear : ∀ position, store.free < position →
      contents store.active position = Block.blank store.partition.polarity)
    (taken : store.TakesFirst contents ufid data)
    (cuts : ∀ torn left current, store.Saving contents ufid data torn left current → cut torn left current)
    (next : ∀ value left after, store.Saved contents ufid data value left after → result value left after) :
    store.partition.Achieves result cut (store.save ufid data) store contents := by
  have fits := Store.live_fits rfl positive room unique
  apply Achieves.of_caught
  apply achieves_save_caught positive room clear taken cuts
  · intro _ beyond
    exact absurd fits (Nat.not_le.mpr beyond)
  · intro value left after saved
    have ended := next value left after saved
    cases value with
    | ok value => exact ended
    | error error => exact ended

/-- A save from a store in order always meets erased blocks. -/
theorem achieves_save_inOrder {result : Except StoreError Unit → Store → Contents → Prop} {scars : List Nat}
    {records : List Record} (inOrder : store.InOrder scars contents records)
    (harmless : (store.tape contents).Harmless scars)
    (cuts : ∀ torn left current, store.Saving contents ufid data torn left current → cut torn left current)
    (next : ∀ value left after, store.Saved contents ufid data value left after → result value left after) :
    store.partition.Achieves result cut (store.save ufid data) store contents := by
  have settled := inOrder.settled
  have unique := inOrder.unique
  rw [← inOrder.listed harmless] at unique
  refine achieves_save settled.positive inOrder.room unique ?_ ?_ cuts next
  · intro position late
    exact settled.clear position (Nat.le_of_lt late)
  · exact fun _ _ _ _ => Block.takes_of_blank (settled.clear store.free (Nat.le_refl _)) _

end Partition

namespace Store

/-- How a change carries a store over: in its active log, with that log's scars, or into the other log. -/
inductive Moved (store : Store) (contents : Contents) (scars : List Nat) : Store → Contents → List Nat → Prop
  | stays {left : Store} {after : Contents} (partition : left.partition = store.partition)
      (active : left.active = store.active) (stays : store.Stays contents after) :
      Moved store contents scars left after scars
  | turns {left : Store} {after : Contents} (partition : left.partition = store.partition)
      (active : left.active = store.active.other) (marked : after.marked left.active = true)
      (unmarked : after.marked store.active = false) : Moved store contents scars left after []

/-- A store in order that became another store in order, which has `files`. -/
inductive Becomes (store : Store) (scars : List Nat) (contents : Contents) (records : List Record) (left : Store)
    (after : Contents) (files : Files) : Prop
  | intro (scars' : List Nat) (kept : List Record) (moved : store.Moved contents scars left after scars')
      (inOrder : left.InOrder scars' after kept) (same : Record.files kept = files)
      (backed : Record.Backed records → Record.Backed kept) : Becomes store scars contents records left after files

variable {store left : Store} {scars : List Nat} {contents after : Contents} {records kept : List Record}
  {ufid : Ufid} {data : List UInt8}

theorem Becomes.unchanged (inOrder : store.InOrder scars contents records) :
    store.Becomes scars contents records store contents (Record.files records) :=
  .intro scars records (.stays rfl rfl ⟨rfl, rfl⟩) inOrder rfl id

theorem Trimmed.becomes (trimmed : store.Trimmed scars contents records after kept) :
    store.Becomes scars contents records store after (Record.files records) := by
  refine .intro scars kept (.stays rfl rfl trimmed.stays) trimmed.inOrder trimmed.files ?_
  intro backed binding member
  rw [trimmed.entries] at member
  rw [trimmed.files]
  exact backed binding member

theorem Rotated.inOrder (unique : Record.Unique records) (turn : store.Rotated records left after) :
    left.InOrder [] after (Record.live records) :=
  ⟨turn.settled, turn.room, unique.live⟩

theorem Rotated.becomes (inOrder : store.InOrder scars contents records) (turn : store.Rotated records left after) :
    store.Becomes scars contents records left after (Record.files records) :=
  .intro [] _ (.turns turn.partition turn.active turn.marked turn.unmarked) (turn.inOrder inOrder.unique)
    (Record.files_live inOrder.unique.ufids) (fun _ => Record.backed_live inOrder.unique)

/-- What is appended for a file sets it, whatever was left at the end of the log before. -/
theorem Becomes.lay (keeps : (store.tape contents).Keeps scars records) (unique : Record.Unique records)
    (harmless : (store.tape contents).Harmless scars)
    (clear : ∀ position, store.free < position →
      contents store.active position = Block.blank store.partition.polarity)
    (small : data.length ≤ maxFileSize) {blocks : List Block}
    (added : store.additions contents ufid data = some blocks)
    (room : store.free + blocks.length ≤ store.partition.blocks) :
    store.Becomes scars contents records (store.grown blocks.length) (contents.lay store.active store.free blocks)
      ((Record.files records).set ufid data) := by
  have positive : 1 ≤ store.free := keeps.positive
  have listed : (store.tape contents).records [] 1 = records := by
    rw [harmless.records (Nat.le_refl 1), keeps.listed]
  rw [additions, listed] at added
  obtain ⟨kept, settled, apart, files, backed⟩ := keeps.lay_additions unique clear small added
  refine .intro scars kept (.stays rfl rfl ⟨?_, ?_⟩) ⟨settled, room, apart⟩ files backed
  · exact Contents.lay_other _ _ store.active.other_ne
  · exact Contents.lay_apart _ _ (.inr (.inl positive))

theorem Placed.becomes (inOrder : store.InOrder scars contents records)
    (harmless : (store.tape contents).Harmless scars) (small : data.length ≤ maxFileSize)
    {value : Except StoreError Unit} (placed : store.Placed contents ufid data value left after) :
    (value = .ok () ∧ store.Becomes scars contents records left after ((Record.files records).set ufid data)) ∨
      ((value = .error .noSpace ∨ value = .error .noFileIds) ∧
        store.Becomes scars contents records left after (Record.files records)) := by
  cases placed with
  | full added => exact .inr ⟨.inr rfl, .unchanged inOrder⟩
  | fits added room =>
      exact .inl ⟨rfl, .lay inOrder.settled.toKeeps inOrder.unique harmless
        (fun position late => inOrder.settled.clear position (Nat.le_of_lt late)) small added room⟩
  | tight added short => exact .inr ⟨.inl rfl, .unchanged inOrder⟩

theorem Becomes.after_turn (inOrder : store.InOrder scars contents records) {rotated : Store} {between : Contents}
    (turn : store.Rotated records rotated between) {files : Files}
    (further : rotated.Becomes [] between (Record.live records) left after files)
    (active : left.active = rotated.active) :
    store.Becomes scars contents records left after files := by
  obtain ⟨scars', kept, moved, order, same, backed⟩ := further
  have live : Record.Backed records → Record.Backed kept :=
    fun _ => backed (Record.backed_live inOrder.unique)
  cases moved with
  | stays partition _ stays =>
      have other : rotated.active.other = store.active := by rw [turn.active, Log.other_other]
      refine .intro [] kept (.turns (partition.trans turn.partition) (active.trans turn.active) ?_ ?_) order same live
      · rw [active, ← turn.marked]
        exact Contents.marked_congr stays.marker
      · rw [← turn.unmarked, ← other]
        exact Contents.marked_congr (congrFun stays.other 0)
  | turns _ turned _ _ =>
      rw [active] at turned
      exact absurd turned.symm rotated.active.other_ne

/-- A save sets the file if it ends well, and changes no file otherwise. -/
theorem Saved.becomes (inOrder : store.InOrder scars contents records)
    (harmless : (store.tape contents).Harmless scars) {value : Except StoreError Unit}
    (saved : store.Saved contents ufid data value left after) :
    (value = .ok () ∧ store.Becomes scars contents records left after ((Record.files records).set ufid data)) ∨
      ((value = .error .tooLarge ∨ value = .error .noSpace ∨ value = .error .noFileIds) ∧
        store.Becomes scars contents records left after (Record.files records)) := by
  have listed := inOrder.listed harmless
  cases saved with
  | large size => exact .inr ⟨.inl rfl, .unchanged inOrder⟩
  | atOnce small placed enough =>
      rcases placed.becomes inOrder harmless small with ⟨done, becomes⟩ | ⟨failed, becomes⟩
      · exact .inl ⟨done, becomes⟩
      · exact .inr ⟨.inr failed, becomes⟩
  | turned small added short turn placed =>
      rw [listed] at turn
      have files := Record.files_live inOrder.unique.ufids
      have order := turn.inOrder inOrder.unique
      have active : left.active = _ := placed.active
      rcases placed.becomes order (Tape.harmless_nil _) small with ⟨done, becomes⟩ | ⟨failed, becomes⟩
      · rw [files] at becomes
        exact .inl ⟨done, becomes.after_turn inOrder turn active⟩
      · rw [files] at becomes
        exact .inr ⟨.inr failed, becomes.after_turn inOrder turn active⟩

end Store

end TwinLog
