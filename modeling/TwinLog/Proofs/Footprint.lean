import TwinLog.Proofs.Achieves
import TwinLog.Proofs.LocalMedium
import TwinLog.Proofs.Trace
import TwinLog.Proofs.Treading
import TwinLog.Session

set_option autoImplicit false

namespace TwinLog

open LawfulMedium

namespace Partition

def Outside (partition : Partition) (position : Nat) : Prop :=
  ∀ log, 4 * position + 4 ≤ (partition.geometry.base log).toNat ∨
    (partition.geometry.base log).toNat + partition.geometry.size.toNat ≤ 4 * position

variable {μ : Type} [Medium μ] [LawfulMedium μ] {partition : Partition} {medium after : μ}

theorem Outside.apart {position : Nat} (outside : partition.Outside position) (fits : partition.Fits medium)
    (log : Log) :
    position < partition.cellOf log 0 ∨ partition.cellOf log 0 + 8 * partition.blocks ≤ position := by
  have size := (Geometry.check_ok fits.checked).size
  have aligned := fits.aligned log
  have here := outside log
  have blocks : partition.blocks = partition.geometry.blocks := rfl
  simp only [cellOf]
  omega

theorem contents_elsewhere (fits : partition.Fits medium) {log : Log} {index count : Nat}
    (inside : index < partition.blocks) (short : count ≤ 8)
    (changed : ChangedIn medium after (partition.cellOf log index) count) {other : Log} {position : Nat}
    (apart : ¬ (other = log ∧ position = index)) :
    partition.contents after other position = partition.contents medium other position := by
  by_cases within : position < partition.blocks
  · apply Block.ext_getD
    intro offset small
    have cells := fits.cells_apart inside within apart
    rw [contents_inside other within small, contents_inside other within small, changed.cells _ (by omega)]
  · rw [contents_outside other (by omega), contents_outside other (by omega)]

end Partition

namespace Store

variable {μ : Type} [Medium μ] [LawfulMedium μ] {store : Store} {stage later : Stage} {before medium after : μ}

def KeptOrVoid (store : Store) (before after : Block) : Prop :=
  after = before ∨ after = before.overlay [store.partition.polarity.voidWord]

/-- What an operation of a store that has come to a stage may have made of a medium. -/
structure Trodden (store : Store) (stage : Stage) (before after : μ) : Prop where
  fits : store.partition.Fits after
  outside : ∀ position, store.partition.Outside position → cell after position = cell before position
  written : ∀ index < store.free, store.KeptOrVoid (store.partition.contents before store.active index)
    (store.partition.contents after store.active index)
  spared : ∀ free, stage = .appending free → store.free ≤ free ∧
    (∀ index, store.partition.contents after store.active.other index =
      store.partition.contents before store.active.other index) ∧
    ∀ index, free ≤ index →
      store.partition.contents after store.active index = store.partition.contents before store.active index

theorem Trodden.start (fits : store.partition.Fits medium) : store.Trodden (.appending store.free) medium medium where
  fits := fits
  outside := fun _ _ => rfl
  written := fun _ _ => .inl rfl
  spared := fun free same => by cases same; exact ⟨Nat.le_refl _, fun _ => rfl, fun _ _ => rfl⟩

theorem KeptOrVoid.trans {first second third : Block} (earlier : store.KeptOrVoid first second)
    (later : store.KeptOrVoid second third) : store.KeptOrVoid first third := by
  rcases later with rfl | rfl
  · exact earlier
  · rcases earlier with rfl | rfl
    · exact .inr rfl
    · exact .inr (Block.overlay_overlay _ rfl)

theorem Trodden.erase (trodden : store.Trodden stage before medium) :
    ∃ address after, store.partition.address store.active.other 0 = .ok address ∧
      Medium.erase medium address (UInt32.ofNat (Block.wordCount * store.partition.blocks)) = (.ok (), after) ∧
      store.Trodden .turned before after := by
  obtain ⟨address, after, located, ran, fits, shown, elsewhere⟩ := trodden.fits.erased store.active.other
  refine ⟨address, after, located, ran, fits, ?_, ?_, ?_⟩
  · intro position outside
    rw [elsewhere position (outside.apart trodden.fits _)]
    exact trodden.outside position outside
  · intro index old
    rw [shown, Contents.wiped, if_neg (Log.other_ne _).symm]
    exact trodden.written index old
  · intro free same
    cases same

theorem Programs.short {log : Log} {index : Nat} {words : List Word}
    (programs : store.Programs stage log index words later) : words.length ≤ 8 := by
  cases programs with
  | void old => simp
  | append block => exact Nat.le_of_eq block.length_toList
  | copy short => exact short

/-- Making a block void leaves it as it was where nothing of it is put down. -/
theorem void_keptOrVoid (fits : store.partition.Fits medium) {index : Nat} {address : Address}
    (located : store.partition.address store.active index = .ok address) (kept : Nat) :
    store.KeptOrVoid (store.partition.contents medium store.active index)
      (store.partition.contents
        (Medium.write medium address ([store.partition.polarity.voidWord].take kept) false).2 store.active index) := by
  have short : ([store.partition.polarity.voidWord].take kept).length ≤ 8 := by
    rw [List.length_take, List.length_singleton]
    omega
  obtain ⟨after, ran, -, shown⟩ := fits.programmed located
    ([store.partition.polarity.voidWord].take kept) short (by
      intro position within
      rw [List.length_take, List.length_singleton] at within
      have first : position = 0 := by omega
      subst first
      rw [List.getElem_take]
      exact store.partition.polarity.canProgram_programmed _)
  rw [ran, shown, Contents.put_same]
  cases kept with
  | zero => exact .inl (Block.overlay_nil _)
  | succ kept =>
      rw [List.take_succ_cons, List.take_nil]
      exact .inr rfl

section Local

variable {μ : Type} [Medium μ] [LocalMedium μ] {before medium : μ}

/-- Words that may be programmed change what may change, also where only some of them are put down. -/
theorem Trodden.write (trodden : store.Trodden stage before medium) {log : Log} {index : Nat} {words : List Word}
    {address : Address} (located : store.partition.address log index = .ok address)
    (programs : store.Programs stage log index words later) (kept : Nat) :
    store.Trodden later before (Medium.write medium address (words.take kept) false).2 := by
  have fits := trodden.fits
  obtain ⟨inside, aligned, first, room⟩ := fits.located located
  have short := programs.short
  have shorter : (words.take kept).length ≤ 8 := by
    rw [List.length_take]
    omega
  have changed := @LocalMedium.write_local μ _ _ medium address (words.take kept) fits.sound aligned (by omega)
  rw [first] at changed
  have fits' := fits.preserved changed.sound changed.polarity changed.pageSize changed.cellCount
  have elsewhere {other : Log} {position : Nat} (apart : ¬ (other = log ∧ position = index)) :=
    Partition.contents_elsewhere fits inside shorter changed apart
  have outside (position : Nat) (out : store.partition.Outside position) :
      cell (Medium.write medium address (words.take kept) false).2 position = cell before position := by
    have apart := out.apart fits log
    have start : store.partition.cellOf log index = store.partition.cellOf log 0 + 8 * index := by
      simp only [Partition.cellOf]
      omega
    rw [changed.cells position (by omega)]
    exact trodden.outside position out
  have other_ne := Log.other_ne store.active
  -- a written block is made void, the next one appended, or one of the other log written
  cases programs with
  | @void _ _ old =>
      refine ⟨fits', outside, ?_, ?_⟩
      · intro position written
        by_cases here : position = index
        · subst here
          exact (trodden.written position written).trans (void_keptOrVoid fits located kept)
        · rw [elsewhere (fun same => here same.2)]
          exact trodden.written position written
      · intro free same
        subst same
        obtain ⟨grown, spared, clear⟩ := trodden.spared free rfl
        refine ⟨grown, ?_, ?_⟩
        · intro position
          rw [elsewhere (fun same => other_ne same.1)]
          exact spared position
        · intro position beyond
          have earlier : index < store.free := old
          rw [elsewhere (fun same => by omega)]
          exact clear position beyond
  | @append _ block =>
      obtain ⟨grown, spared, clear⟩ := trodden.spared index rfl
      refine ⟨fits', outside, ?_, ?_⟩
      · intro position written
        rw [elsewhere (fun same => by omega)]
        exact trodden.written position written
      · intro free same
        cases same
        refine ⟨by omega, ?_, ?_⟩
        · intro position
          rw [elsewhere (fun same => other_ne same.1)]
          exact spared position
        · intro position beyond
          rw [elsewhere (fun same => by omega)]
          exact clear position (by omega)
  | copy _ =>
      refine ⟨fits', outside, ?_, ?_⟩
      · intro position written
        rw [elsewhere (fun same => other_ne same.1.symm)]
        exact trodden.written position written
      · intro free same
        cases same

/-- What is left mounted on what an operation has made of the medium. The store does not know of a block whose write
failed. -/
structure Ended {σ α : Type} (store : Store) (mounted : σ → Store) (before : μ) (outcome : Outcome σ μ α)
    (stage : Stage) : Prop where
  trodden : store.Trodden stage before outcome.medium
  leaves : store.Leaves stage (mounted outcome.state) ∨ outcome.Broken ∧
    ∃ free, stage = .appending (free + 1) ∧ store.free ≤ free ∧ store.Leaves (.appending free) (mounted outcome.state)

/-- An operation that makes no other calls than it may changes no more than it may, whichever of its calls fails. -/
theorem Trodden.runFailing {σ α : Type} {mounted : σ → Store} {script : Script σ α} {state : σ}
    (treads : script.Treads store mounted (fun _ stage state => store.Leaves stage (mounted state)) stage state)
    (trodden : store.Trodden stage before medium) (error : MediumError) (kept index : Nat) :
    ∃ last, store.Ended mounted before (script.runFailing error kept index state medium) last ∧
      (stage ≠ .turned → (∀ call ∈ (script.trace medium).take index, call.erases = false) → last ≠ .turned) := by
  induction script generalizing stage state medium index with
  | done value => exact ⟨stage, ⟨trodden, .inl treads⟩, fun early _ => early⟩
  | stop reason => exact ⟨stage, ⟨trodden, .inl treads⟩, fun early _ => early⟩
  | keep later rest ih => exact ih treads trodden index
  | read address count rest ih =>
      obtain ⟨leaves, ⟨log, block, located, short⟩, next⟩ := treads
      cases index with
      | zero => exact ⟨stage, ⟨trodden, .inl leaves⟩, fun early _ => early⟩
      | succ index =>
          have fits := trodden.fits
          obtain ⟨-, aligned, first, room⟩ := fits.located located
          have passed := @read_inside μ _ _ medium address count fits.sound aligned (by omega)
          simp only [Script.runFailing, Script.trace, passed]
          obtain ⟨last, ended, early⟩ := ih _ (next _) trodden index
          refine ⟨last, ended, fun before none => early before ?_⟩
          exact fun call member => none call (List.mem_cons_of_mem _ member)
  | write address words rest ih =>
      obtain ⟨leaves, log, block, after, located, programs, next⟩ := treads
      have written := trodden.write located programs
      have stays : stage ≠ .turned → after ≠ .turned := mt programs.turned.mp
      -- the write fails: the store does not know of the block that it appended
      have broken (outcome : Outcome σ μ α) (reason : Stop MediumError)
          (failed : outcome.result = .error (.ofMedium reason)) (same : outcome.state = state)
          (there : store.Trodden after before outcome.medium) :
          store.Ended mounted before outcome after := by
        refine ⟨there, ?_⟩
        rw [same]
        cases programs with
        | void old => exact .inl leaves
        | append block => exact .inr ⟨⟨reason, failed⟩, _, rfl, (trodden.spared _ rfl).1, leaves⟩
        | copy short => exact .inl trivial
      cases index with
      | zero =>
          have there := written kept
          simp only [Script.runFailing]
          cases ran : Medium.write medium address (words.take kept) false with
          | mk passed between =>
              rw [ran] at there
              cases passed with
              | ok => exact ⟨after, broken _ (.error error) rfl rfl there, fun early _ => stays early⟩
              | error reason => exact ⟨after, broken _ reason rfl rfl there, fun early _ => stays early⟩
      | succ index =>
          have there := written words.length
          rw [List.take_length] at there
          cases ran : Medium.write medium address words false with
          | mk passed between =>
              rw [ran] at there
              simp only [Script.runFailing, Script.trace, ran]
              cases passed with
              | ok =>
                  obtain ⟨last, ended, early⟩ := ih next there index
                  refine ⟨last, ended, fun before none => early (stays before) ?_⟩
                  exact fun call member => none call (List.mem_cons_of_mem _ member)
              | error reason => exact ⟨after, broken _ reason rfl rfl there, fun early _ => stays early⟩
  | erase address count rest ih =>
      obtain ⟨leaves, early, located, rfl, next⟩ := treads
      cases index with
      | zero => exact ⟨stage, ⟨trodden, .inl leaves⟩, fun early _ => early⟩
      | succ index =>
          obtain ⟨_, after, also, passed, there⟩ := trodden.erase
          rw [located] at also
          cases also
          simp only [Script.runFailing, Script.trace, passed]
          obtain ⟨last, ended, -⟩ := ih next there index
          refine ⟨last, ended, fun _ none => ?_⟩
          have erases := none (.erase address (UInt32.ofNat (Block.wordCount * store.partition.blocks)))
            (List.mem_cons_self ..)
          cases erases

end Local

/-- What an operation of `store` that leaves `left` mounted has changed on the medium. Of the blocks at the end of the
active log it has appended those up to the end that `left` knows, and one more may be there in part if it broke off. -/
structure Footprint (store left : Store) (before after : μ) (turned broken : Prop) : Prop where
  /-- No cell outside of the two logs changes. -/
  outside : ∀ position, store.partition.Outside position → cell after position = cell before position
  /-- A block that was written stays as it is, but that it may be made void. -/
  written : ∀ index < store.free, store.KeptOrVoid (store.partition.contents before store.active index)
    (store.partition.contents after store.active index)
  /-- Without a turn the other log stays as it is. -/
  spared : ¬ turned → ∀ index, store.partition.contents after store.active.other index =
    store.partition.contents before store.active.other index
  /-- Without a turn the active log changes in no block behind those that were appended. -/
  appended : ¬ turned → left = { store with free := left.free } ∧ store.free ≤ left.free ∧
    ∀ index, left.free < index ∨ left.free = index ∧ ¬ broken →
      store.partition.contents after store.active index = store.partition.contents before store.active index

end Store

/-- An operation of a mounted store: its script, the state that the script starts with, and the store that such a state
leaves mounted. -/
structure Operation where
  State : Type
  Value : Type
  script : Script State Value
  start : State
  mounted : State → Store

def Store.operation (store : Store) : Request → Option Operation
  | .mount _ => none
  | .save ufid data => some ⟨Store, Unit, store.save ufid data, store, fun left => left⟩
  | .remove ufid => some ⟨Store, Unit, store.remove ufid, store, fun left => left⟩
  | .rotate => some ⟨Store, Store, store.rotate, store, fun left => left⟩
  | .size ufid => some ⟨Store, Nat, store.size ufid, store, fun left => left⟩
  | .contains ufid => some ⟨Store, Bool, store.contains ufid, store, fun left => left⟩
  | .readAll ufid => some ⟨Store, List UInt8, store.readAll ufid, store, fun left => left⟩
  | .readInto ufid buffer => some ⟨List UInt8, Nat, store.readInto ufid buffer, buffer, fun _ => store⟩
  | .usage => some ⟨Store, Usage, return store.usage, store, fun left => left⟩
  | .saveValue ufid payload => some ⟨Store, Unit, store.saveValue ufid payload, store, fun left => left⟩
  | .loadValue ufid shape => some ⟨Store, shape.Value, store.loadValue ufid shape, store, fun left => left⟩

theorem Store.operation_treads {store : Store} {request : Request} {operation : Operation}
    (made : store.operation request = some operation) :
    operation.script.Treads store operation.mounted (fun _ stage state => store.Leaves stage (operation.mounted state))
      (.appending store.free) operation.start := by
  have leaves : store.Leaves (.appending store.free) store := rfl
  cases request with
  | mount geometry => cases made
  | usage => cases made; exact leaves
  | save ufid data => cases made; exact treads_save ufid data leaves fun _ _ leaves => leaves
  | remove ufid => cases made; exact treads_remove leaves ufid leaves
  | rotate => cases made; exact treads_rotate leaves (fun same => by cases same) fun _ follows => follows.leaves
  | size ufid => cases made; exact treads_size leaves ufid fun _ => leaves
  | contains ufid => cases made; exact treads_contains leaves ufid fun _ => leaves
  | readAll ufid => cases made; exact treads_readAll leaves ufid fun _ _ leaves => leaves
  | readInto ufid buffer => cases made; exact treads_readInto ufid buffer fun _ _ => leaves
  | saveValue ufid payload => cases made; exact treads_saveValue ufid payload leaves fun _ _ leaves => leaves
  | loadValue ufid shape => cases made; exact treads_loadValue leaves ufid fun _ _ leaves => leaves

namespace Session

theorem change_session {μ α : Type} [Medium μ] (session : Session μ) (store : Store) (script : Script Store α)
    (answer : α → Answer) :
    (session.change store script answer).2 =
      ⟨(script.run store session.medium).medium, some (script.run store session.medium).state⟩ := by
  unfold change
  split <;> rename_i ran <;> rw [ran]

theorem copy_session {μ : Type} [Medium μ] (session : Session μ) (store : Store) (ufid : Ufid) (buffer : List UInt8) :
    (session.copy store ufid buffer).2 =
      ⟨((store.readInto ufid buffer).run buffer session.medium).medium, some store⟩ := by
  unfold copy
  split <;> rename_i ran <;> rw [ran]

theorem perform_operation {μ : Type} [Medium μ] {session : Session μ} {store : Store} {request : Request}
    {operation : Operation} (mounted : session.store = some store)
    (made : store.operation request = some operation) :
    (session.perform request).2 = ⟨(operation.script.run operation.start session.medium).medium,
      some (operation.mounted (operation.script.run operation.start session.medium).state)⟩ := by
  obtain ⟨medium, known⟩ := session
  simp only at mounted
  subst mounted
  cases request with
  | mount geometry => cases made
  | usage => cases made; rfl
  | readInto ufid buffer => cases made; exact copy_session _ _ _ _
  | _ => cases made; exact change_session _ _ _ _

/-- The footprint of a request. Whatever the medium holds, and whether the operation of a mounted store comes to its end
or one of its medium calls fails, no cell outside of the two logs changes; in the log that was active every block before
its end keeps every word, but that it may be made void; and if the operation erases no log, then the other log keeps
every word, and the active log changes in no block but those that were appended, the last of them in part if its write
failed. -/
theorem operation_footprint {μ : Type} [Medium μ] [LocalMedium μ] {session : Session μ} {store : Store}
    (mounted : session.store = some store) (fits : store.partition.Fits session.medium) {request : Request}
    {operation : Operation} (made : store.operation request = some operation) (failure : Option Failure) :
    let outcome := operation.script.attempt failure operation.start session.medium
    (failure = none → (session.perform request).2 = ⟨outcome.medium, some (operation.mounted outcome.state)⟩) ∧
      store.Footprint (operation.mounted outcome.state) session.medium outcome.medium
        (∃ call ∈ operation.script.passed failure session.medium, call.erases = true) outcome.Broken := by
  intro outcome
  refine ⟨?_, ?_⟩
  · rintro rfl
    exact perform_operation mounted made
  -- an operation in which no call fails is one in which a call after the last one does
  obtain ⟨error, kept, index, ran, passed⟩ : ∃ error kept index,
      operation.script.runFailing error kept index operation.start session.medium = outcome ∧
      operation.script.passed failure session.medium = (operation.script.trace session.medium).take index := by
    cases failure with
    | some failure => exact ⟨failure.error, failure.kept, failure.index, rfl, rfl⟩
    | none =>
        refine ⟨.device, 0, operation.script.calls session.medium,
          Script.runFailing_of_calls _ _ (Nat.le_refl _), ?_⟩
        rw [← Script.length_trace, List.take_length]
        rfl
  obtain ⟨last, ended, early⟩ := Store.Trodden.runFailing (Store.operation_treads made) (Store.Trodden.start fits) error
    kept index
  rw [ran] at ended
  have straight (unturned : ¬ ∃ call ∈ operation.script.passed failure session.medium, call.erases = true) :
      ∃ free, last = .appending free := by
    have none := early (fun same => by cases same) (by
      intro call member
      rw [← passed] at member
      exact Bool.eq_false_iff.mpr fun erases => unturned ⟨call, member, erases⟩)
    cases last with
    | appending free => exact ⟨free, rfl⟩
    | turned => exact absurd rfl none
  refine ⟨ended.trodden.outside, ended.trodden.written, ?_, ?_⟩
  · intro unturned
    obtain ⟨free, rfl⟩ := straight unturned
    exact (ended.trodden.spared free rfl).2.1
  · intro unturned
    obtain ⟨free, rfl⟩ := straight unturned
    obtain ⟨grown, -, clear⟩ := ended.trodden.spared free rfl
    rcases ended.leaves with left | ⟨broke, known, same, old, left⟩
    · rw [show operation.mounted outcome.state = { store with free } from left]
      refine ⟨rfl, grown, fun index beyond => clear index ?_⟩
      rcases beyond with further | ⟨here, _⟩
      · exact Nat.le_of_lt further
      · exact Nat.le_of_eq here
    · cases same
      rw [show operation.mounted outcome.state = { store with free := known } from left]
      refine ⟨rfl, old, fun index beyond => clear index ?_⟩
      rcases beyond with further | ⟨_, whole⟩
      · exact further
      · exact absurd broke whole

section TornChain

set_option maxRecDepth 8192

def cleared : Simulated :=
  ⟨.ones, 128, Array.replicate 64 0xFFFFFFFF⟩

/-- A save on such a medium of which three words of the chain are there: it has appended the entry and part of one
block more. -/
theorem operation_footprint_tornChain :
    Partition.Fits ⟨.ones, ⟨0, 128, 128⟩⟩ cleared ∧
      let store : Store := ⟨⟨.ones, ⟨0, 128, 128⟩⟩, .a, 1⟩
      let outcome := (store.save (Vector.replicate 12 7) [1]).attempt (some ⟨.device, 3, 1⟩) store cleared
      outcome.state.free = 2 ∧
        store.Footprint outcome.state cleared outcome.medium
          (∃ call ∈ (store.save (Vector.replicate 12 7) [1]).passed (some ⟨.device, 3, 1⟩) cleared, call.erases = true)
          outcome.Broken := by
  have fits : Partition.Fits ⟨.ones, ⟨0, 128, 128⟩⟩ cleared := by
    refine Partition.Fits.simulated rfl rfl rfl ?_
    intro log
    cases log <;> decide
  refine ⟨fits, by decide +kernel, ?_⟩
  exact (@operation_footprint Simulated _ _ ⟨cleared, some ⟨⟨.ones, ⟨0, 128, 128⟩⟩, .a, 1⟩⟩ _ rfl fits
    (.save (Vector.replicate 12 7) [1]) _ rfl (some ⟨.device, 3, 1⟩)).2

end TornChain

end Session

end TwinLog
