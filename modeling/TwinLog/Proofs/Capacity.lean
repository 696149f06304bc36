import Mathlib.Algebra.GroupWithZero.Nat
import Mathlib.Data.Fintype.Card
import TwinLog.Proofs.MapRefinement
import TwinLog.Proofs.Trace
import TwinLog.Proofs.Treading

set_option autoImplicit false

namespace TwinLog

namespace Files

/-- Whether `names` are the identifiers of the files, each once. -/
structure Listed (files : Files) (names : List Ufid) : Prop where
  nodup : names.Nodup
  mem : ∀ ufid, ufid ∈ names ↔ (files ufid).isSome = true

def weight (files : Files) (ufid : Ufid) : Nat :=
  match files ufid with
  | none => 0
  | some data => 1 + blocksNeeded data.length

def weights (files : Files) (names : List Ufid) : Nat :=
  (names.map files.weight).sum

/-- The number of blocks that are appended to give a file this content. -/
def needed (files : Files) (ufid : Ufid) (data : List UInt8) : Nat :=
  blocksNeeded data.length + if (files ufid).isSome then 0 else 1

/-- Whether a file is to be added to as many files as there are ids. -/
def Crowded (names : List Ufid) (ufid : Ufid) : Prop :=
  ufid ∉ names ∧ names.length = FileId.count

instance (names : List Ufid) (ufid : Ufid) : Decidable (Crowded names ufid) :=
  inferInstanceAs (Decidable (_ ∧ _))

/-- How a save ends in a log that has `total` blocks for entries and content. -/
def saved (files : Files) (names : List Ufid) (total : Nat) (ufid : Ufid) (data : List UInt8) :
    Except StoreError Unit :=
  if Crowded names ufid then .error .noFileIds
  else if files.weights names + files.needed ufid data ≤ total then .ok ()
  else .error .noSpace

/-- Whether a save compacts a log that has `free` blocks left. -/
def Turns (files : Files) (names : List Ufid) (free : Nat) (ufid : Ufid) (data : List UInt8) : Prop :=
  ¬ Crowded names ufid ∧ free < files.needed ufid data

instance (files : Files) (names : List Ufid) (free : Nat) (ufid : Ufid) (data : List UInt8) :
    Decidable (files.Turns names free ufid data) :=
  inferInstanceAs (Decidable (_ ∧ _))

end Files

/-- What a save leaves of a store that has `files`: which log is active, and how many of its blocks are in use. -/
structure Store.Counted (store : Store) (files : Files) (names : List Ufid) (ufid : Ufid) (data : List UInt8)
    (left : Store) : Prop where
  active : left.active = if files.Turns names store.usage.free ufid data then store.active.other else store.active
  used : left.free - 1 =
    (if files.Turns names store.usage.free ufid data then files.weights names else store.free - 1) +
      if files.saved names store.usage.total ufid data = .ok () then files.needed ufid data else 0

theorem FileId.lowestUnused_none {used : List FileId} (apart : used.Nodup) :
    lowestUnused used = none ↔ used.length = count := by
  rw [lowestUnused_eq_none_iff, ← List.toFinset_card_of_nodup apart,
    show count = Fintype.card FileId from (Fintype.card_fin 64).symm, Finset.card_eq_iff_eq_univ,
    Finset.eq_univ_iff_forall]
  simp only [List.mem_toFinset]

namespace Record

variable {record : Record} {records rest : List Record} {ufid : Ufid} {data : List UInt8}

def names (records : List Record) : List Ufid :=
  (entries records).map Prod.snd

theorem Backed.tail (backed : Backed (record :: rest)) (unique : Unique (record :: rest)) : Backed rest := by
  intro binding member
  cases record with
  | content id data => exact backed binding member
  | entry id name =>
      have present := backed binding (List.mem_cons_of_mem _ member)
      have ufids := unique.ufids
      rw [entries, List.map_cons, List.nodup_cons] at ufids
      have apart : name ≠ binding.2 := by
        intro same
        exact ufids.1 (List.mem_map.mpr ⟨binding, member, same.symm⟩)
      rw [files, if_neg apart] at present
      exact present

theorem Backed.head {id : FileId} (backed : Backed (entry id ufid :: rest)) : ∃ data, latest id rest = some data := by
  have present := backed (id, ufid) List.mem_cons_self
  rw [files, if_pos rfl] at present
  exact Option.isSome_iff_exists.mp present

theorem entries_live_of_backed (unique : Unique records) (backed : Backed records) :
    entries (live records) = entries records := by
  induction records with
  | nil => rfl
  | cons record rest ih =>
      have later := ih unique.tail (backed.tail unique)
      cases record with
      | content id data => exact later
      | entry id name =>
          obtain ⟨data, found⟩ := backed.head
          simp only [live, found, entries, later]

/-- Where every entry has content, the entries are those of the files. -/
theorem listed_files (unique : Unique records) (backed : Backed records) : (files records).Listed (names records) := by
  refine ⟨unique.ufids, fun ufid => ⟨?_, ?_⟩⟩
  · intro member
    obtain ⟨binding, present, rfl⟩ := List.mem_map.mp member
    exact backed binding present
  · intro present
    by_contra absent
    rw [files_absent absent] at present
    cases present

theorem weights_files (unique : Unique records) (backed : Backed records) :
    weights (live records) = (files records).weights (names records) := by
  induction records with
  | nil => rfl
  | cons record rest ih =>
      have later := ih unique.tail (backed.tail unique)
      cases record with
      | content id data => exact later
      | entry id name =>
          obtain ⟨data, found⟩ := backed.head
          have ufids := unique.ufids
          rw [entries, List.map_cons, List.nodup_cons] at ufids
          have first : (files (entry id name :: rest)).weight name = 1 + blocksNeeded data.length := by
            rw [Files.weight, files, if_pos rfl, found]
          have others : (names rest).map (files (entry id name :: rest)).weight =
              (names rest).map (files rest).weight := by
            apply List.map_congr_left
            intro other member
            have apart : name ≠ other := fun same => ufids.1 (same ▸ member)
            rw [Files.weight, Files.weight, files, if_neg apart]
          have listed : names (entry id name :: rest) = name :: names rest := rfl
          simp only [live, found, weights, weight]
          rw [listed, Files.weights, List.map_cons, List.sum_cons, first, others, later, Files.weights]
          omega

/-- A file has an id if and only if it has content. -/
theorem owner?_isSome (unique : Unique records) (backed : Backed records) (ufid : Ufid) :
    (owner? records ufid).isSome = (files records ufid).isSome := by
  have listed := (listed_files unique backed).mem ufid
  cases owner : owner? records ufid with
  | none =>
      have absent : ufid ∉ names records := owner?_none owner
      rw [listed] at absent
      simpa using absent
  | some id =>
      have member : ufid ∈ names records := List.mem_map.mpr ⟨_, owner?_some owner, rfl⟩
      exact (listed.mp member).symm

theorem additions_none (unique : Unique records) {polarity : Polarity} :
    additions polarity records ufid data = none ↔ Files.Crowded (names records) ufid := by
  have length : (names records).length = ((entries records).map Prod.fst).length := by
    rw [names, List.length_map, List.length_map]
  rw [additions, Files.Crowded, length, ← FileId.lowestUnused_none unique.ids]
  cases owner : owner? records ufid with
  | none =>
      have absent : ufid ∉ names records := owner?_none owner
      simp [absent]
  | some id =>
      have member : ufid ∈ names records := List.mem_map.mpr ⟨_, owner?_some owner, rfl⟩
      simp [member]

theorem length_additions (unique : Unique records) (backed : Backed records) {polarity : Polarity}
    {blocks : List Block} (added : additions polarity records ufid data = some blocks) :
    blocks.length = (files records).needed ufid data := by
  have known := owner?_isSome unique backed ufid
  rw [additions] at added
  rw [Files.needed, ← known]
  cases owner : owner? records ufid with
  | none =>
      rw [owner, Option.map_eq_some_iff] at added
      obtain ⟨id, -, rfl⟩ := added
      rw [List.length_cons, Chain.length_fresh]
      rfl
  | some id =>
      rw [owner, Option.some.injEq] at added
      rw [← added, Chain.length_fresh]
      rfl

end Record

namespace Script

variable {σ α β : Type} {store : Store} {mounted : σ → Store} {stage : Stage} {state : σ} {μ : Type} [Medium μ]

def erases (script : Script σ α) (medium : μ) : Nat :=
  (script.trace medium).countP Call.erases

/-- An operation of a store erases at most once, and not after that. -/
theorem Treads.erases_le {ends : α → Stage → σ → Prop} {script : Script σ α}
    (treads : Treads store mounted ends script stage state) (medium : μ) :
    script.erases medium ≤ if stage = .turned then 0 else 1 := by
  unfold erases
  induction script generalizing stage state medium with
  | done value => exact Nat.zero_le _
  | stop reason => exact Nat.zero_le _
  | keep kept rest ih => exact ih treads medium
  | read address count rest ih =>
      rw [trace, List.countP_cons_of_neg (by simp [Call.erases])]
      rcases Medium.read medium address count with ⟨⟨words, _ | reason⟩, after⟩
      · exact ih words (treads.2.2 words) after
      · exact Nat.zero_le _
  | write address words rest ih =>
      obtain ⟨-, log, index, stage', -, programs, later⟩ := treads
      rw [trace, List.countP_cons_of_neg (by simp [Call.erases])]
      rcases Medium.write medium address words false with ⟨_ | _, after⟩
      · exact Nat.zero_le _
      · have fewer := ih later after
        simp only [programs.turned] at fewer
        exact fewer
  | erase address count rest ih =>
      obtain ⟨-, early, -, -, later⟩ := treads
      rw [trace, List.countP_cons_of_pos rfl, if_neg early]
      rcases Medium.erase medium address count with ⟨_ | _, after⟩
      · exact Nat.le_refl _
      · have none := ih later after
        rw [if_pos rfl] at none
        exact Nat.succ_le_succ none

theorem erases_bind (script : Script σ α) (next : α → Script σ β) (state : σ) (medium : μ) :
    (script >>= next).erases medium = script.erases medium +
      match script.run state medium with
      | ⟨.ok value, _, after⟩ => (next value).erases after
      | ⟨.error _, _, _⟩ => 0 := by
  rw [erases, trace_bind script next state medium, List.countP_append]
  congr 1
  rcases script.run state medium with ⟨_ | value, left, after⟩ <;> rfl

end Script

namespace Store

variable {store left : Store} {contents after : Contents} {records : List Record} {ufid : Ufid} {data : List UInt8}
  {μ : Type} [Medium μ] {medium : μ}

theorem erases_place (store : Store) (ufid : Ufid) (data : List UInt8) (medium : μ) :
    (store.place ufid data).erases medium = 0 := by
  -- for the store of the other log, the one that places is turned already
  have follows : Follows ⟨store.partition, store.active.other, store.free⟩ .turned store :=
    ⟨rfl, store.active.other_other.symm⟩
  have treads : Script.Treads ⟨store.partition, store.active.other, store.free⟩ (fun left => left)
      (fun _ _ _ => True) (store.place ufid data) .turned store :=
    treads_place follows trivial ufid data (fun _ _ _ _ _ => trivial)
  exact Nat.le_zero.mp (treads.erases_le medium)

theorem erases_rotate [LawfulMedium μ] (fits : store.partition.Fits medium) (between : μ) :
    0 < store.rotate.erases between := by
  obtain ⟨address, -, located, -⟩ := fits.erased store.active.other
  rw [rotate, Partition.wipe, located]
  change 0 < List.countP Call.erases (.erase address (UInt32.ofNat (Block.wordCount * store.partition.blocks)) :: _)
  rw [List.countP_cons_of_pos rfl]
  exact Nat.succ_pos _

theorem erases_save_placed (small : data.length ≤ maxFileSize) {value : Except (Stop StoreError) Bool} {between : μ}
    (ran : (store.place ufid data).run store medium = ⟨value, left, between⟩) (enough : value ≠ .ok false) :
    (store.save ufid data).erases medium = 0 := by
  rw [save, if_neg (Nat.not_lt.mpr small), Script.erases_bind _ _ store, ran, erases_place]
  cases value with
  | error reason => rfl
  | ok placed =>
      cases placed with
      | false => exact absurd rfl enough
      | true => rfl

theorem erases_save_turned [LawfulMedium μ] (fits : store.partition.Fits medium) (small : data.length ≤ maxFileSize)
    {between : μ} (ran : (store.place ufid data).run store medium = ⟨.ok false, left, between⟩) :
    (store.save ufid data).erases medium = 1 := by
  have treads : Script.Treads store (fun left => left) (fun _ _ _ => True) (store.save ufid data)
      (.appending store.free) store :=
    treads_save ufid data rfl (fun _ _ _ => trivial)
  have most := treads.erases_le medium
  have least : 0 < (store.save ufid data).erases medium := by
    have rotates := erases_rotate fits between
    rw [save, if_neg (Nat.not_lt.mpr small), Script.erases_bind _ _ store, ran, erases_place]
    simp only
    rw [if_neg (by simp), Script.erases_bind _ _ left]
    omega
  rw [if_neg (by simp)] at most
  omega

/-- Whether a store is in order and what its log has entries of are these files. -/
structure Holds (store : Store) (contents : Contents) (records : List Record) (files : Files) (names : List Ufid) :
    Prop where
  inOrder : store.InOrder [] contents records
  backed : Record.Backed records
  content : Record.files records = files
  named : Record.names records = names

section Accounts

variable {files : Files} {names : List Ufid} (holds : store.Holds contents records files names)
include holds

theorem Holds.listed : files.Listed names := by
  rw [← holds.content, ← holds.named]
  exact Record.listed_files holds.inOrder.unique holds.backed

theorem Holds.weights : Record.weights (Record.live records) = files.weights names := by
  rw [← holds.content, ← holds.named]
  exact Record.weights_files holds.inOrder.unique holds.backed

theorem Holds.weights_le : 1 + files.weights names ≤ store.free := by
  rw [← holds.weights]
  exact live_short (holds.inOrder.listed (Tape.harmless_nil _)) holds.inOrder.settled.positive
    holds.inOrder.unique.live.ids

theorem Holds.crowded (none : store.additions contents ufid data = none) : Files.Crowded names ufid := by
  rw [additions, holds.inOrder.listed (Tape.harmless_nil _)] at none
  rw [← holds.named]
  exact (Record.additions_none holds.inOrder.unique).mp none

theorem Holds.additions {blocks : List Block} (added : store.additions contents ufid data = some blocks) :
    ¬ Files.Crowded names ufid ∧ blocks.length = files.needed ufid data := by
  rw [Store.additions, holds.inOrder.listed (Tape.harmless_nil _)] at added
  rw [← holds.named, ← holds.content]
  refine ⟨?_, Record.length_additions holds.inOrder.unique holds.backed added⟩
  intro crowded
  rw [(Record.additions_none holds.inOrder.unique).mpr crowded] at added
  cases added

/-- A save compacts if what it appends does not fit into the log. -/
theorem Holds.turns : files.Turns names store.usage.free ufid data ↔
    ∃ blocks, store.additions contents ufid data = some blocks ∧
      store.partition.blocks < store.free + blocks.length := by
  have room := holds.inOrder.room
  change ¬ Files.Crowded _ _ ∧ store.partition.blocks - store.free < _ ↔ _
  cases added : store.additions contents ufid data with
  | none =>
      have crowded := holds.crowded added
      simp [crowded]
  | some blocks =>
      obtain ⟨vacant, length⟩ := holds.additions added
      simp only [vacant, not_false_eq_true, true_and, Option.some.injEq, exists_eq_left']
      omega

/-- A rotation keeps the files and leaves as many blocks in use as they take. -/
theorem Holds.rotated (turn : store.Rotated records left after) :
    left.Holds after (Record.live records) files names ∧ left.free = 1 + files.weights names := by
  have unique := holds.inOrder.unique
  refine ⟨⟨turn.inOrder unique, Record.backed_live unique, ?_, ?_⟩, ?_⟩
  · rw [Record.files_live unique.ufids, holds.content]
  · rw [← holds.named, Record.names, Record.entries_live_of_backed unique holds.backed, Record.names]
  · rw [turn.full, holds.weights]

theorem Holds.placed {value : Except StoreError Unit} (placed : store.Placed contents ufid data value left after)
    (enough : value ≠ .error .noSpace) :
    value = files.saved names store.usage.total ufid data ∧ store.Counted files names ufid data left := by
  have shorter := holds.weights_le
  have total : store.usage.total = store.partition.blocks - 1 := rfl
  cases placed with
  | full added =>
      have crowded := holds.crowded added
      have stays : ¬ files.Turns names store.usage.free ufid data := fun turns => turns.1 crowded
      have verdict : files.saved names store.usage.total ufid data = .error .noFileIds := by
        rw [Files.saved, if_pos crowded]
      refine ⟨verdict.symm, ?_, ?_⟩
      · rw [if_neg stays]
      · rw [if_neg stays, verdict]
        rfl
  | @fits blocks added room =>
      obtain ⟨vacant, length⟩ := holds.additions added
      have stays : ¬ files.Turns names store.usage.free ufid data := by
        intro turns
        obtain ⟨blocks', again, short⟩ := holds.turns.mp turns
        rw [added, Option.some.injEq] at again
        subst again
        omega
      have verdict : files.saved names store.usage.total ufid data = .ok () := by
        rw [Files.saved, if_neg vacant, if_pos (by omega)]
      refine ⟨verdict.symm, ?_, ?_⟩
      · rw [if_neg stays]
        rfl
      · rw [if_neg stays, verdict, if_pos rfl]
        change store.free + blocks.length - 1 = _
        omega
  | tight added short => exact absurd rfl enough

theorem Holds.placed_turned {rotated : Store} {between : Contents} {value : Except StoreError Unit}
    (turns : files.Turns names store.usage.free ufid data) (turn : store.Rotated records rotated between)
    (placed : rotated.Placed between ufid data value left after) :
    value = files.saved names store.usage.total ufid data ∧ store.Counted files names ufid data left := by
  obtain ⟨holds', used⟩ := holds.rotated turn
  have within := holds'.inOrder.room
  have total : store.usage.total = rotated.partition.blocks - 1 := by
    rw [turn.partition]
    rfl
  have vacant := turns.1
  have active : left.active = store.active.other := placed.active.trans turn.active
  cases placed with
  | full none => exact absurd (holds'.crowded none) vacant
  | @fits blocks added room =>
      obtain ⟨-, length⟩ := holds'.additions added
      have verdict : files.saved names store.usage.total ufid data = .ok () := by
        rw [Files.saved, if_neg vacant, if_pos (by omega)]
      refine ⟨verdict.symm, ?_, ?_⟩
      · rw [if_pos turns, active]
      · rw [if_pos turns, verdict, if_pos rfl]
        change rotated.free + blocks.length - 1 = _
        omega
  | @tight blocks added short =>
      obtain ⟨-, length⟩ := holds'.additions added
      have verdict : files.saved names store.usage.total ufid data = .error .noSpace := by
        rw [Files.saved, if_neg vacant, if_neg (by omega)]
      refine ⟨verdict.symm, ?_, ?_⟩
      · rw [if_pos turns, active]
      · rw [if_pos turns, verdict, used]
        exact Nat.add_sub_cancel_left _ _

/-- How a save ends and what it leaves depends on the files and the end of the log alone. -/
theorem Holds.saved (small : data.length ≤ maxFileSize) {value : Except StoreError Unit}
    (ended : store.Saved contents ufid data value left after) :
    value = files.saved names store.usage.total ufid data ∧ store.Counted files names ufid data left := by
  cases ended with
  | large size => exact absurd small (Nat.not_le.mpr size)
  | atOnce small placed enough => exact holds.placed placed enough
  | turned small added short turn placed =>
      rw [holds.inOrder.listed (Tape.harmless_nil _)] at turn
      exact holds.placed_turned (holds.turns.mpr ⟨_, added, short⟩) turn placed

end Accounts

/-- A save erases once if it compacts and never otherwise. -/
theorem erases_save [LawfulMedium μ] (fits : store.partition.Fits medium) {files : Files} {names : List Ufid}
    (holds : store.Holds (store.partition.contents medium) records files names) (small : data.length ≤ maxFileSize) :
    (store.save ufid data).erases medium = if files.Turns names store.usage.free ufid data then 1 else 0 := by
  have settled := holds.inOrder.settled
  have achieved : store.partition.Achieves
      (fun value _ _ => value = .ok false ↔ files.Turns names store.usage.free ufid data)
      (fun _ _ _ => True) (store.place ufid data) store (store.partition.contents medium) := by
    rw [holds.turns]
    apply Partition.achieves_place holds.inOrder.room small _ _ trivial
      (fun _ _ _ _ _ _ _ => trivial)
    · intro none
      simp [none]
    · intro blocks added enough
      simp [added, enough]
    · intro blocks added tight
      simp [added, tight]
    · exact fun position late => settled.clear position (Nat.le_of_lt late)
    · exact fun _ _ _ _ => Block.takes_of_blank (settled.clear store.free (Nat.le_refl _)) _
  have ends := (achieved μ medium fits rfl).ends
  cases ran : (store.place ufid data).run store medium with
  | mk value left between =>
      rw [ran] at ends
      have placed (enough : value ≠ .ok false) (stays : ¬ files.Turns names store.usage.free ufid data) :
          (store.save ufid data).erases medium = if files.Turns names store.usage.free ufid data then 1 else 0 := by
        rw [if_neg stays]
        exact erases_save_placed small ran enough
      cases value with
      | error reason =>
          cases reason with
          | error error => exact placed (by simp) (fun turns => by cases ends.2.mpr turns)
          | halt violation => cases ends
      | ok value =>
          cases value with
          | true => exact placed (by simp) (fun turns => by cases ends.2.mpr turns)
          | false =>
              rw [if_pos (ends.2.mp rfl)]
              exact erases_save_turned fits small ran

end Store

namespace Session

variable {μ : Type} [Medium μ] [LawfulMedium μ] {store : Store} {records : List Record} {files : Files}
  {names : List Ufid} {medium : μ}

theorem save_counted (fits : store.partition.Fits medium)
    (holds : store.Holds (store.partition.contents medium) records files names) {data : List UInt8}
    (small : data.length ≤ maxFileSize) (ufid : Ufid) :
    ∃ after left,
      perform ⟨medium, some store⟩ (.save ufid data) =
        (.ok (reply (fun () => .done) (files.saved names store.usage.total ufid data)), ⟨after, some left⟩) ∧
      store.Counted files names ufid data left := by
  have achieved : store.partition.Achieves _ (fun _ _ _ => True) (store.save ufid data) store
      (store.partition.contents medium) :=
    Partition.achieves_save_inOrder holds.inOrder (Tape.harmless_nil _) (fun _ _ _ _ => trivial)
      (fun _ _ _ ended => holds.saved small ended)
  obtain ⟨value, left, after, -, ⟨rfl, counted⟩, changed⟩ :=
    @change_of_achieves μ _ _ store.partition ⟨medium, some store⟩ store _ _ _ _ fits achieved (fun () => .done)
  exact ⟨after, left, changed, counted⟩

theorem rotate_counted (fits : store.partition.Fits medium)
    (holds : store.Holds (store.partition.contents medium) records files names) :
    ∃ after left, perform ⟨medium, some store⟩ .rotate = (.ok .done, ⟨after, some left⟩) ∧
      left.active = store.active.other ∧ left.free = 1 + files.weights names := by
  have inOrder := holds.inOrder
  have achieved : store.partition.Achieves
      (fun value left _ => (∃ rotated, value = .ok rotated) ∧ left.active = store.active.other ∧
        left.free = 1 + files.weights names) (fun _ _ _ => True) store.rotate store (store.partition.contents medium) := by
    apply Partition.achieves_rotate (inOrder.listed (Tape.harmless_nil _)) inOrder.settled.positive inOrder.room
      inOrder.unique (fun _ _ _ => trivial)
    intro rotated after turn
    exact ⟨trivial, ⟨rotated, rfl⟩, turn.active, (holds.rotated turn).2⟩
  obtain ⟨value, left, after, -, ⟨⟨rotated, rfl⟩, counted⟩, changed⟩ :=
    @change_of_achieves μ _ _ store.partition ⟨medium, some store⟩ store _ _ _ _ fits achieved (fun _ => Answer.done)
  exact ⟨after, left, changed, counted⟩

/-- A store holds what fits. After every history of requests on a medium with no marker, where `names` are the
identifiers of the files, a save of no more than the largest size ends with no id being left if and only if it is of a
new file and as many files are there as there are ids. Otherwise it succeeds if and only if the files, each with its
entry, and what is appended take no more blocks than there are besides the marker. It compacts if and only if an id is
left and what is appended is more than the blocks that are left, and then once. A compaction, by a save or on its own,
leaves as many blocks in use as the files take. -/
theorem save_capacity {medium : μ} {geometry : Geometry}
    (fits : Partition.Fits ⟨Medium.polarity medium, geometry⟩ medium)
    (unmarked : ∀ log, (Partition.contents ⟨Medium.polarity medium, geometry⟩ medium).marked log = false)
    (requests : List Request) (same : ∀ other, .mount other ∈ requests → other = geometry) :
    ∃ answers session store files names,
      performAll ⟨medium, none⟩ (.mount geometry :: requests) = (answers, none, session) ∧
      Files.Run True Files.empty (.mount geometry :: requests) answers files ∧ files.Listed names ∧
      session.store = some store ∧ store.usage.total = geometry.blocks - 1 ∧
      (∀ ufid data, data.length ≤ maxFileSize → ∃ after left,
        session.perform (.save ufid data) =
          (.ok (reply (fun () => .done) (files.saved names store.usage.total ufid data)), ⟨after, some left⟩) ∧
        (store.save ufid data).erases session.medium =
          (if files.Turns names store.usage.free ufid data then 1 else 0) ∧
        store.Counted files names ufid data left) ∧
      ∃ after left, session.perform .rotate = (.ok .done, ⟨after, some left⟩) ∧
        left.free - 1 = files.weights names := by
  obtain ⟨answers, session, store, records, performed, current, run⟩ := performAll_unmarked fits unmarked requests same
  obtain ⟨⟨mounted, together, fits', inOrder⟩, backed, -⟩ := current
  obtain ⟨last, given⟩ := session
  obtain rfl : given = some store := mounted
  rw [← together] at fits' inOrder
  have holds : store.Holds _ records (Record.files records) (Record.names records) := ⟨inOrder, backed, rfl, rfl⟩
  obtain ⟨turned, left, rotated, -, used⟩ := rotate_counted fits' holds
  refine ⟨answers, _, store, _, _, performed, run, holds.listed, rfl, ?_, ?_, turned, left, rotated, by omega⟩
  · rw [Store.usage, together]
    rfl
  · intro ufid data small
    obtain ⟨after, left, saved, counted⟩ := save_counted fits' holds small ufid
    exact ⟨after, left, saved, Store.erases_save fits' holds small, counted⟩

section FullOfOne

set_option maxRecDepth 8192

/-- A log of four blocks that is full of one file and its content from before. -/
def fullOfOne : Session Simulated :=
  (performAll ⟨unwritten, none⟩
    [.mount ⟨0, 128, 128⟩, .save (Vector.replicate 12 7) [1], .save (Vector.replicate 12 7) [2]]).2.2

/-- There the file can be saved again after a compaction, but no other: the log has room for three blocks, of which the
file takes two. -/
theorem save_capacity_fullOfOne :
    performAll ⟨unwritten, none⟩
        [.mount ⟨0, 128, 128⟩, .save (Vector.replicate 12 7) [1], .save (Vector.replicate 12 7) [2]] =
      ([.done, .done, .done], none, fullOfOne) ∧
    fullOfOne.store = some ⟨⟨.ones, ⟨0, 128, 128⟩⟩, .a, 4⟩ ∧
    (∃ after left, fullOfOne.perform (.save (Vector.replicate 12 7) [3]) = (.ok .done, ⟨after, some left⟩) ∧
      (Store.save ⟨⟨.ones, ⟨0, 128, 128⟩⟩, .a, 4⟩ (Vector.replicate 12 7) [3]).erases fullOfOne.medium = 1 ∧
      left.active = .b ∧ left.free - 1 = 3) ∧
    (∃ after left, fullOfOne.perform (.save (Vector.replicate 12 8) [3]) =
        (.ok (.failed .noSpace), ⟨after, some left⟩) ∧
      (Store.save ⟨⟨.ones, ⟨0, 128, 128⟩⟩, .a, 4⟩ (Vector.replicate 12 8) [3]).erases fullOfOne.medium = 1 ∧
      left.active = .b ∧ left.free - 1 = 2) ∧
    ∃ after left, fullOfOne.perform .rotate = (.ok .done, ⟨after, some left⟩) ∧ left.free - 1 = 2 := by
  have ran : performAll ⟨unwritten, none⟩
      (.mount ⟨0, 128, 128⟩ :: [.save (Vector.replicate 12 7) [1], .save (Vector.replicate 12 7) [2]]) =
        ([.done, .done, .done], none, fullOfOne) := by rfl
  have unmarked : ∀ log, (Partition.contents ⟨.ones, ⟨0, 128, 128⟩⟩ unwritten).marked log = false := by
    intro log
    cases log <;> decide
  obtain ⟨answers, session, store, files, names, performed, run, listed, mounted, -, saves, after, left, rotated, used⟩ :=
    @save_capacity Simulated _ _ unwritten ⟨0, 128, 128⟩ unwritten_fits unmarked
      [.save (Vector.replicate 12 7) [1], .save (Vector.replicate 12 7) [2]] (fun other member => by simp at member)
  rw [ran] at performed
  cases performed
  obtain rfl : ⟨⟨.ones, ⟨0, 128, 128⟩⟩, .a, 4⟩ = store := Option.some.inj mounted
  obtain rfl : (Files.empty.set (Vector.replicate 12 7) [1]).set (Vector.replicate 12 7) [2] = files := by
    cases run with
    | cons step run =>
        cases step
        cases run with
        | cons step run =>
            cases step
            cases run with
            | cons step run =>
                cases step
                cases run
                rfl
  obtain rfl : [Vector.replicate 12 7] = names := by
    have one : ∀ ufid ∈ names, ufid = Vector.replicate 12 7 := by
      intro ufid member
      by_contra other
      simpa [Files.set, Files.empty, other] using (listed.mem ufid).mp member
    have there : Vector.replicate 12 7 ∈ names := (listed.mem _).mpr (by simp [Files.set])
    exact List.singleton_perm.mp ((List.perm_ext_iff_of_nodup (List.nodup_singleton _) listed.nodup).mpr fun ufid =>
      ⟨fun member => List.mem_singleton.mp member ▸ there, fun member => List.mem_singleton.mpr (one ufid member)⟩)
  obtain ⟨again, kept, saved, erased, counted⟩ := saves (Vector.replicate 12 7) [3] (by decide)
  obtain ⟨full, kept', refused, erased', counted'⟩ := saves (Vector.replicate 12 8) [3] (by decide)
  exact ⟨ran, rfl, ⟨again, kept, saved, erased, counted.active, counted.used⟩,
    ⟨full, kept', refused, erased', counted'.active, counted'.used⟩, after, left, rotated, used⟩

end FullOfOne

end Session

end TwinLog
