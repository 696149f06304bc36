import TwinLog.Proofs.Saving

set_option autoImplicit false

namespace TwinLog

namespace Tape

/-- The first block of each chain that goes on past the blocks before `whole`. -/
def unfinished (polarity : Polarity) (blocks : Nat → Block) (whole : Nat) : List Nat :=
  (List.range' 1 (whole - 1)).filter fun index =>
    match polarity.kind (blocks index).info with
    | .start head => whole < (Chain.mk index head).stop
    | _ => false

/-- The block at `whole`, if a write was torn there. -/
def torn (polarity : Polarity) (blocks : Nat → Block) (whole : Nat) : List Nat :=
  if (blocks whole).isErased polarity then [] else [whole]

def halfDone (polarity : Polarity) (blocks : Nat → Block) (whole : Nat) : List Nat :=
  unfinished polarity blocks whole ++ torn polarity blocks whole

def ended (polarity : Polarity) (blocks : Nat → Block) (whole : Nat) : Nat :=
  if (blocks whole).isErased polarity then whole else whole + 1

variable {tape : Tape} {scars : List Nat} {records : List Record} {polarity : Polarity} {blocks : Nat → Block}
  {whole : Nat}

/-- A write that was torn does not move the end of a log out of it where there was still room for it. -/
theorem ended_le {after : List Block} {room : Nat} (enough : whole + after.length ≤ room)
    (last : after = [] → blocks whole = Block.blank polarity) : ended polarity blocks whole ≤ room := by
  rw [ended]
  split
  · omega
  · rename_i torn
    cases after with
    | nil => exact absurd (Block.isErased_iff.mpr (last rfl)) torn
    | cons next after =>
        rw [List.length_cons] at enough
        omega

theorem mem_unfinished {index : Nat} :
    index ∈ unfinished polarity blocks whole ↔
      1 ≤ index ∧ index < whole ∧
        ∃ head, polarity.kind (blocks index).info = .start head ∧ whole < (Chain.mk index head).stop := by
  rw [unfinished, List.mem_filter, List.mem_range'_1]
  constructor
  · rintro ⟨inside, further⟩
    split at further
    · rename_i head kind
      exact ⟨inside.1, by omega, head, kind, by simpa using further⟩
    · cases further
  · rintro ⟨late, inside, head, kind, further⟩
    refine ⟨by omega, ?_⟩
    rw [kind]
    simpa using further

/-- A chain that goes on past the end of a tape is none of its chains. -/
theorem harmless_unfinished : Harmless ⟨polarity, blocks, whole⟩ (unfinished polarity blocks whole) := by
  intro index listed _
  obtain ⟨-, -, head, kind, further⟩ := mem_unfinished.mp listed
  have none : chainAt? ⟨polarity, blocks, whole⟩ index = none := by
    cases found : chainAt? ⟨polarity, blocks, whole⟩ index with
    | none => rfl
    | some chain =>
        obtain rfl := chainAt?_declared kind found
        obtain ⟨-, -, room, -⟩ := chainAt?_some.mp found
        change (Chain.mk index head).stop ≤ whole at room
        omega
  rw [recordAt, Block.binding?_none (by rw [kind]; intro id same; cases same), none]
  rfl

theorem unfinished_void {blocks' : Nat → Block} {index : Nat} (clear : index ∉ unfinished polarity blocks whole)
    (same : ∀ position, position ≠ index → blocks' position = blocks position)
    (voided : polarity.kind (blocks' index).info = .cont) :
    unfinished polarity blocks' whole = unfinished polarity blocks whole := by
  apply List.filter_congr
  intro position member
  by_cases here : position = index
  · subst here
    rw [voided]
    symm
    rw [Bool.eq_false_iff]
    intro goes_on
    exact clear (List.mem_filter.mpr ⟨member, goes_on⟩)
  · rw [same position here]

/-- A chain that was to go on where something else was put is none, however many blocks follow. -/
theorem harmless_covered {stop : Nat} {blocks' : Nat → Block}
    (same : ∀ index < whole, blocks' index = blocks index)
    (other : polarity.kind (blocks' whole).info ≠ .cont) :
    Harmless ⟨polarity, blocks', stop⟩ (unfinished polarity blocks whole) := by
  intro index listed _
  obtain ⟨-, early, head, kind, further⟩ := mem_unfinished.mp listed
  rw [← same index early] at kind
  have none : chainAt? ⟨polarity, blocks', stop⟩ index = none := by
    cases found : chainAt? ⟨polarity, blocks', stop⟩ index with
    | none => rfl
    | some chain =>
        obtain rfl := chainAt?_declared kind found
        obtain ⟨-, -, -, passed⟩ := chainAt?_some.mp found
        exact absurd (Chain.sound_further passed early further) other
  rw [recordAt, Block.binding?_none (by rw [kind]; intro id same; cases same), none]
  rfl

/-- Further blocks of chains, and first blocks of chains that are not all there, add no record. -/
theorem Keeps.leave_unfinished (keeps : tape.Keeps scars records) (grown : tape.stop ≤ whole)
    (same : ∀ index < tape.stop, blocks index = tape.blocks index)
    (part : ∀ index, tape.stop ≤ index → index < whole →
      tape.polarity.kind (blocks index).info = .cont ∨
        ∃ head, tape.polarity.kind (blocks index).info = .start head ∧ whole < (Chain.mk index head).stop) :
    Keeps ⟨tape.polarity, blocks, whole⟩ (scars ++ unfinished tape.polarity blocks whole) records := by
  have positive := keeps.positive
  have silent : Tape.records ⟨tape.polarity, blocks, whole⟩ (scars ++ unfinished tape.polarity blocks whole) tape.stop =
      [] := by
    rw [Tape.records, List.filterMap_eq_nil_iff]
    intro index member
    rw [List.mem_range'_1] at member
    simp only at member
    rw [visible]
    split
    · rfl
    · rename_i clear
      rcases part index member.1 (by omega) with kind | ⟨head, kind, further⟩
      · exact recordAt_cont kind
      · exact absurd (List.mem_append_right _ (mem_unfinished.mpr ⟨by omega, by omega, head, kind, further⟩)) clear
  have extended : Keeps ⟨tape.polarity, blocks, whole⟩ (scars ++ unfinished tape.polarity blocks whole)
      (records ++ Tape.records ⟨tape.polarity, blocks, whole⟩ (scars ++ unfinished tape.polarity blocks whole)
        tape.stop) := by
    refine keeps.extend (by rfl) grown same ?_ ?_ ?_
    · intro index late inside
      rw [List.mem_append]
      refine ⟨?_, .inl⟩
      rintro (old | fresh)
      · exact old
      · obtain ⟨-, -, head, kind, further⟩ := mem_unfinished.mp fresh
        rw [same index inside] at kind
        -- a chain of the tape that is no scar does not go on past its end
        by_contra clear
        obtain ⟨-, -, room, -⟩ := chainAt?_some.mp (keeps.started index head late inside clear kind)
        omega
    · intro index listed
      rcases List.mem_append.mp listed with old | fresh
      · have below := keeps.below index old
        simp only
        omega
      · exact (mem_unfinished.mp fresh).2.1
    · intro index head late inside clear kind
      rcases part index late inside with other | ⟨declared, started, further⟩
      · rw [kind] at other
        cases other
      · exact absurd (List.mem_append_right _ (mem_unfinished.mpr ⟨by omega, inside, declared, started, further⟩)) clear
  rw [silent, List.append_nil] at extended
  exact extended

/-- A torn write at the end of a tape adds no record. -/
theorem Keeps.tear (keeps : Keeps ⟨polarity, blocks, whole⟩ scars records)
    (clear : ∀ position, whole < position → blocks position = Block.blank polarity)
    (ends : whole = 1 ∨ blocks (whole - 1) ≠ Block.blank polarity) :
    Settled ⟨polarity, blocks, ended polarity blocks whole⟩ (scars ++ torn polarity blocks whole) records := by
  rw [ended, torn]
  split
  · rename_i erased
    rw [Block.isErased_iff] at erased
    rw [List.append_nil]
    refine ⟨keeps, ?_, ends⟩
    intro position late
    change whole ≤ position at late
    by_cases here : position = whole
    · rw [here]
      exact erased
    · exact clear position (by omega)
  · rename_i written
    rw [Block.isErased_iff] at written
    have silent : Tape.records ⟨polarity, blocks, whole + 1⟩ (scars ++ [whole]) whole = [] := by
      rw [records_step _ _ (Nat.lt_succ_self whole), visible, if_pos (List.mem_append_right _ List.mem_cons_self),
        records_done _ (Nat.le_refl _)]
      rfl
    have extended : Keeps ⟨polarity, blocks, whole + 1⟩ (scars ++ [whole])
        (records ++ Tape.records ⟨polarity, blocks, whole + 1⟩ (scars ++ [whole]) whole) := by
      refine keeps.extend (by rfl) (Nat.le_succ whole) (fun _ _ => rfl) ?_ ?_ ?_
      · intro index late inside
        change index < whole at inside
        rw [List.mem_append, List.mem_singleton]
        exact ⟨fun listed => listed.resolve_right (by omega), .inl⟩
      · intro index listed
        rcases List.mem_append.mp listed with old | last
        · have below := keeps.below index old
          simp only at below ⊢
          omega
        · rw [List.mem_singleton] at last
          simp only
          omega
      · intro index head late inside absent kind
        change whole ≤ index at late
        change index < whole + 1 at inside
        have last : index = whole := by omega
        exact absurd (List.mem_append_right _ (List.mem_singleton.mpr last)) absent
    rw [silent, List.append_nil] at extended
    exact ⟨extended, fun position late => clear position late, .inr written⟩

theorem Settled.halfDone (settled : tape.Settled scars records) :
    tape.Settled (scars ++ halfDone tape.polarity tape.blocks tape.stop) records := by
  have unfinished : Keeps ⟨tape.polarity, tape.blocks, tape.stop⟩ (scars ++ unfinished tape.polarity tape.blocks tape.stop)
      records := settled.toKeeps.leave_unfinished (Nat.le_refl _) (fun _ _ => rfl) (fun index late early => by omega)
  have erased : (tape.blocks tape.stop).isErased tape.polarity = true := by
    rw [Block.isErased_iff]
    exact settled.clear tape.stop (Nat.le_refl _)
  have torn := unfinished.tear (fun position late => settled.clear position (Nat.le_of_lt late)) settled.ends
  rw [ended, if_pos erased, List.append_assoc] at torn
  exact torn

section Parts

variable {contents : Contents} {log : Log} {free : Nat} {before after : List Block} {current : Nat → Block}

/-- Some blocks of a new chain add no record, all of them its content. -/
theorem Settled.part_fresh (settled : Settled ⟨polarity, contents log, free⟩ scars records) {id : FileId}
    {data : List UInt8} (small : data.length ≤ maxFileSize) (split : Chain.fresh polarity id data = before ++ after)
    (same : ∀ index < free + before.length, current index = contents.lay log free before log index) :
    ∃ kept, Keeps ⟨polarity, current, free + before.length⟩
        (scars ++ unfinished polarity current (free + before.length)) kept ∧
      (kept = records ∨ after = [] ∧ kept = records ++ [.content id data]) := by
  obtain ⟨first, rest, laid, info, further⟩ :=
    Chain.encode_cons polarity (polarity.startWord (Chain.headOf id data)) (Chain.one_le_of_small small)
  have fresh : Chain.fresh polarity id data = first :: rest := laid
  -- only a chain that is all there is one
  cases after with
  | nil =>
      rw [List.append_nil] at split
      have added := settled.toKeeps.lay_fresh (fun position late => settled.clear position (Nat.le_of_lt late)) id small
      rw [split] at added
      exact ⟨_, added.toKeeps.leave_unfinished (Nat.le_refl _) same
        (fun index late early => absurd early (Nat.not_lt.mpr late)),
        .inr ⟨rfl, rfl⟩⟩
  | cons next after =>
      refine ⟨records, settled.toKeeps.leave_unfinished (Nat.le_add_right _ _) ?_ ?_, .inl rfl⟩
      · intro index early
        change index < free at early
        rw [same index (by omega)]
        exact Contents.lay_apart free before (.inr (.inl early))
      · intro index late early
        change free ≤ index at late
        change polarity.kind (current index).info = .cont ∨
          ∃ head, polarity.kind (current index).info = .start head ∧ free + before.length < (Chain.mk index head).stop
        rw [fresh] at split
        cases before with
        | nil =>
            rw [List.length_nil] at early
            omega
        | cons head before =>
            rw [List.cons_append, List.cons.injEq] at split
            obtain ⟨rfl, rfl⟩ := split
            rw [List.length_cons] at early
            by_cases start : index = free
            · subst start
              have here : current index = first := by
                rw [same index (by rw [List.length_cons]; omega)]
                exact Contents.lay_first index first before
              have length := Chain.length_fresh polarity id data
              rw [fresh, List.length_cons, List.length_append, List.length_cons] at length
              have stop : (Chain.mk index (Chain.headOf id data)).stop = index + blocksNeeded data.length := by
                rw [Chain.stop, Chain.count, Chain.size, Chain.headOf_size small]
              -- the first block declares a chain that goes on past the blocks that are there
              refine .inr ⟨Chain.headOf id data, ?_, ?_⟩
              · rw [here, info, Polarity.kind_startWord]
              · rw [stop, List.length_cons]
                omega
            · left
              have inside : index - (free + 1) < before.length := by omega
              have laid := @Contents.lay_inside (contents.put log free first.toList) log (free + 1) before _ inside
              rw [Nat.add_sub_cancel' (by omega)] at laid
              have here : current index = before[index - (free + 1)] := by
                rw [same index (by rw [List.length_cons]; omega), ← laid, Contents.lay]
              rw [here]
              exact further _ (List.mem_append_left _ (List.getElem_mem inside))

/-- The blocks that make `data` the content of a file do so, and only some of them change no file. -/
theorem Settled.part_additions (settled : Settled ⟨polarity, contents log, free⟩ scars records)
    (unique : Record.Unique records) {ufid : Ufid} {data : List UInt8} (small : data.length ≤ maxFileSize)
    (added : Record.additions polarity records ufid data = some (before ++ after))
    (same : ∀ index < free + before.length, current index = contents.lay log free before log index) :
    ∃ kept, Keeps ⟨polarity, current, free + before.length⟩
        (scars ++ unfinished polarity current (free + before.length)) kept ∧
      Record.Unique kept ∧
      (Record.files kept = Record.files records ∨
        after = [] ∧ Record.files kept = (Record.files records).set ufid data) := by
  rw [Record.additions] at added
  cases owner : Record.owner? records ufid with
  | some id =>
      rw [owner, Option.some.injEq] at added
      obtain ⟨kept, keeps, rfl | ⟨done, rfl⟩⟩ := settled.part_fresh small added same
      · exact ⟨kept, keeps, unique, .inl rfl⟩
      · exact ⟨_, keeps, unique.append_content id data,
          .inr ⟨done, Record.files_append_content unique (Record.owner?_some owner) data⟩⟩
  | none =>
      rw [owner, Option.map_eq_some_iff] at added
      obtain ⟨id, unused, laid⟩ := added
      cases before with
      | nil =>
          refine ⟨records, settled.toKeeps.leave_unfinished (Nat.le_refl _) same ?_, unique, .inl rfl⟩
          intro index late early
          exact absurd early (Nat.not_lt.mpr late)
      | cons first before =>
          rw [List.cons_append, List.cons.injEq] at laid
          obtain ⟨rfl, split⟩ := laid
          have more := unique.append_entry (FileId.lowestUnused_not_mem unused) (Record.owner?_none owner)
          have one := settled.toKeeps.lay_entry (fun position late => settled.clear position (Nat.le_of_lt late))
            (Block.binding?_entry polarity id ufid)
          rw [List.length_cons, show free + (before.length + 1) = free + 1 + before.length by omega] at same ⊢
          obtain ⟨kept, keeps, rfl | ⟨done, rfl⟩⟩ := one.part_fresh small split same
          · exact ⟨_, keeps, more, .inl (Record.files_append_entry _ _ _)⟩
          · refine ⟨_, keeps, more.append_content id data, .inr ⟨done, ?_⟩⟩
            have bound : (id, ufid) ∈ Record.entries (records ++ [.entry id ufid]) := by
              rw [Record.entries_append]
              exact List.mem_append_right _ List.mem_cons_self
            rw [Record.files_append_content more bound, Record.files_append_entry]

end Parts

end Tape

/-- The scars that the log in use still has after a change. A log that was not in use before has none. -/
def Contents.carried (before after : Contents) (scars : List Nat) : List Nat :=
  if after.inUse = before.inUse then scars else []

theorem Record.additions_written {polarity : Polarity} {records : List Record} {ufid : Ufid} {data : List UInt8}
    {blocks : List Block} (added : additions polarity records ufid data = some blocks) :
    ∀ block ∈ blocks, block ≠ Block.blank polarity := by
  have fresh (id : FileId) : ∀ block ∈ Chain.fresh polarity id data, block ≠ Block.blank polarity :=
    fun block member => Block.ne_blank_of_kind (Chain.kind_fresh member)
  rw [additions] at added
  split at added
  · rename_i id owner
    rw [Option.some.injEq] at added
    subst added
    exact fresh id
  · rw [Option.map_eq_some_iff] at added
    obtain ⟨id, -, rfl⟩ := added
    intro block member
    rcases List.mem_cons.mp member with rfl | later
    · exact Block.ne_blank_of_binding (Block.binding?_entry polarity id ufid)
    · exact fresh id block later

namespace Store

/-- The end of the blocks of the active log that were written whole. Unless the last write was torn, there may be one
that the store does not know of yet. -/
def reached (store : Store) (contents : Contents) (torn : Bool) : Nat :=
  if torn = true ∨ (contents store.active store.free).isErased store.partition.polarity = true then store.free
  else store.free + 1

/-- The scars of the log in use after an interruption: those that it had, and what the store left half done if that
was in it. -/
def scarsAfter (left : Store) (torn : Bool) (before after : Contents) (scars : List Nat) : List Nat :=
  before.carried after scars ++
    if after.inUse = some left.active then
      Tape.halfDone left.partition.polarity (after left.active) (left.reached after torn)
    else []

/-- Whether the log in use is in order, apart from its scars, and stands for `files`. -/
def Survives (partition : Partition) (scars : List Nat) (contents : Contents) (files : Files) : Prop :=
  ∃ (log : Log) (free : Nat) (records : List Record), contents.inUse = some log ∧
    InOrder ⟨partition, log, free⟩ scars contents records ∧ Record.files records = files

end Store

namespace Appending

variable {store left : Store} {contents current : Contents} {blocks : List Block} {torn : Bool}

theorem partition (appending : Appending store contents blocks torn left current) :
    left.partition = store.partition := by
  cases appending <;> rfl

theorem active (appending : Appending store contents blocks torn left current) : left.active = store.active := by
  cases appending <;> rfl

theorem stays (appending : Appending store contents blocks torn left current) (positive : 1 ≤ store.free) :
    store.Stays contents current := by
  have laid (before : List Block) : store.Stays contents (contents.lay store.active store.free before) :=
    ⟨Contents.lay_other _ _ store.active.other_ne, Contents.lay_apart _ _ (.inr (.inl positive))⟩
  cases appending with
  | whole before after split kept near => exact laid before
  | torn before block after split count short => exact (laid before).put (by omega) _

theorem parts (appending : Appending store contents blocks torn left current)
    (clear : ∀ position, store.free ≤ position →
      contents store.active position = Block.blank store.partition.polarity)
    (written : ∀ block ∈ blocks, block ≠ Block.blank store.partition.polarity) :
    ∃ before after, blocks = before ++ after ∧ left.reached current torn = store.free + before.length ∧
      (∀ index < store.free + before.length,
        current store.active index = contents.lay store.active store.free before store.active index) ∧
      (∀ index, store.free + before.length < index →
        current store.active index = Block.blank store.partition.polarity) ∧
      (after = [] → current store.active (store.free + before.length) = Block.blank store.partition.polarity) := by
  cases appending with
  | whole before after split kept near =>
      have beyond (index : Nat) (late : store.free + before.length ≤ index) :
          contents.lay store.active store.free before store.active index = Block.blank store.partition.polarity := by
        rw [Contents.lay_apart _ _ (.inr (.inr late))]
        exact clear index (by omega)
      refine ⟨before, after, split, ?_, fun _ _ => rfl, fun index late => beyond index (Nat.le_of_lt late),
        fun _ => beyond _ (Nat.le_refl _)⟩
      rw [Store.reached]
      rcases near with rfl | ⟨some_blocks, last⟩
      · rw [if_pos (.inr (Block.isErased_iff.mpr (beyond _ (Nat.le_refl _))))]
      · have offset : before.length - 1 < before.length := by
          have := List.length_pos_iff.mpr some_blocks
          omega
        have here := @Contents.lay_inside contents store.active store.free before _ offset
        rw [show store.free + (before.length - 1) = kept by omega] at here
        rw [if_neg, last]
        rintro (torn | erased)
        · cases torn
        · rw [Block.isErased_iff, here] at erased
          refine written _ ?_ erased
          rw [split]
          exact List.mem_append_left _ (List.getElem_mem offset)
  | torn before block after split count short =>
      refine ⟨before, block :: after, split, ?_, ?_, ?_, ?_⟩
      · rw [Store.reached, if_pos (.inl rfl)]
      · intro index early
        exact Contents.put_apart _ _ (by rintro ⟨-, rfl⟩; omega)
      · intro index late
        rw [Contents.put_apart _ _ (by rintro ⟨-, rfl⟩; omega),
          Contents.lay_apart _ _ (.inr (.inr (Nat.le_of_lt late)))]
        exact clear index (by omega)
      · intro none
        cases none

end Appending

namespace Store

variable {store left : Store} {scars : List Nat} {contents current : Contents} {records kept : List Record}
  {ufid : Ufid} {data : List UInt8} {torn : Bool}

/-- Where nothing was being appended, an interruption leaves a log in order. -/
theorem InOrder.survives (inOrder : store.InOrder (contents.carried current scars) current records)
    (used : current.inUse = some store.active) (torn : Bool) :
    Survives store.partition (store.scarsAfter torn contents current scars) current (Record.files records) := by
  have erased : (current store.active store.free).isErased store.partition.polarity = true := by
    rw [Block.isErased_iff]
    exact inOrder.settled.clear store.free (Nat.le_refl _)
  refine ⟨store.active, store.free, records, used, ⟨?_, inOrder.room, inOrder.unique⟩, rfl⟩
  rw [scarsAfter, if_pos used, reached, if_pos (.inr erased)]
  exact inOrder.settled.halfDone

/-- Where some blocks were appended to a log and none of them looks erased, that log ends after the last of them. -/
theorem laid_ends {before : List Block} (positive : 1 ≤ store.free)
    (ends : store.free = 1 ∨ contents store.active (store.free - 1) ≠ Block.blank store.partition.polarity)
    (written : ∀ block ∈ before, block ≠ Block.blank store.partition.polarity)
    (same : ∀ index < store.free + before.length,
      current store.active index = contents.lay store.active store.free before store.active index) :
    store.free + before.length = 1 ∨
      current store.active (store.free + before.length - 1) ≠ Block.blank store.partition.polarity := by
  by_cases none : before = []
  · subst none
    rcases ends with first | last
    · exact .inl first
    · right
      rw [same _ (by simp only [List.length_nil]; omega)]
      exact last
  · right
    have some_blocks := List.length_pos_iff.mpr none
    have offset : before.length - 1 < before.length := by omega
    have here := @Contents.lay_inside contents store.active store.free before _ offset
    rw [same _ (by omega), show store.free + before.length - 1 = store.free + (before.length - 1) by omega, here]
    exact written _ (List.getElem_mem offset)

/-- Where blocks were being appended for a file, an interruption leaves a log in order in which that file is set or no
file is changed. -/
theorem InOrder.survives_appending (inOrder : store.InOrder scars contents records)
    (harmless : (store.tape contents).Harmless scars) (used : contents.inUse = some store.active)
    (small : data.length ≤ maxFileSize) {blocks : List Block}
    (added : store.additions contents ufid data = some blocks)
    (room : store.free + blocks.length ≤ store.partition.blocks)
    (appending : Appending store contents blocks torn left current) :
    ∃ files, Survives store.partition (left.scarsAfter torn contents current scars) current files ∧
      (files = Record.files records ∨ files = (Record.files records).set ufid data) := by
  have positive : 1 ≤ store.free := inOrder.settled.positive
  rw [additions, inOrder.listed harmless] at added
  obtain ⟨before, after, rfl, reached, same, clear, last⟩ :=
    appending.parts inOrder.settled.clear (Record.additions_written added)
  obtain ⟨kept, keeps, unique, files⟩ := inOrder.settled.part_additions inOrder.unique small added same
  have still := (appending.stays positive).inUse
  have ends := laid_ends positive inOrder.settled.ends
    (fun block member => Record.additions_written added block (List.mem_append_left _ member)) same
  have settled := keeps.tear clear ends
  refine ⟨Record.files kept, ⟨store.active,
    Tape.ended store.partition.polarity (current store.active) (store.free + before.length), kept, still.trans used,
    ⟨?_, ?_, unique⟩, rfl⟩, files.imp_right And.right⟩
  · rw [scarsAfter, Contents.carried, if_pos still, appending.active, if_pos (still.trans used), reached,
      appending.partition]
    rw [List.append_assoc] at settled
    exact settled
  · rw [List.length_append, ← Nat.add_assoc] at room
    exact Tape.ended_le room last

theorem Rotating.survives (inOrder : store.InOrder scars contents records) (used : contents.inUse = some store.active)
    (rotating : store.Rotating contents records current) (torn : Bool) :
    Survives store.partition (store.scarsAfter torn contents current scars) current (Record.files records) := by
  rcases rotating.inUse used with ⟨still, same⟩ | ⟨turned, free, room, settled⟩
  · refine InOrder.survives ?_ still torn
    rw [Contents.carried, if_pos (still.trans used.symm)]
    exact inOrder.congr (fun position _ => congrFun same position)
  · have apart : some store.active.other ≠ some store.active := by
      rw [Ne, Option.some.injEq]
      exact store.active.other_ne
    refine ⟨store.active.other, free, _, turned, ⟨?_, room, inOrder.unique.live⟩, Record.files_live inOrder.unique.ufids⟩
    rw [scarsAfter, Contents.carried, turned, used, if_neg apart, if_neg apart]
    exact settled

theorem Saving.survives (inOrder : store.InOrder scars contents records)
    (harmless : (store.tape contents).Harmless scars) (used : contents.inUse = some store.active)
    (saving : store.Saving contents ufid data torn left current) :
    ∃ files, Survives store.partition (left.scarsAfter torn contents current scars) current files ∧
      (files = Record.files records ∨ files = (Record.files records).set ufid data) := by
  have listed := inOrder.listed harmless
  have fresh {rotated : Store} {between : Contents} (turn : store.Rotated records rotated between) {later : Contents}
      (stays : rotated.Stays between later) : contents.carried later scars = [] := by
    refine if_neg ?_
    rw [stays.inUse, turn.inUse, turn.active, used, Option.some.injEq]
    exact store.active.other_ne
  cases saving with
  | placing small blocks added room appending =>
      exact inOrder.survives_appending harmless used small added room appending
  | turning torn rotating =>
      rw [listed] at rotating
      exact ⟨_, rotating.survives inOrder used torn, .inl rfl⟩
  | turned turn =>
      rw [listed] at turn
      refine ⟨_, ?_, .inl (Record.files_live inOrder.unique.ufids)⟩
      rw [← turn.partition]
      refine InOrder.survives ?_ turn.inUse false
      rw [fresh turn ⟨rfl, rfl⟩]
      exact turn.inOrder inOrder.unique
  | @placingTurned small rotated between turn blocks added room _ _ _ appending =>
      rw [listed] at turn
      obtain ⟨files, survives, which⟩ := (turn.inOrder inOrder.unique).survives_appending (Tape.harmless_nil _)
        turn.inUse small added room appending
      rw [Record.files_live inOrder.unique.ufids] at which
      refine ⟨files, ?_, which⟩
      have scarred : left.scarsAfter torn contents current scars =
          left.scarsAfter torn between current [] := by
        rw [scarsAfter, fresh turn (appending.stays turn.settled.positive), scarsAfter, Contents.carried, ite_self]
      rw [scarred, ← turn.partition]
      exact survives

end Store

end TwinLog
