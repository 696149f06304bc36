import TwinLog.Proofs.BlockCodec
import TwinLog.Proofs.Records

set_option autoImplicit false

/-!
The written part of a log as a value, and the records in it. A tape keeps its records as long as what is put after its
end starts no unsound chain; making the first block of a record void takes that record out and no other. Blocks where
a write was torn are scars: whatever they hold is not counted among the records.
-/

namespace TwinLog

/-- The blocks of a log up to the index `stop`, which is excluded. -/
structure Tape where
  polarity : Polarity
  blocks : Nat → Block
  stop : Nat

namespace Chain

def extent (chain : Chain) (blocks : Nat → Block) : List Block :=
  (List.range' chain.start chain.count).map blocks

def content (chain : Chain) (blocks : Nat → Block) : List UInt8 :=
  data chain.head (chain.extent blocks)

theorem one_le_count (chain : Chain) : 1 ≤ chain.count :=
  one_le_blocksNeeded (by have := chain.head.size.isLt; rw [size]; omega)

theorem blocksNeeded_content {polarity : Polarity} {chain : Chain} {blocks : Nat → Block}
    (passed : sound polarity chain.head (chain.extent blocks) = true) :
    blocksNeeded (chain.content blocks).length = chain.count := by
  rw [content, length_data passed]
  rfl

theorem length_extent (chain : Chain) (blocks : Nat → Block) : (chain.extent blocks).length = chain.count := by
  rw [extent, List.length_map, List.length_range']

theorem extent_congr (chain : Chain) {blocks blocks' : Nat → Block}
    (same : ∀ index, chain.start ≤ index → index < chain.stop → blocks' index = blocks index) :
    chain.extent blocks' = chain.extent blocks := by
  apply List.map_congr_left
  intro index member
  rw [List.mem_range'_1] at member
  exact same index member.1 (by simp only [stop]; omega)

theorem extent_cons (chain : Chain) (blocks : Nat → Block) :
    chain.extent blocks =
      blocks chain.start :: (List.range' (chain.start + 1) (chain.count - 1)).map blocks := by
  have counted := chain.one_le_count
  rw [extent, show chain.count = chain.count - 1 + 1 by omega, List.range'_succ, List.map_cons]
  rfl

theorem sound_extent (polarity : Polarity) (chain : Chain) (blocks : Nat → Block) :
    sound polarity chain.head (chain.extent blocks) =
      (decide (chain.head.size.val ≤ maxFileSize) &&
        closes polarity ((List.range' (chain.start + 1) (chain.count - 1)).map blocks) 0 (blocks chain.start)) := by
  have counted := chain.one_le_count
  have length : ((List.range' (chain.start + 1) (chain.count - 1)).map blocks).length + 1 =
      blocksNeeded chain.head.size.val := by
    rw [List.length_map, List.length_range', Nat.sub_add_cancel counted]
    rfl
  rw [extent_cons, sound, length, beq_self_eq_true, Bool.and_true]

theorem sound_further {polarity : Polarity} {chain : Chain} {blocks : Nat → Block}
    (passed : sound polarity chain.head (chain.extent blocks) = true) {index : Nat} (after : chain.start < index)
    (before : index < chain.stop) : polarity.kind (blocks index).info = .cont := by
  rw [extent_cons, sound, Bool.and_eq_true] at passed
  apply closes_cont passed.2
  apply List.mem_map_of_mem
  rw [List.mem_range'_1]
  simp only [stop] at before
  omega

end Chain

theorem Block.kind_of_binding {polarity : Polarity} {block : Block} {id : FileId} {ufid : Ufid}
    (bound : block.binding? polarity = some (id, ufid)) : polarity.kind block.info = .entry id := by
  rw [binding?] at bound
  split at bound
  · rename_i owner kind
    split at bound
    · simp only [Option.some.injEq, Prod.mk.injEq] at bound
      rw [kind, bound.1]
    · cases bound
  · cases bound

theorem Block.binding?_none {polarity : Polarity} {block : Block} (other : ∀ id, polarity.kind block.info ≠ .entry id) :
    block.binding? polarity = none := by
  rw [binding?]
  split
  · rename_i id kind
    exact absurd kind (other id)
  · rfl

namespace Polarity

/-- An erased info word reads as that of an entry. -/
theorem kind_erased (polarity : Polarity) : ∃ id, polarity.kind polarity.erased = .entry id := by
  cases polarity
  · exact ⟨63, by decide⟩
  · exact ⟨0, by decide⟩

end Polarity

namespace Block

theorem ne_blank_of_kind {polarity : Polarity} {block : Block} (kind : ∀ id, polarity.kind block.info ≠ .entry id) :
    block ≠ blank polarity := by
  rintro rfl
  obtain ⟨id, erased⟩ := polarity.kind_erased
  refine kind id ?_
  rw [info_eq, getD_blank _ _ (by omega), erased]

theorem binding?_blank (polarity : Polarity) : (blank polarity).binding? polarity = none := by
  cases polarity <;> decide +kernel

theorem ne_blank_of_binding {polarity : Polarity} {block : Block} {binding : FileId × Ufid}
    (bound : block.binding? polarity = some binding) : block ≠ blank polarity := by
  rintro rfl
  rw [binding?_blank] at bound
  cases bound

end Block

namespace Tape

/-- The sound chain that starts at `index`, if there is one. -/
def chainAt? (tape : Tape) (index : Nat) : Option Chain :=
  match tape.polarity.kind (tape.blocks index).info with
  | .start head =>
      if (Chain.mk index head).stop ≤ tape.stop ∧
          Chain.sound tape.polarity head ((Chain.mk index head).extent tape.blocks) = true then
        some ⟨index, head⟩
      else
        none
  | _ => none

/-- What the block at `index`, or the chain that starts there, says. -/
def recordAt (tape : Tape) (index : Nat) : Option Record :=
  match (tape.blocks index).binding? tape.polarity with
  | some (id, ufid) => some (.entry id ufid)
  | none => (tape.chainAt? index).map fun chain => .content chain.head.id (chain.content tape.blocks)

def visible (tape : Tape) (scars : List Nat) (index : Nat) : Option Record :=
  if index ∈ scars then none else tape.recordAt index

def records (tape : Tape) (scars : List Nat) (start : Nat) : List Record :=
  (List.range' start (tape.stop - start)).filterMap (tape.visible scars)

/-- Whether no scar passes for a record. -/
def Harmless (tape : Tape) (scars : List Nat) : Prop :=
  ∀ index ∈ scars, 1 ≤ index → tape.recordAt index = none

instance (tape : Tape) (scars : List Nat) : Decidable (tape.Harmless scars) :=
  inferInstanceAs (Decidable (∀ index ∈ scars, 1 ≤ index → tape.recordAt index = none))

/-- A tape in good order, with what it says. Every block that declares a chain starts a sound one, unless it is a
scar. -/
structure Keeps (tape : Tape) (scars : List Nat) (records : List Record) : Prop where
  positive : 1 ≤ tape.stop
  below : ∀ index ∈ scars, index < tape.stop
  started : ∀ index head, 1 ≤ index → index < tape.stop → index ∉ scars →
    tape.polarity.kind (tape.blocks index).info = .start head → tape.chainAt? index = some ⟨index, head⟩
  listed : tape.records scars 1 = records

/-- A tape in good order that ends where its log does. -/
structure Settled (tape : Tape) (scars : List Nat) (records : List Record) : Prop extends
    tape.Keeps scars records where
  clear : ∀ position, tape.stop ≤ position → tape.blocks position = Block.blank tape.polarity
  ends : tape.stop = 1 ∨ tape.blocks (tape.stop - 1) ≠ Block.blank tape.polarity

section Chains

theorem chainAt?_some {tape : Tape} {index : Nat} {chain : Chain} :
    tape.chainAt? index = some chain ↔
      chain.start = index ∧ tape.polarity.kind (tape.blocks index).info = .start chain.head ∧
        chain.stop ≤ tape.stop ∧ Chain.sound tape.polarity chain.head (chain.extent tape.blocks) = true := by
  obtain ⟨start, declared⟩ := chain
  constructor
  · intro found
    rw [chainAt?] at found
    split at found
    · rename_i head kind
      split at found
      · rename_i passed
        simp only [Option.some.injEq, Chain.mk.injEq] at found
        obtain ⟨rfl, rfl⟩ := found
        exact ⟨rfl, kind, passed⟩
      · cases found
    · cases found
  · rintro ⟨rfl, kind, passed⟩
    rw [chainAt?, kind]
    exact if_pos passed

theorem chainAt?_declared {tape : Tape} {index : Nat} {head : Start} {chain : Chain}
    (kind : tape.polarity.kind (tape.blocks index).info = .start head) (found : tape.chainAt? index = some chain) :
    chain = ⟨index, head⟩ := by
  obtain ⟨start, declared⟩ := chain
  obtain ⟨first, started, -⟩ := chainAt?_some.mp found
  rw [kind, Kind.start.injEq] at started
  simp only at first started
  rw [first, started]

theorem chainAt?_none {tape : Tape} {index : Nat}
    (other : ∀ head, tape.polarity.kind (tape.blocks index).info ≠ .start head) : tape.chainAt? index = none := by
  rw [chainAt?]
  split
  · rename_i head kind
    exact absurd kind (other head)
  · rfl

theorem recordAt_chain {tape : Tape} {index : Nat} {chain : Chain} (found : tape.chainAt? index = some chain) :
    tape.recordAt index = some (.content chain.head.id (chain.content tape.blocks)) := by
  obtain ⟨-, kind, -⟩ := chainAt?_some.mp found
  rw [recordAt, Block.binding?_none (by rw [kind]; intro id same; cases same), found]
  rfl

theorem recordAt_cont {tape : Tape} {index : Nat} (kind : tape.polarity.kind (tape.blocks index).info = .cont) :
    tape.recordAt index = none := by
  rw [recordAt, Block.binding?_none (by rw [kind]; intro id same; cases same),
    chainAt?_none (by rw [kind]; intro head same; cases same)]
  rfl

theorem recordAt_entry {tape : Tape} {index : Nat} {id : FileId} {ufid : Ufid}
    (bound : (tape.blocks index).binding? tape.polarity = some (id, ufid)) :
    tape.recordAt index = some (.entry id ufid) := by
  rw [recordAt, bound]

theorem recordAt_some {tape : Tape} {index : Nat} {record : Record} (found : tape.recordAt index = some record) :
    (∃ id ufid, (tape.blocks index).binding? tape.polarity = some (id, ufid) ∧ record = .entry id ufid) ∨
      ∃ chain, tape.chainAt? index = some chain ∧ record = .content chain.head.id (chain.content tape.blocks) := by
  rw [recordAt] at found
  split at found
  · rename_i id ufid bound
    exact .inl ⟨id, ufid, bound, (Option.some.inj found).symm⟩
  · obtain ⟨chain, chained, same⟩ := Option.map_eq_some_iff.mp found
    exact .inr ⟨chain, chained, same.symm⟩

theorem recordAt_unbound {tape : Tape} {index : Nat}
    (unbound : (tape.blocks index).binding? tape.polarity = none) {record : Record}
    (found : tape.recordAt index = some record) : ∃ id data, record = .content id data := by
  rcases recordAt_some found with ⟨id, ufid, bound, -⟩ | ⟨chain, -, same⟩
  · rw [unbound] at bound
    cases bound
  · exact ⟨_, _, same⟩

theorem latest_absent {tape : Tape} {index : Nat} {id : FileId}
    (absent : (tape.chainAt? index).filter (fun chain => chain.head.id = id) = none) :
    Record.latest id (tape.recordAt index).toList = none := by
  cases shown : tape.recordAt index with
  | none => rfl
  | some record =>
      rcases recordAt_some shown with ⟨_, _, -, rfl⟩ | ⟨chain, there, rfl⟩
      · rfl
      · have apart := Option.filter_eq_none_iff.mp absent chain there
        rw [Option.toList_some, Record.latest, if_neg (by simpa using apart)]
        rfl

theorem kind_of_record {tape : Tape} {index : Nat} {record : Record} (found : tape.recordAt index = some record) :
    tape.polarity.kind (tape.blocks index).info ≠ .cont := by
  intro kind
  rw [recordAt_cont kind] at found
  cases found

/-- A chain is the same on every tape that has its blocks. -/
theorem chainAt?_congr {tape tape' : Tape} (polarity : tape'.polarity = tape.polarity) {index : Nat} {chain : Chain}
    (found : tape.chainAt? index = some chain) (room : chain.stop ≤ tape'.stop)
    (same : ∀ position, index ≤ position → position < chain.stop → tape'.blocks position = tape.blocks position) :
    tape'.chainAt? index = some chain ∧ chain.content tape'.blocks = chain.content tape.blocks := by
  obtain ⟨rfl, kind, -, passed⟩ := chainAt?_some.mp found
  have counted := chain.one_le_count
  have extent := chain.extent_congr same
  have first := same chain.start (Nat.le_refl _) (by simp only [Chain.stop]; omega)
  refine ⟨chainAt?_some.mpr ⟨rfl, ?_, room, ?_⟩, ?_⟩
  · rw [polarity, first, kind]
  · rw [polarity, extent, passed]
  · rw [Chain.content, extent, Chain.content]

end Chains

section Lists

theorem records_done {tape : Tape} (scars : List Nat) {start : Nat} (late : tape.stop ≤ start) :
    tape.records scars start = [] := by
  rw [records, Nat.sub_eq_zero_of_le late]
  rfl

theorem range'_split {start middle stop : Nat} (first : start ≤ middle) (last : middle ≤ stop) :
    List.range' start (stop - start) = List.range' start (middle - start) ++ List.range' middle (stop - middle) := by
  have joined := List.range'_append_1 (s := start) (m := middle - start) (n := stop - middle)
  rw [show start + (middle - start) = middle by omega,
    show middle - start + (stop - middle) = stop - start by omega] at joined
  exact joined.symm

theorem records_split {tape : Tape} (scars : List Nat) {start index : Nat} (from_start : start ≤ index)
    (inside : index ≤ tape.stop) :
    tape.records scars start =
      (List.range' start (index - start)).filterMap (tape.visible scars) ++ tape.records scars index := by
  rw [records, records, ← List.filterMap_append, range'_split from_start inside]

theorem records_step (tape : Tape) (scars : List Nat) {start : Nat} (inside : start < tape.stop) :
    tape.records scars start = (tape.visible scars start).toList ++ tape.records scars (start + 1) := by
  rw [records_split scars (Nat.le_succ start) inside, Nat.succ_sub Nat.le.refl, Nat.sub_self]
  rw [List.range'_one]
  cases found : tape.visible scars start <;> simp [found]

/-- Nothing is said by the further blocks of a chain. -/
theorem records_skip {tape : Tape} (scars : List Nat) {index : Nat} {chain : Chain}
    (found : tape.chainAt? index = some chain) :
    tape.records scars (index + 1) = tape.records scars chain.stop := by
  obtain ⟨rfl, -, room, passed⟩ := chainAt?_some.mp found
  have counted := chain.one_le_count
  have after : chain.start + 1 ≤ chain.stop := by simp only [Chain.stop]; omega
  rw [records_split scars after room]
  have none : (List.range' (chain.start + 1) (chain.stop - (chain.start + 1))).filterMap (tape.visible scars) = [] := by
    rw [List.filterMap_eq_nil_iff]
    intro position member
    rw [List.mem_range'_1] at member
    rw [visible]
    split
    · rfl
    · exact recordAt_cont (Chain.sound_further passed (by omega) (by omega))
  rw [none, List.nil_append]

@[simp] theorem visible_nil (tape : Tape) (index : Nat) : tape.visible [] index = tape.recordAt index :=
  if_neg List.not_mem_nil

theorem entries_visible (tape : Tape) (positions : List Nat) :
    Record.entries (positions.filterMap (tape.visible [])) =
      positions.filterMap fun index => (tape.blocks index).binding? tape.polarity := by
  induction positions with
  | nil => rfl
  | cons index rest ih =>
      rw [List.filterMap_cons, List.filterMap_cons, visible_nil]
      cases bound : (tape.blocks index).binding? tape.polarity with
      | some binding =>
          rw [recordAt_entry bound, Record.entries, ih]
      | none =>
          cases shown : tape.recordAt index with
          | none => exact ih
          | some record =>
              obtain ⟨id, data, rfl⟩ := recordAt_unbound bound shown
              exact ih

/-- The bindings in a log are those of its sound entry blocks. -/
theorem entries_records (tape : Tape) (start : Nat) :
    Record.entries (tape.records [] start) =
      (List.range' start (tape.stop - start)).filterMap fun index => (tape.blocks index).binding? tape.polarity :=
  entries_visible tape _

theorem harmless_nil (tape : Tape) : tape.Harmless [] := by
  intro index member
  cases member

/-- Scars that do no harm can as well be left out of account. -/
theorem Harmless.records {tape : Tape} {scars : List Nat} (harmless : tape.Harmless scars) {start : Nat}
    (positive : 1 ≤ start) : tape.records [] start = tape.records scars start := by
  apply List.filterMap_congr
  intro index member
  rw [List.mem_range'_1] at member
  rw [visible, if_neg List.not_mem_nil, visible]
  split
  · rename_i scarred
    exact harmless index scarred (by omega)
  · rfl

/-- The records of a tape take no more blocks than there are. -/
theorem weights_records (tape : Tape) (scars : List Nat) (start : Nat) :
    Record.weights (tape.records scars start) ≤ tape.stop - start := by
  by_cases inside : start < tape.stop
  · rw [records_step _ scars inside]
    cases found : tape.visible scars start with
    | none =>
        have later := weights_records tape scars (start + 1)
        rw [Option.toList_none, List.nil_append]
        omega
    | some record =>
        have shown : tape.recordAt start = some record := by
          rw [visible] at found
          split at found
          · cases found
          · exact found
        rw [Option.toList_some, List.singleton_append, Record.weights]
        rcases recordAt_some shown with ⟨id, ufid, -, rfl⟩ | ⟨chain, chained, rfl⟩
        · have later := weights_records tape scars (start + 1)
          simp only [Record.weight]
          omega
        · obtain ⟨first, -, room, passed⟩ := chainAt?_some.mp chained
          have counted := chain.one_le_count
          have stop : chain.stop = start + chain.count := by rw [Chain.stop, first]
          have later := weights_records tape scars chain.stop
          have size := Chain.blocksNeeded_content passed
          rw [records_skip scars chained]
          simp only [Record.weight, size]
          omega
  · rw [records_done scars (by omega)]
    exact Nat.zero_le _
termination_by tape.stop - start
decreasing_by all_goals omega

theorem latest_isSome {tape : Tape} {scars : List Nat} {start index : Nat} (from_start : start ≤ index)
    (inside : index < tape.stop) (clear : index ∉ scars) {id : FileId} {data : List UInt8}
    (found : tape.recordAt index = some (.content id data)) :
    (Record.latest id (tape.records scars start)).isSome = true := by
  rw [records_split scars from_start (by omega), Record.latest_append, records_step _ scars inside, visible,
    if_neg clear, found, Option.toList_some, List.singleton_append, Record.latest, if_pos rfl]
  cases Record.latest id (tape.records scars (index + 1)) <;> rfl

end Lists

end Tape

end TwinLog
