import TwinLog.Proofs.InfoWords
import TwinLog.Proofs.Reading
import TwinLog.Store

set_option autoImplicit false

namespace TwinLog

namespace Contents

/-- The blocks after others were put into a log from the index `free` on. -/
def lay (contents : Contents) (log : Log) : Nat → List Block → Contents
  | _, [] => contents
  | free, block :: rest => (contents.put log free block.toList).lay log (free + 1) rest

variable {contents : Contents} {log : Log}

theorem lay_apart (free : Nat) (blocks : List Block) {other : Log} {position : Nat}
    (apart : other ≠ log ∨ position < free ∨ free + blocks.length ≤ position) :
    contents.lay log free blocks other position = contents other position := by
  induction blocks generalizing contents free with
  | nil => rfl
  | cons block rest ih =>
      rw [List.length_cons] at apart
      have here : ¬ (other = log ∧ position = free) := by
        rintro ⟨rfl, rfl⟩
        rcases apart with differ | outside
        · exact differ rfl
        · omega
      have later : other ≠ log ∨ position < free + 1 ∨ free + 1 + rest.length ≤ position :=
        apart.imp_right fun outside => by omega
      rw [lay, ih (free + 1) later, put_apart _ _ here]

theorem lay_other (free : Nat) (blocks : List Block) {other : Log} (apart : other ≠ log) :
    contents.lay log free blocks other = contents other := by
  funext position
  exact lay_apart free blocks (.inl apart)

theorem lay_first (free : Nat) (block : Block) (rest : List Block) :
    contents.lay log free (block :: rest) log free = block := by
  rw [lay, lay_apart (free + 1) rest (.inr (.inl (Nat.lt_succ_self free))), put_same, Block.overlay_toList]

theorem lay_inside (free : Nat) (blocks : List Block) {offset : Nat} (inside : offset < blocks.length) :
    contents.lay log free blocks log (free + offset) = blocks[offset] := by
  induction blocks generalizing contents free offset with
  | nil => exact absurd inside (Nat.not_lt_zero _)
  | cons block rest ih =>
      cases offset with
      | zero => exact lay_first free block rest
      | succ offset =>
          rw [List.length_cons] at inside
          rw [lay, show free + (offset + 1) = free + 1 + offset by omega, ih (free + 1) (by omega)]
          rfl

theorem lay_append (free : Nat) (before after : List Block) :
    contents.lay log free (before ++ after) = (contents.lay log free before).lay log (free + before.length) after := by
  induction before generalizing contents free with
  | nil => rfl
  | cons block rest ih =>
      rw [List.cons_append, lay, lay, ih, List.length_cons,
        show free + 1 + rest.length = free + (rest.length + 1) by omega]

theorem map_lay (free : Nat) (blocks : List Block) :
    (List.range' free blocks.length).map (contents.lay log free blocks log) = blocks := by
  apply List.ext_getElem
  · simp
  · intro offset inside outside
    rw [List.getElem_map, List.getElem_range', Nat.one_mul, lay_inside free blocks outside]

theorem lay_keeps {rest : Contents → Prop} (kept : ∀ current index words, 1 ≤ index → rest current →
      rest (current.put log index words)) (now : rest contents) (free : Nat) (late : 1 ≤ free) (blocks : List Block) :
    rest (contents.lay log free blocks) := by
  induction blocks generalizing contents free with
  | nil => exact now
  | cons block blocks ih => exact ih (kept _ _ _ late now) (free + 1) (by omega)

end Contents

namespace Tape

variable {polarity : Polarity} {contents : Contents} {log : Log} {free : Nat} {scars : List Nat}
  {records : List Record}

/-- An entry put at the end of a log, where everything after that is erased, is one more record. -/
theorem Keeps.lay_entry (keeps : Keeps ⟨polarity, contents log, free⟩ scars records)
    (clear : ∀ position, free < position → contents log position = Block.blank polarity) {block : Block}
    {id : FileId} {ufid : Ufid} (bound : block.binding? polarity = some (id, ufid)) :
    Settled ⟨polarity, contents.lay log free [block] log, free + 1⟩ scars (records ++ [.entry id ufid]) := by
  have put : contents.lay log free [block] log free = block := Contents.lay_first free block []
  refine ⟨keeps.append_entry (by rfl) (by rfl) ?_ ?_, ?_, .inr ?_⟩
  · intro index before
    exact Contents.lay_apart free [block] (.inr (.inl before))
  · simp only [put]
    exact bound
  · intro position late
    simp only at late
    rw [← clear position (by omega)]
    exact Contents.lay_apart free [block] (.inr (.inr late))
  · simp only [Nat.add_sub_cancel, put]
    exact Block.ne_blank_of_binding bound

/-- A sound chain put at the end of a log, where everything after that is erased, is one more record. -/
theorem Keeps.lay_chain (keeps : Keeps ⟨polarity, contents log, free⟩ scars records)
    (clear : ∀ position, free < position → contents log position = Block.blank polarity) {first : Block}
    {rest : List Block} {head : Start} (kind : polarity.kind first.info = .start head)
    (passed : Chain.sound polarity head (first :: rest) = true) :
    Settled ⟨polarity, contents.lay log free (first :: rest) log, free + (first :: rest).length⟩ scars
      (records ++ [.content head.id (Chain.data head (first :: rest))]) := by
  have length : (first :: rest).length = blocksNeeded head.size.val := by
    simp only [Chain.sound, Bool.and_eq_true, beq_iff_eq] at passed
    exact passed.1.2
  have extent : (Chain.mk free head).extent (contents.lay log free (first :: rest) log) = first :: rest := by
    have laid := @Contents.map_lay contents log free (first :: rest)
    rw [length] at laid
    exact laid
  have put : contents.lay log free (first :: rest) log free = first := Contents.lay_first free first rest
  have added : Keeps ⟨polarity, contents.lay log free (first :: rest) log, free + (first :: rest).length⟩ scars
      (records ++ [.content head.id
        ((Chain.mk free head).content (contents.lay log free (first :: rest) log))]) := by
    refine keeps.append_chain (by rfl) (by rw [length]; rfl) ?_ (by simp only [put]; exact kind)
      (by simp only [extent]; exact passed)
    intro index before
    exact Contents.lay_apart free _ (.inr (.inl before))
  rw [Chain.content, extent] at added
  refine ⟨added, ?_, .inr ?_⟩
  · intro position late
    simp only at late
    rw [← clear position (by rw [List.length_cons] at late; omega)]
    exact Contents.lay_apart free _ (.inr (.inr late))
  · simp only [List.length_cons, ← Nat.add_assoc, Nat.add_sub_cancel]
    rw [Contents.lay_inside free (first :: rest) (by simp)]
    apply Block.ne_blank_of_kind
    intro id entry
    rw [Chain.sound, Bool.and_eq_true] at passed
    rcases List.mem_cons.mp (List.getElem_mem (show rest.length < (first :: rest).length by simp)) with same | further
    · rw [same, kind] at entry
      cases entry
    · rw [Chain.closes_cont passed.2 _ further] at entry
      cases entry

end Tape

theorem Polarity.startWord?_headOf (polarity : Polarity) (id : FileId) {data : List UInt8}
    (small : data.length ≤ maxFileSize) :
    polarity.startWord? id data.length (restoreBits data).toNat = .ok (polarity.startWord (Chain.headOf id data)) := by
  have made := polarity.startWord?_fields (Chain.headOf id data)
  rw [Chain.headOf_size small] at made
  exact made

namespace Chain

def fresh (polarity : Polarity) (id : FileId) (data : List UInt8) : List Block :=
  encode polarity (polarity.startWord (headOf id data)) data

theorem length_fresh (polarity : Polarity) (id : FileId) (data : List UInt8) :
    (fresh polarity id data).length = blocksNeeded data.length :=
  length_encode _ _ _

theorem kind_fresh {polarity : Polarity} {id : FileId} {data : List UInt8} {block : Block}
    (member : block ∈ fresh polarity id data) (owner : FileId) : polarity.kind block.info ≠ .entry owner := by
  have some_blocks := List.length_pos_of_mem member
  rw [length_fresh] at some_blocks
  obtain ⟨first, rest, laid, info, further⟩ :=
    encode_cons polarity (polarity.startWord (headOf id data)) some_blocks
  intro entry
  rw [fresh, laid] at member
  rcases List.mem_cons.mp member with rfl | later
  · rw [info, Polarity.kind_startWord] at entry
    cases entry
  · rw [further block later] at entry
    cases entry

end Chain

/-- The blocks that are appended to make `data` the content of the file `ufid`, unless every file id is taken. -/
def Record.additions (polarity : Polarity) (records : List Record) (ufid : Ufid) (data : List UInt8) :
    Option (List Block) :=
  match owner? records ufid with
  | some id => some (Chain.fresh polarity id data)
  | none =>
      (FileId.lowestUnused ((entries records).map Prod.fst)).map fun id =>
        Block.entry polarity id ufid :: Chain.fresh polarity id data

def Lookup.additions (polarity : Polarity) (ufid : Ufid) (data : List UInt8) : Lookup → Option (List Block)
  | .found id _ => some (Chain.fresh polarity id data)
  | .vacant free => free.map fun id => Block.entry polarity id ufid :: Chain.fresh polarity id data

namespace Tape

variable {polarity : Polarity} {contents : Contents} {log : Log} {free : Nat} {scars : List Nat}
  {records : List Record}

/-- The bindings in a log after blocks were appended are those from before and those of the blocks. -/
theorem entries_lay (positive : 1 ≤ free) (blocks : List Block) :
    Record.entries (Tape.records ⟨polarity, contents.lay log free blocks log, free + blocks.length⟩ [] 1) =
      Record.entries (Tape.records ⟨polarity, contents log, free⟩ [] 1) ++
        blocks.filterMap (Block.binding? polarity) := by
  have before : (List.range' 1 (free - 1)).filterMap
        (fun index => (contents.lay log free blocks log index).binding? polarity) =
      (List.range' 1 (free - 1)).filterMap (fun index => (contents log index).binding? polarity) := by
    apply List.filterMap_congr
    intro index member
    rw [List.mem_range'_1] at member
    rw [Contents.lay_apart free blocks (.inr (.inl (by omega)))]
  have after : (List.range' free blocks.length).filterMap
        (fun index => (contents.lay log free blocks log index).binding? polarity) =
      blocks.filterMap (Block.binding? polarity) := by
    have laid := congrArg (List.filterMap (Block.binding? polarity)) (@Contents.map_lay contents log free blocks)
    rw [List.filterMap_map] at laid
    exact laid
  rw [entries_records, entries_records, range'_split positive (Nat.le_add_right free _), List.filterMap_append, before,
    Nat.add_sub_cancel_left, after]

/-- The blocks of a new chain that are there make a sound chain with the content. -/
theorem chainAt?_fresh {tape : Tape} {start : Nat} {id : FileId} {data : List UInt8} (small : data.length ≤ maxFileSize)
    (laid : (Chain.mk start (Chain.headOf id data)).extent tape.blocks = Chain.fresh tape.polarity id data)
    (room : (Chain.mk start (Chain.headOf id data)).stop ≤ tape.stop) :
    tape.chainAt? start = some ⟨start, Chain.headOf id data⟩ ∧
      (Chain.mk start (Chain.headOf id data)).content tape.blocks = data := by
  obtain ⟨first, rest, encoded, info, -⟩ :=
    Chain.encode_cons tape.polarity (tape.polarity.startWord (Chain.headOf id data)) (Chain.one_le_of_small small)
  have fresh : Chain.fresh tape.polarity id data = first :: rest := encoded
  have begins : tape.blocks start = first := by
    rw [fresh, Chain.extent_cons, List.cons.injEq] at laid
    exact laid.1
  have passed := Chain.sound_encode tape.polarity (tape.polarity.startWord (Chain.headOf id data)) id data small
  refine ⟨chainAt?_some.mpr ⟨rfl, ?_, room, ?_⟩, ?_⟩
  · rw [begins, info, Polarity.kind_startWord]
  · rw [laid]
    exact passed
  · rw [Chain.content, laid]
    exact Chain.data_encode tape.polarity (tape.polarity.startWord (Chain.headOf id data)) id data small

/-- A new chain put at the end of a log, where everything after that is erased, is one more record. -/
theorem Keeps.lay_fresh (keeps : Keeps ⟨polarity, contents log, free⟩ scars records)
    (clear : ∀ position, free < position → contents log position = Block.blank polarity) (id : FileId)
    {data : List UInt8} (small : data.length ≤ maxFileSize) :
    Settled ⟨polarity, contents.lay log free (Chain.fresh polarity id data) log,
      free + (Chain.fresh polarity id data).length⟩ scars (records ++ [.content id data]) := by
  obtain ⟨first, rest, laid, info, -⟩ :=
    Chain.encode_cons polarity (polarity.startWord (Chain.headOf id data)) (Chain.one_le_of_small small)
  have passed := Chain.sound_encode polarity (polarity.startWord (Chain.headOf id data)) id data small
  have content := Chain.data_encode polarity (polarity.startWord (Chain.headOf id data)) id data small
  have kind : polarity.kind first.info = .start (Chain.headOf id data) := by
    rw [info, Polarity.kind_startWord]
  rw [laid] at passed content
  have added := keeps.lay_chain clear kind passed
  rw [content] at added
  rw [Chain.fresh, laid]
  exact added

/-- What is appended to make `data` the content of a file does so, and no other file changes. -/
theorem Keeps.lay_additions (keeps : Keeps ⟨polarity, contents log, free⟩ scars records)
    (unique : Record.Unique records)
    (clear : ∀ position, free < position → contents log position = Block.blank polarity) {ufid : Ufid}
    {data : List UInt8} (small : data.length ≤ maxFileSize) {blocks : List Block}
    (added : Record.additions polarity records ufid data = some blocks) :
    ∃ records', Settled ⟨polarity, contents.lay log free blocks log, free + blocks.length⟩ scars records' ∧
      Record.Unique records' ∧ Record.files records' = (Record.files records).set ufid data ∧
      (Record.Backed records → Record.Backed records') := by
  rw [Record.additions] at added
  cases owner : Record.owner? records ufid with
  | some id =>
      rw [owner, Option.some.injEq] at added
      subst added
      have bound := Record.owner?_some owner
      have files := Record.files_append_content unique bound data
      refine ⟨_, keeps.lay_fresh clear id small, unique.append_content id data, files, ?_⟩
      intro backed binding member
      rw [files, Files.set]
      split
      · rfl
      · rw [Record.entries_append, Record.entries, Record.entries, List.append_nil] at member
        exact backed binding member
  | none =>
      rw [owner, Option.map_eq_some_iff] at added
      obtain ⟨id, unused, rfl⟩ := added
      have freshUfid := Record.owner?_none owner
      have freshId := FileId.lowestUnused_not_mem unused
      have more := unique.append_entry freshId freshUfid
      -- the entry ends the log before the chain does
      have one := keeps.lay_entry clear (Block.binding?_entry polarity id ufid)
      have both := one.toKeeps.lay_fresh (fun position late => one.clear position (Nat.le_of_lt late)) id small
      have bound : (id, ufid) ∈ Record.entries (records ++ [.entry id ufid]) := by
        rw [Record.entries_append]
        exact List.mem_append_right _ List.mem_cons_self
      have files := Record.files_append_content more bound data
      rw [Record.files_append_entry] at files
      refine ⟨_, ?_, more.append_content id data, files, ?_⟩
      · rw [List.length_cons, show free + ((Chain.fresh polarity id data).length + 1) =
          free + 1 + (Chain.fresh polarity id data).length by omega]
        exact both
      · intro backed binding member
        rw [files, Files.set]
        split
        · rfl
        · rename_i apart
          rw [Record.entries_append, Record.entries_append] at member
          simp only [Record.entries, List.append_nil, List.mem_append, List.mem_singleton] at member
          rcases member with old | rfl
          · exact backed binding old
          · exact absurd rfl apart

end Tape

namespace Store

variable {store : Store} {contents : Contents} {ufid : Ufid}

def tape (store : Store) (contents : Contents) : Tape :=
  store.journal.tape contents

def additions (store : Store) (contents : Contents) (ufid : Ufid) (data : List UInt8) : Option (List Block) :=
  Record.additions store.partition.polarity ((store.tape contents).records [] 1) ufid data

/-- Whether the block that a save would put down first in its log, without a rotation, can be programmed there. -/
def TakesFirst (store : Store) (contents : Contents) (ufid : Ufid) (data : List UInt8) : Prop :=
  ∀ block rest, store.additions contents ufid data = some (block :: rest) →
    store.free + (rest.length + 1) ≤ store.partition.blocks →
    Block.Takes store.partition.polarity (contents store.active store.free) block

theorem additions_located {answer : Lookup} (located : (store.tape contents).Locates ufid 1 [] answer)
    (data : List UInt8) :
    store.additions contents ufid data = answer.additions store.partition.polarity ufid data := by
  cases answer with
  | found id index => rw [additions, Record.additions, located.owner_found, Lookup.additions]
  | vacant free =>
      rw [additions, Record.additions, located.owner_vacant.1, ← located.owner_vacant.2, Lookup.additions]

theorem append_bind {α : Type} (store : Store) (block : Block) (next : Store → Script Store α) :
    store.append block >>= next =
      store.partition.append store.active store.free block >>= fun free =>
        .keep { store with free } (next { store with free }) :=
  Script.bind_assoc _ _ _

theorem appendContent_eq (store : Store) (id : FileId) {data : List UInt8} (small : data.length ≤ maxFileSize) :
    store.appendContent id data = store.appendAll (Chain.fresh store.partition.polarity id data) := by
  rw [appendContent, Polarity.startWord?_headOf _ _ small]
  rfl

/-- To place a file is to look for its entry and append the blocks that are called for, if there is room for them. -/
theorem place_eq (store : Store) (ufid : Ufid) {data : List UInt8} (small : data.length ≤ maxFileSize) :
    store.place ufid data = store.journal.lookup ufid >>= fun answer =>
      match answer.additions store.partition.polarity ufid data with
      | none => Script.fail .noFileIds
      | some blocks =>
          if blocks.length ≤ store.usage.free then
            store.appendAll blocks >>= fun _ => pure true
          else
            pure false := by
  rw [place]
  apply congrArg (store.journal.lookup ufid >>= ·)
  funext answer
  match answer with
  | .vacant none => rfl
  | .found id index =>
      simp only [Lookup.additions, Chain.length_fresh, appendContent_eq store id small]
      exact if_congr Iff.rfl (Script.bind_assoc _ _ _) rfl
  | .vacant (some id) =>
      simp only [Lookup.additions, Option.map_some, List.length_cons, Chain.length_fresh, appendAll]
      refine if_congr Iff.rfl ?_ rfl
      rw [Script.bind_assoc, append_bind, append_bind]
      apply congrArg (store.partition.append store.active store.free _ >>= ·)
      funext free
      apply congrArg (Script.keep _)
      rw [appendContent_eq _ id small]
      exact Script.bind_assoc _ _ _

end Store

/-- What is left where the appending of `blocks` was interrupted: the blocks before, and of the next one some words if
the flag is set. The store at hand may not know of the last block yet. -/
inductive Appending (store : Store) (contents : Contents) (blocks : List Block) : Bool → Store → Contents → Prop
  | whole (before after : List Block) (split : blocks = before ++ after) (kept : Nat)
      (near : kept = store.free + before.length ∨ before ≠ [] ∧ kept + 1 = store.free + before.length) :
      Appending store contents blocks false { store with free := kept } (contents.lay store.active store.free before)
  | torn (before : List Block) (block : Block) (after : List Block) (split : blocks = before ++ block :: after)
      (count : Nat) (short : count < 8) :
      Appending store contents blocks true { store with free := store.free + before.length }
        ((contents.lay store.active store.free before).put store.active (store.free + before.length)
          (block.toList.take count))

namespace Appending

variable {store left : Store} {contents current : Contents} {blocks : List Block} {torn : Bool}

theorem start (store : Store) (contents : Contents) : Appending store contents blocks false store contents :=
  .whole [] blocks rfl store.free (.inl rfl)

theorem finish (store : Store) (contents : Contents) (blocks : List Block) :
    Appending store contents blocks false { store with free := store.free + blocks.length }
      (contents.lay store.active store.free blocks) :=
  .whole blocks [] (List.append_nil blocks).symm _ (.inl rfl)

theorem append_right (appending : Appending store contents blocks torn left current) (more : List Block) :
    Appending store contents (blocks ++ more) torn left current := by
  cases appending with
  | whole before after split kept near =>
      exact .whole before (after ++ more) (by rw [split, List.append_assoc]) kept near
  | torn before block after split count short =>
      exact .torn before block (after ++ more) (by rw [split, List.append_assoc, List.cons_append]) count short

theorem later {block : Block} {rest : List Block}
    (appending : Appending { store with free := store.free + 1 }
      (contents.put store.active store.free block.toList) rest torn left current) :
    Appending store contents (block :: rest) torn left current := by
  cases appending with
  | whole before after split kept near =>
      refine .whole (block :: before) after (by rw [split, List.cons_append]) kept ?_
      simp only [List.length_cons] at near ⊢
      rcases near with all | ⟨-, last⟩
      · exact .inl (by omega)
      · exact .inr ⟨List.cons_ne_nil _ _, by omega⟩
  | torn before next after split count short =>
      have further : Appending store contents (block :: rest) true _ _ :=
        .torn (block :: before) next after (by rw [split, List.cons_append]) count short
      rw [List.length_cons, show store.free + (before.length + 1) = store.free + 1 + before.length by omega] at further
      exact further

end Appending

namespace Partition

variable {cut : Bool → Store → Contents → Prop}

variable {store : Store} {contents : Contents}

theorem achieves_grow {result : Except StoreError Store → Store → Contents → Prop} {block : Block}
    (room : store.free < store.partition.blocks)
    (taken : Block.Takes store.partition.polarity (contents store.active store.free) block)
    (cuts : ∀ torn left current, Appending store contents [block] torn left current → cut torn left current)
    (next : result (.ok { store with free := store.free + 1 }) { store with free := store.free + 1 }
      (contents.put store.active store.free block.toList)) :
    store.partition.Achieves result cut (store.append block) store contents := by
  have known : cut false { store with free := store.free + 1 } (contents.put store.active store.free block.toList) :=
    cuts _ _ _ (.later (.start _ _))
  have unknown : cut false store (contents.put store.active store.free block.toList) :=
    cuts _ _ _ (.whole [block] [] rfl store.free (.inr ⟨List.cons_ne_nil _ _, rfl⟩))
  refine Achieves.bind (achieves_append room taken (cuts _ _ _ (.start _ _)) ?_ unknown ?_)
  · intro count short
    exact cuts _ _ _ (.torn [] block [] rfl count short)
  · exact Achieves.bind (achieves_leave unknown known (achieves_pure known next))

/-- Blocks are appended one after the other, if there is room and each can be programmed where it goes. -/
theorem achieves_appendAll {result : Except StoreError Store → Store → Contents → Prop} (blocks : List Block)
    (room : store.free + blocks.length ≤ store.partition.blocks)
    (taken : ∀ offset block, blocks[offset]? = some block →
      Block.Takes store.partition.polarity (contents store.active (store.free + offset)) block)
    (cuts : ∀ torn left current, Appending store contents blocks torn left current → cut torn left current)
    (next : result (.ok { store with free := store.free + blocks.length })
      { store with free := store.free + blocks.length } (contents.lay store.active store.free blocks)) :
    store.partition.Achieves result cut (store.appendAll blocks) store contents := by
  induction blocks generalizing store contents with
  | nil => exact achieves_pure (cuts _ _ _ (.start _ _)) next
  | cons block rest ih =>
      rw [List.length_cons] at room
      refine Achieves.bind (achieves_grow (by omega) (taken 0 block rfl) ?_ ?_)
      · intro torn left current appending
        exact cuts torn left current (appending.append_right rest)
      · change ({ store with free := store.free + 1 } : Store).partition.Achieves _ _ _ _ _
        refine ih (by simp only; omega) ?_ ?_ ?_
        · intro offset following found
          rw [Contents.put_apart _ _ (by rintro ⟨-, same⟩; simp only at same; omega)]
          simp only [Nat.add_assoc, Nat.add_comm 1 offset]
          exact taken (offset + 1) following found
        · intro torn left current appending
          exact cuts torn left current appending.later
        · simp only [List.length_cons, Contents.lay,
            show store.free + (rest.length + 1) = store.free + 1 + rest.length by omega] at next ⊢
          exact next

/-- The content of a file, and its entry if it has none, are appended if there is room for them. -/
theorem achieves_place {result : Except StoreError Bool → Store → Contents → Prop} {ufid : Ufid} {data : List UInt8}
    (room : store.free ≤ store.partition.blocks) (small : data.length ≤ maxFileSize)
    (clear : ∀ position, store.free < position →
      contents store.active position = Block.blank store.partition.polarity)
    (taken : store.TakesFirst contents ufid data) (here : cut false store contents)
    (cuts : ∀ blocks, store.additions contents ufid data = some blocks →
      store.free + blocks.length ≤ store.partition.blocks →
      ∀ torn left current, Appending store contents blocks torn left current → cut torn left current)
    (full : store.additions contents ufid data = none → result (.error .noFileIds) store contents)
    (fits : ∀ blocks, store.additions contents ufid data = some blocks →
      store.free + blocks.length ≤ store.partition.blocks →
      result (.ok true) { store with free := store.free + blocks.length }
        (contents.lay store.active store.free blocks))
    (tight : ∀ blocks, store.additions contents ufid data = some blocks →
      store.partition.blocks < store.free + blocks.length → result (.ok false) store contents) :
    store.partition.Achieves result cut (store.place ufid data) store contents := by
  rw [Store.place_eq store ufid small]
  apply Achieves.bind
  change store.journal.partition.Achieves _ _ _ _ _
  apply achieves_lookup room here
  intro answer located
  have same := Store.additions_located located data
  have left : store.usage.free = store.partition.blocks - store.free := rfl
  simp only
  split
  · rename_i none
    exact achieves_fail here (full (same.trans none))
  · rename_i blocks called
    have added := same.trans called
    split
    · rename_i enough
      have bound : store.free + blocks.length ≤ store.partition.blocks := by omega
      apply Achieves.bind
      apply achieves_appendAll blocks bound _ (cuts blocks added bound)
      · exact achieves_pure (cuts blocks added bound _ _ _ (.finish _ _ _)) (fits blocks added bound)
      · intro offset block found
        cases offset with
        | zero =>
            obtain ⟨rest, rfl⟩ := List.head?_eq_some_iff.mp (List.head?_eq_getElem? ▸ found)
            exact taken block rest added bound
        | succ offset => exact Block.takes_of_blank (clear _ (by omega)) block
    · rename_i short
      exact achieves_pure here (tight blocks added (by omega))

end Partition

end TwinLog
