import TwinLog.Proofs.Achieves
import TwinLog.Proofs.Tape

set_option autoImplicit false

namespace TwinLog

/-- The written part of a log as `contents` has it. -/
def Journal.tape (journal : Journal) (contents : Contents) : Tape :=
  ⟨journal.polarity, contents journal.log, journal.stop⟩

namespace Tape

/-- Where the first entry of `ufid` among the blocks at `indices` is, or the id that a new one would get if those in
`used` are taken too. -/
def lookupIn (tape : Tape) (ufid : Ufid) : List Nat → List FileId → Lookup
  | [], used => .vacant (FileId.lowestUnused used)
  | index :: rest, used =>
      match (tape.blocks index).binding? tape.polarity with
      | some (id, owner) => if owner = ufid then .found id index else tape.lookupIn ufid rest (id :: used)
      | none => tape.lookupIn ufid rest used

def lookup (tape : Tape) (ufid : Ufid) : Lookup :=
  tape.lookupIn ufid (List.range' 1 (tape.stop - 1)) []

def chainFor? (tape : Tape) (id : FileId) (index : Nat) : Option Chain :=
  (tape.chainAt? index).filter fun chain => chain.head.id = id

def chains (tape : Tape) (id : FileId) (start : Nat) : List Chain :=
  (List.range' start (tape.stop - start)).filterMap (tape.chainFor? id)

/-- Whether a chain of the file `id` starts at or after the index `start`. -/
structure Holds (tape : Tape) (id : FileId) (start : Nat) (chain : Chain) : Prop where
  from_start : start ≤ chain.start
  sound : tape.chainAt? chain.start = some chain
  owner : chain.head.id = id

variable {tape tape' : Tape} {id : FileId} {start index : Nat} {chain : Chain}

theorem Holds.inside (holds : tape.Holds id start chain) : chain.start < tape.stop := by
  obtain ⟨-, -, room, -⟩ := chainAt?_some.mp holds.sound
  have counted := chain.one_le_count
  simp only [Chain.stop] at room
  omega

theorem Holds.record (holds : tape.Holds id start chain) :
    tape.recordAt chain.start = some (.content id (chain.content tape.blocks)) := by
  rw [recordAt_chain holds.sound, holds.owner]

/-- Where the blocks from an index on are the same, so is the chain that starts there. -/
theorem chainAt?_same (polarity : tape'.polarity = tape.polarity) (stop : tape'.stop = tape.stop)
    (same : ∀ position, index ≤ position → tape'.blocks position = tape.blocks position) :
    tape'.chainAt? index = tape.chainAt? index := by
  have extent (head : Start) : (Chain.mk index head).extent tape'.blocks = (Chain.mk index head).extent tape.blocks :=
    Chain.extent_congr _ (fun position late _ => same position late)
  simp only [chainAt?, polarity, stop, same index (Nat.le_refl _), extent]

theorem Holds.same (holds : tape.Holds id start chain) (polarity : tape'.polarity = tape.polarity)
    (stop : tape'.stop = tape.stop)
    (blocks : ∀ position, chain.start ≤ position → tape'.blocks position = tape.blocks position) :
    tape'.Holds id start chain :=
  ⟨holds.from_start, (chainAt?_same polarity stop blocks).trans holds.sound, holds.owner⟩

section Chains

theorem chainFor?_some : tape.chainFor? id index = some chain ↔
    tape.chainAt? index = some chain ∧ chain.head.id = id := by
  simp [chainFor?, Option.filter_eq_some_iff]

theorem chainFor?_none (other : ∀ head, tape.polarity.kind (tape.blocks index).info ≠ .start head) :
    tape.chainFor? id index = none := by
  rw [chainFor?, chainAt?_none other, Option.filter_none]

theorem chainFor?_start {head : Start} (kind : tape.polarity.kind (tape.blocks index).info = .start head) :
    tape.chainFor? id index =
      if head.id = id ∧ (Chain.mk index head).stop ≤ tape.stop ∧
        Chain.sound tape.polarity head ((Chain.mk index head).extent tape.blocks) = true then some ⟨index, head⟩
      else none := by
  unfold chainFor? chainAt?
  rw [kind]
  simp only
  split
  · rename_i accepted
    simp [accepted, Option.filter_some]
  · rename_i refused
    rw [if_neg (fun both => refused both.2), Option.filter_none]

theorem mem_chains : chain ∈ tape.chains id start ↔ tape.Holds id start chain := by
  unfold chains
  rw [List.mem_filterMap]
  constructor
  · rintro ⟨index, member, found⟩
    obtain ⟨there, owner⟩ := chainFor?_some.mp found
    have first := (chainAt?_some.mp there).1
    rw [List.mem_range'_1] at member
    exact ⟨by omega, by rw [first]; exact there, owner⟩
  · intro holds
    refine ⟨chain.start, ?_, chainFor?_some.mpr ⟨holds.sound, holds.owner⟩⟩
    have late := holds.from_start
    have early := holds.inside
    rw [List.mem_range'_1]
    omega

theorem chains_done (late : tape.stop ≤ start) : tape.chains id start = [] := by
  rw [chains, Nat.sub_eq_zero_of_le late, List.range'_zero, List.filterMap_nil]

theorem chains_step (early : start < tape.stop) :
    tape.chains id start = (tape.chainFor? id start).toList ++ tape.chains id (start + 1) := by
  rw [chains, show tape.stop - start = tape.stop - (start + 1) + 1 by omega, List.range'_succ, List.filterMap_cons]
  cases tape.chainFor? id start <;> rfl

theorem chains_silent (early : start < tape.stop) (kind : tape.polarity.kind (tape.blocks start).info = .cont) :
    tape.chains id start = tape.chains id (start + 1) := by
  rw [chains_step early, chainFor?_none (by simp [kind]), Option.toList_none, List.nil_append]

/-- The chains from an index on are settled by the blocks from that index on. -/
theorem chains_same (polarity : tape'.polarity = tape.polarity) (stop : tape'.stop = tape.stop)
    (same : ∀ position, start ≤ position → tape'.blocks position = tape.blocks position) :
    tape'.chains id start = tape.chains id start := by
  unfold chains
  rw [stop]
  apply List.filterMap_congr
  intro index member
  rw [List.mem_range'_1] at member
  unfold chainFor?
  rw [chainAt?_same polarity stop (fun position late => same position (by omega))]

theorem chains_sorted (tape : Tape) (id : FileId) (start : Nat) :
    (tape.chains id start).Pairwise fun earlier later => earlier.start < later.start := by
  refine (List.pairwise_lt_range' (s := start) (n := tape.stop - start)).filterMap _ ?_
  intro index position before earlier found later there
  have first := (chainAt?_some.mp (chainFor?_some.mp found).1).1
  have second := (chainAt?_some.mp (chainFor?_some.mp there).1).1
  omega

theorem greatest_of_last (last : (tape.chains id start).getLast? = some chain) :
    tape.Holds id start chain ∧ ∀ other, tape.Holds id start other → other.start ≤ chain.start := by
  refine ⟨mem_chains.mp (List.mem_of_getLast? last), ?_⟩
  intro other holds
  obtain ⟨before, split⟩ := List.getLast?_eq_some_iff.mp last
  have sorted := tape.chains_sorted id start
  have member := mem_chains.mpr holds
  rw [split, List.pairwise_append] at sorted
  rw [split, List.mem_append, List.mem_singleton] at member
  rcases member with earlier | rfl
  · exact Nat.le_of_lt (sorted.2.2 other earlier chain (List.mem_singleton_self chain))
  · exact Nat.le_refl _

theorem Holds.exists_last (holds : tape.Holds id start chain) :
    ∃ last, (tape.chains id start).getLast? = some last ∧ chain.start ≤ last.start := by
  obtain ⟨last, found⟩ := Option.isSome_iff_exists.mp
    (List.getLast?_isSome.mpr (List.ne_nil_of_mem (mem_chains.mpr holds)))
  exact ⟨last, found, (greatest_of_last found).2 chain holds⟩

/-- The last chain of a file is the one with the greatest start. -/
theorem getLast?_chains : (tape.chains id start).getLast? = some chain ↔
    tape.Holds id start chain ∧ ∀ other, tape.Holds id start other → other.start ≤ chain.start := by
  constructor
  · exact greatest_of_last
  · rintro ⟨holds, greatest⟩
    obtain ⟨other, last, later⟩ := holds.exists_last
    have there := (greatest_of_last last).1
    have same : other.start = chain.start := Nat.le_antisymm (greatest other there) later
    have found := there.sound
    rw [same, holds.sound, Option.some.injEq] at found
    rw [last, found]

/-- The latest content of a file is that of its last sound chain. -/
theorem latest_records (tape : Tape) (id : FileId) (start : Nat) :
    Record.latest id (tape.records [] start) =
      (tape.chains id start).getLast?.map fun chain => chain.content tape.blocks := by
  by_cases early : start < tape.stop
  · rw [records_step _ [] early, chains_step early, Record.latest_append, List.getLast?_append, Option.map_or,
      latest_records tape id (start + 1), visible, if_neg List.not_mem_nil]
    congr 1
    cases found : tape.chainFor? id start with
    | none => exact latest_absent found
    | some chain =>
        obtain ⟨there, owner⟩ := chainFor?_some.mp found
        rw [recordAt_chain there, Option.toList_some, Record.latest, if_pos owner]
        rfl
  · rw [records_done [] (by omega), chains_done (by omega)]
    rfl
termination_by tape.stop - start

end Chains

end Tape

namespace Partition

variable {σ : Type} {contents : Contents} {journal : Journal}

theorem observes_lookupLast {ufid : Ufid} (inside : journal.stop ≤ journal.partition.blocks) (remaining : Nat)
    (enough : remaining ≤ journal.stop) (used : List FileId) :
    journal.partition.Observes contents (journal.lookupLast ufid remaining used : Script σ Lookup)
      ((journal.tape contents).lookupIn ufid (List.range' (journal.stop - remaining) remaining) used) := by
  induction remaining generalizing used with
  | zero => exact observes_pure _
  | succ remaining ih =>
      apply Observes.bind (observes_load (by omega))
      rw [List.range'_succ, show journal.stop - (remaining + 1) + 1 = journal.stop - remaining by omega,
        Tape.lookupIn]
      simp only [Journal.tape] at ih ⊢
      cases (contents journal.log (journal.stop - (remaining + 1))).binding? journal.polarity with
      | none => exact ih (by omega) used
      | some binding =>
          simp only
          split
          · exact observes_pure _
          · exact ih (by omega) (binding.1 :: used)

theorem observes_lookup {ufid : Ufid} (inside : journal.stop ≤ journal.partition.blocks) :
    journal.partition.Observes contents (journal.lookup ufid : Script σ Lookup)
      ((journal.tape contents).lookup ufid) := by
  by_cases empty : journal.stop = 0
  · rw [Journal.lookup, Tape.lookup, Journal.tape, empty]
    exact observes_pure _
  · have walked := @observes_lookupLast σ contents journal ufid inside (journal.stop - 1) (by omega) []
    rw [show journal.stop - (journal.stop - 1) = 1 by omega] at walked
    exact walked

theorem observes_continues {stop : Nat} (inside : stop ≤ journal.partition.blocks) (remaining : Nat)
    (enough : remaining ≤ stop) (sum : Word) (block : Block) :
    journal.partition.Observes contents (journal.continues stop remaining sum block : Script σ Bool)
      (Chain.closes journal.polarity ((List.range' (stop - remaining) remaining).map (contents journal.log)) sum
        block) := by
  induction remaining generalizing sum block with
  | zero => exact observes_pure _
  | succ remaining ih =>
      apply Observes.bind (observes_load (by omega))
      rw [List.range'_succ, List.map_cons, Chain.closes,
        show stop - (remaining + 1) + 1 = stop - remaining by omega]
      split
      · rename_i kind
        rw [kind, beq_self_eq_true, Bool.true_and]
        exact ih (by omega) _ _
      · rename_i kind
        rw [beq_false_of_ne kind, Bool.false_and]
        exact observes_pure _

/-- The checksum of a chain that lies inside of its log is carried on over all blocks after the first. -/
theorem observes_further {chain : Chain} (inside : chain.stop ≤ journal.partition.blocks) (first : Block) :
    journal.partition.Observes contents (journal.continues chain.stop (chain.count - 1) 0 first : Script σ Bool)
      (Chain.closes journal.polarity ((List.range' (chain.start + 1) (chain.count - 1)).map (contents journal.log)) 0
        first) := by
  have counted := chain.one_le_count
  have start : chain.stop - (chain.count - 1) = chain.start + 1 := by
    rw [Chain.stop]
    omega
  have walked := @observes_continues σ contents journal chain.stop inside (chain.count - 1) (by omega) 0 first
  rw [start] at walked
  exact walked

theorem observes_accepts (chain : Chain) (inside : journal.stop ≤ journal.partition.blocks) :
    journal.partition.Observes contents (journal.accepts chain (contents journal.log chain.start) : Script σ Bool)
      (decide (chain.stop ≤ journal.stop) &&
        Chain.sound journal.polarity chain.head (chain.extent (contents journal.log))) := by
  rw [Chain.sound_extent, Journal.accepts]
  split
  · rename_i large
    rw [decide_eq_false (show ¬ chain.head.size.val ≤ maxFileSize by rw [Chain.size] at large; omega), Bool.false_and,
      Bool.and_false]
    exact observes_pure _
  · rename_i small
    split
    · rename_i late
      rw [decide_eq_false (by omega), Bool.false_and]
      exact observes_pure _
    · rename_i early
      rw [Nat.not_lt] at early
      rw [decide_eq_true early, Bool.true_and,
        decide_eq_true (show chain.head.size.val ≤ maxFileSize by rw [Chain.size] at small; omega), Bool.true_and]
      exact observes_further (Nat.le_trans early inside) (contents journal.log chain.start)

theorem observes_chainAt {id : FileId} {index : Nat} (inside : journal.stop ≤ journal.partition.blocks)
    (within : index < journal.partition.blocks) :
    journal.partition.Observes contents (journal.chainAt id index : Script σ (Option Chain))
      ((journal.tape contents).chainFor? id index) := by
  apply Observes.bind (observes_load within)
  cases kind : journal.polarity.kind (contents journal.log index).info with
  | entry owner =>
      rw [Tape.chainFor?_none (fun head same => by cases kind.symm.trans same)]
      exact observes_pure _
  | cont =>
      rw [Tape.chainFor?_none (fun head same => by cases kind.symm.trans same)]
      exact observes_pure _
  | start head =>
      rw [Tape.chainFor?_start kind]
      by_cases owner : head.id = id
      · simp only [if_pos owner]
        apply Observes.bind (observes_accepts ⟨index, head⟩ inside)
        split
        · rename_i accepted
          rw [Bool.and_eq_true, decide_eq_true_eq] at accepted
          rw [if_pos ⟨owner, accepted⟩]
          exact observes_pure _
        · rename_i refused
          rw [Bool.and_eq_true, decide_eq_true_eq] at refused
          rw [if_neg (fun all => refused all.2)]
          exact observes_pure _
      · simp only [if_neg owner]
        rw [if_neg (fun all => owner all.1)]
        exact observes_pure _

/-- Looking for the end of a log only reads, and finds the one index that is behind a block that is not erased and
before none. -/
theorem observes_freeBelow {partition : Partition} {log : Log} {last free : Nat} (late : 1 ≤ last) (early : last ≤ free)
    (inside : free ≤ partition.blocks)
    (blank : ∀ index, last ≤ index → index < free → contents log index = Block.blank partition.polarity)
    (ends : last = 1 ∨ contents log (last - 1) ≠ Block.blank partition.polarity) :
    partition.Observes contents (partition.freeBelow log free : Script σ Nat) last := by
  induction free with
  | zero => omega
  | succ free ih =>
      cases free with
      | zero =>
          have first : last = 1 := by omega
          subst first
          exact observes_pure 1
      | succ free =>
          apply Observes.bind (observes_load (by omega))
          by_cases here : last = free + 2
          · subst here
            have written : contents log (free + 1) ≠ Block.blank partition.polarity := by
              rcases ends with first | written
              · omega
              · exact written
            rw [if_neg (by rw [Block.isErased_iff]; exact written)]
            exact observes_pure _
          · rw [if_pos (Block.isErased_iff.mpr (blank (free + 1) (by omega) (by omega)))]
            exact ih (by omega) (by omega) fun index from_last before => blank index from_last (by omega)

end Partition

end TwinLog
