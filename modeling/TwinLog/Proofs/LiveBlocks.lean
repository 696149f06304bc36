import TwinLog.Proofs.Scanning

set_option autoImplicit false

namespace TwinLog

namespace Chain

variable {polarity : Polarity} {id : FileId} {head : Start} {first : Block} {further rest blocks chain : List Block}

/-- The blocks of the sound chain of the file `id` that `blocks` begin with, if they do. -/
def front? (polarity : Polarity) (id : FileId) : List Block → Option (List Block)
  | [] => none
  | first :: rest =>
      match polarity.kind first.info with
      | .start head =>
          let chain := (first :: rest).take (blocksNeeded head.size.val)
          if head.id = id ∧ sound polarity head chain = true then some chain else none
      | _ => none

def last? (polarity : Polarity) (id : FileId) : List Block → Option (List Block)
  | [] => none
  | first :: rest => (last? polarity id rest).or (front? polarity id (first :: rest))

theorem front?_none (other : ∀ head, polarity.kind first.info ≠ .start head) :
    front? polarity id (first :: rest) = none := by
  rw [front?]
  split
  · rename_i head kind
    exact absurd kind (other head)
  · rfl

theorem length_of_sound (passed : sound polarity head blocks = true) : blocks.length = blocksNeeded head.size.val := by
  cases blocks with
  | nil => cases passed
  | cons first rest =>
      rw [sound, Bool.and_eq_true, Bool.and_eq_true, beq_iff_eq] at passed
      exact passed.1.2

theorem cont_of_sound (passed : sound polarity head (first :: further) = true) :
    ∀ block ∈ further, polarity.kind block.info = .cont := by
  rw [sound, Bool.and_eq_true] at passed
  exact closes_cont passed.2

theorem front?_chain (kind : polarity.kind first.info = .start head)
    (passed : sound polarity head (first :: further) = true) :
    front? polarity id (first :: further ++ rest) = if head.id = id then some (first :: further) else none := by
  rw [List.cons_append, front?, kind]
  simp only
  rw [← List.cons_append, List.take_left' (length_of_sound passed), passed]
  simp

theorem front?_some (found : front? polarity id blocks = some chain) :
    ∃ first further head, chain = first :: further ∧ polarity.kind first.info = .start head ∧ head.id = id ∧
      sound polarity head chain = true := by
  cases blocks with
  | nil => cases found
  | cons first rest =>
      rw [front?] at found
      split at found
      · rename_i head kind
        simp only at found
        split at found
        · rename_i accepted
          cases found
          have counted := one_le_blocksNeeded (show 2 + (head.size.val - 25) / 32 < 4294967296 by omega)
          refine ⟨first, rest.take (blocksNeeded head.size.val - 1), head, ?_, kind, accepted⟩
          rw [show blocksNeeded head.size.val = blocksNeeded head.size.val - 1 + 1 by omega, List.take_succ_cons,
            Nat.add_sub_cancel]
        · cases found
      · cases found

theorem last?_some (found : last? polarity id blocks = some chain) :
    ∃ first further head, chain = first :: further ∧ polarity.kind first.info = .start head ∧ head.id = id ∧
      sound polarity head chain = true := by
  induction blocks with
  | nil => cases found
  | cons first rest ih =>
      rw [last?, Option.or_eq_some_iff] at found
      rcases found with later | ⟨-, here⟩
      · exact ih later
      · exact front?_some here

theorem last?_skip (other : ∀ head, polarity.kind first.info ≠ .start head) :
    last? polarity id (first :: rest) = last? polarity id rest := by
  rw [last?, front?_none other, Option.or_none]

theorem last?_conts (cont : ∀ block ∈ blocks, polarity.kind block.info = .cont) :
    last? polarity id (blocks ++ rest) = last? polarity id rest := by
  induction blocks with
  | nil => rfl
  | cons block blocks ih =>
      have here := cont block List.mem_cons_self
      rw [List.cons_append, last?_skip (by simp [here]),
        ih fun later member => cont later (List.mem_cons_of_mem _ member)]

/-- A sound chain is the last one of its file unless there is one behind it. -/
theorem last?_chain (kind : polarity.kind first.info = .start head)
    (passed : sound polarity head (first :: further) = true) :
    last? polarity id (first :: further ++ rest) =
      (last? polarity id rest).or (if head.id = id then some (first :: further) else none) := by
  rw [List.cons_append, last?, last?_conts (cont_of_sound passed), ← List.cons_append, front?_chain kind passed]

end Chain

namespace Block

open Chain

variable {polarity : Polarity} {id : FileId} {ufid : Ufid} {head : Start} {block first : Block}
  {further rest chain : List Block}

def live (polarity : Polarity) : List Block → List Block
  | [] => []
  | block :: rest =>
      match block.binding? polarity with
      | none => live polarity rest
      | some (id, _) =>
          match last? polarity id rest with
          | none => live polarity rest
          | some chain => block :: (chain ++ live polarity rest)

theorem live_unbound (unbound : block.binding? polarity = none) :
    live polarity (block :: rest) = live polarity rest := by
  rw [live, unbound]

theorem live_orphan (bound : block.binding? polarity = some (id, ufid)) (none : last? polarity id rest = none) :
    live polarity (block :: rest) = live polarity rest := by
  rw [live, bound]
  simp only [none]

theorem live_entry (bound : block.binding? polarity = some (id, ufid)) (found : last? polarity id rest = some chain) :
    live polarity (block :: rest) = block :: (chain ++ live polarity rest) := by
  rw [live, bound]
  simp only [found]

theorem live_conts (cont : ∀ block ∈ further, polarity.kind block.info = .cont) :
    live polarity (further ++ rest) = live polarity rest := by
  induction further with
  | nil => rfl
  | cons block blocks ih =>
      have here := cont block List.mem_cons_self
      rw [List.cons_append, live_unbound (binding?_none (by simp [here])),
        ih fun later member => cont later (List.mem_cons_of_mem _ member)]

theorem live_chain (kind : polarity.kind first.info = .start head)
    (passed : sound polarity head (first :: further) = true) :
    live polarity (first :: further ++ rest) = live polarity rest := by
  rw [List.cons_append, live_unbound (binding?_none (by simp [kind])), live_conts (cont_of_sound passed)]

/-- Of each file whose chains are copied it is the last one that is last in the copy. -/
theorem last?_live (blocks : List Block) :
    last? polarity id (live polarity blocks) = none ∨
      last? polarity id (live polarity blocks) = last? polarity id blocks := by
  induction blocks with
  | nil => exact .inl rfl
  | cons block rest ih =>
      -- where the block itself is not copied, the chain that is last behind it is last with it too
      have copied (same : live polarity (block :: rest) = live polarity rest) :
          last? polarity id (live polarity (block :: rest)) = none ∨
            last? polarity id (live polarity (block :: rest)) = last? polarity id (block :: rest) := by
        rw [same, last?]
        rcases ih with none | same
        · exact .inl none
        · rw [same]
          cases last? polarity id rest with
          | none => exact .inl rfl
          | some chain => exact .inr rfl
      cases bound : block.binding? polarity with
      | none => exact copied (live_unbound bound)
      | some binding =>
          obtain ⟨owner, ufid⟩ := binding
          have entry := kind_of_binding bound
          cases found : last? polarity owner rest with
          | none => exact copied (live_orphan bound found)
          | some chain =>
              obtain ⟨first, further, head, rfl, kind, rfl, passed⟩ := last?_some found
              rw [live_entry bound found, last?_skip (by simp [entry]), last?_skip (by simp [entry]),
                last?_chain kind passed]
              by_cases here : head.id = id
              · subst here
                rw [if_pos rfl, found]
                rcases ih with none | same
                · exact .inr (by rw [none, Option.none_or])
                · exact .inr (by rw [same, found, Option.some_or])
              · rw [if_neg here, Option.or_none]
                exact ih

/-- Copying a copy gives the copy again. -/
theorem live_live (blocks : List Block) : live polarity (live polarity blocks) = live polarity blocks := by
  induction blocks with
  | nil => rfl
  | cons block rest ih =>
      cases bound : block.binding? polarity with
      | none => rw [live_unbound bound, ih]
      | some binding =>
          obtain ⟨owner, ufid⟩ := binding
          cases found : last? polarity owner rest with
          | none => rw [live_orphan bound found, ih]
          | some chain =>
              obtain ⟨first, further, head, rfl, kind, rfl, passed⟩ := last?_some found
              -- the copy has a chain of this file further on only if that is the one it has here
              have again : last? polarity head.id (first :: further ++ live polarity rest) =
                  some (first :: further) := by
                rw [last?_chain kind passed, if_pos rfl]
                rcases @last?_live polarity head.id rest with none | same
                · rw [none, Option.none_or]
                · rw [same, found, Option.some_or]
              rw [live_entry bound found, live_entry bound again, live_chain kind passed, ih]

end Block

namespace Tape

variable {tape : Tape} {id : FileId} {start : Nat}

def onward (tape : Tape) (start : Nat) : List Block :=
  (List.range' start (tape.stop - start)).map tape.blocks

theorem onward_done (late : tape.stop ≤ start) : tape.onward start = [] := by
  rw [onward, Nat.sub_eq_zero_of_le late, List.range'_zero, List.map_nil]

theorem onward_step (early : start < tape.stop) : tape.onward start = tape.blocks start :: tape.onward (start + 1) := by
  rw [onward, show tape.stop - start = tape.stop - (start + 1) + 1 by omega, List.range'_succ, List.map_cons]
  rfl

theorem onward_append {middle : Nat} (late : start ≤ middle) (inside : middle ≤ tape.stop) :
    tape.onward start = (List.range' start (middle - start)).map tape.blocks ++ tape.onward middle := by
  rw [onward, range'_split late inside, List.map_append]
  rfl

/-- The chain that the blocks from an index on begin with is the one that starts there. -/
theorem front?_onward (early : start < tape.stop) :
    Chain.front? tape.polarity id (tape.onward start) =
      (tape.chainFor? id start).map fun chain => chain.extent tape.blocks := by
  cases kind : tape.polarity.kind (tape.blocks start).info with
  | start head =>
      rw [onward_step early, Chain.front?, kind, ← onward_step early, chainFor?_start kind]
      simp only
      by_cases inside : (Chain.mk start head).stop ≤ tape.stop
      · have extent : (tape.onward start).take (blocksNeeded head.size.val) =
            (Chain.mk start head).extent tape.blocks := by
          have stop : (Chain.mk start head).stop = start + blocksNeeded head.size.val := rfl
          rw [onward_append (by omega) inside, stop, Nat.add_sub_cancel_left]
          exact List.take_left' ((Chain.mk start head).length_extent tape.blocks)
        rw [extent]
        simp only [inside, true_and]
        split <;> rfl
      · have short :
            ¬ Chain.sound tape.polarity head ((tape.onward start).take (blocksNeeded head.size.val)) = true := by
          intro passed
          have length := Chain.length_of_sound passed
          rw [List.length_take, onward, List.length_map, List.length_range'] at length
          simp only [Chain.stop, Chain.count, Chain.size] at inside
          omega
        rw [if_neg (fun both => short both.2), if_neg (fun all => inside all.2.1)]
        rfl
  | _ =>
      rw [onward_step early, Chain.front?_none (by simp [kind]), chainFor?_none (by simp [kind])]
      rfl

theorem last?_onward (tape : Tape) (id : FileId) (start : Nat) :
    Chain.last? tape.polarity id (tape.onward start) =
      (tape.chains id start).getLast?.map fun chain => chain.extent tape.blocks := by
  by_cases early : start < tape.stop
  · have here := @front?_onward tape id start early
    rw [onward_step early] at here ⊢
    rw [Chain.last?, here, last?_onward tape id (start + 1), chains_step early, List.getLast?_append, Option.map_or]
    congr 1
    cases tape.chainFor? id start <;> rfl
  · rw [onward_done (by omega), chains_done (by omega)]
    rfl
termination_by tape.stop - start

/-- What the block at an index adds to what is copied, and to the live records: nothing, or itself and the last chain of
its id behind it. -/
theorem live_step (tape : Tape) (early : start < tape.stop) :
    (Block.live tape.polarity (tape.onward start) = Block.live tape.polarity (tape.onward (start + 1)) ∧
      Record.live (tape.records [] start) = Record.live (tape.records [] (start + 1))) ∨
    ∃ id ufid chain, (tape.blocks start).binding? tape.polarity = some (id, ufid) ∧
      tape.Holds id (start + 1) chain ∧
      Block.live tape.polarity (tape.onward start) =
        tape.blocks start :: chain.extent tape.blocks ++ Block.live tape.polarity (tape.onward (start + 1)) ∧
      Record.live (tape.records [] start) =
        .entry id ufid :: .content id (chain.content tape.blocks) :: Record.live (tape.records [] (start + 1)) := by
  rw [onward_step early, records_step _ [] early, visible, if_neg List.not_mem_nil]
  cases bound : (tape.blocks start).binding? tape.polarity with
  | none =>
      refine .inl ⟨Block.live_unbound bound, ?_⟩
      cases shown : tape.recordAt start with
      | none => rfl
      | some record =>
          obtain ⟨id, data, rfl⟩ := recordAt_unbound bound shown
          rfl
  | some binding =>
      obtain ⟨id, ufid⟩ := binding
      have blocks := tape.last?_onward id (start + 1)
      rw [recordAt_entry bound, Option.toList_some, List.singleton_append, Record.live, latest_records]
      cases last : (tape.chains id (start + 1)).getLast? with
      | none =>
          rw [last] at blocks
          exact .inl ⟨Block.live_orphan bound blocks, rfl⟩
      | some chain =>
          rw [last] at blocks
          exact .inr ⟨id, ufid, chain, rfl, (getLast?_chains.mp last).1, Block.live_entry bound blocks, rfl⟩

/-- A compaction copies as many blocks as the live records take. -/
theorem length_live_onward (tape : Tape) (start : Nat) :
    (Block.live tape.polarity (tape.onward start)).length = Record.weights (Record.live (tape.records [] start)) := by
  by_cases early : start < tape.stop
  · have later := length_live_onward tape (start + 1)
    rcases tape.live_step early with ⟨blocks, records⟩ | ⟨id, ufid, chain, -, holds, blocks, records⟩
    · rw [blocks, records, later]
    · have weight := Chain.blocksNeeded_content (chainAt?_some.mp holds.sound).2.2.2
      rw [blocks, records, List.length_append, List.length_cons, Chain.length_extent, later]
      simp only [Record.weights, Record.weight, weight]
      omega
  · rw [onward_done (by omega), records_done [] (by omega)]
    rfl
termination_by tape.stop - start

end Tape

end TwinLog
