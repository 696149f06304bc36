import TwinLog.Proofs.Appending
import TwinLog.Proofs.LiveBlocks
import TwinLog.Proofs.Preconditions

set_option autoImplicit false

namespace TwinLog

/-- An entry and a sound chain of its id, copied to the end of another log, are two more records of that log. -/
theorem Tape.Settled.copy {polarity : Polarity} {current : Contents} {target : Log} {free : Nat}
    {records : List Record} (settled : Tape.Settled ⟨polarity, current target, free⟩ [] records) {block : Block}
    {id : FileId} {ufid : Ufid} (bound : block.binding? polarity = some (id, ufid)) {source : Nat → Block}
    {stop start : Nat} {chain : Chain} (holds : Tape.Holds ⟨polarity, source, stop⟩ id start chain) :
    Tape.Settled ⟨polarity, current.lay target free (block :: chain.extent source) target, free + 1 + chain.count⟩ []
      (records ++ [.entry id ufid, .content id (chain.content source)]) := by
  obtain ⟨-, kind, -, passed⟩ := Tape.chainAt?_some.mp holds.sound
  have one := settled.toKeeps.lay_entry (fun position late => settled.clear position (Nat.le_of_lt late)) bound
  rw [Chain.extent_cons] at passed
  have both := one.toKeeps.lay_chain (fun position late => one.clear position (Nat.le_of_lt late)) kind passed
  rw [← Chain.extent_cons, holds.owner, List.append_assoc, Chain.length_extent] at both
  exact both

/-- What is live in a log, copied to the end of another one, says there what is live. -/
theorem Tape.Settled.lay_live {source : Tape} {current : Contents} {target : Log} {free : Nat} {records : List Record}
    (settled : Tape.Settled ⟨source.polarity, current target, free⟩ [] records) (start : Nat) :
    Tape.Settled ⟨source.polarity,
      current.lay target free (Block.live source.polarity (source.onward start)) target,
      free + (Block.live source.polarity (source.onward start)).length⟩ []
      (records ++ Record.live (source.records [] start)) := by
  by_cases early : start < source.stop
  · rcases source.live_step early with ⟨blocks, live⟩ | ⟨id, ufid, chain, bound, holds, blocks, live⟩
    · rw [blocks, live]
      exact settled.lay_live (start + 1)
    · have later := (settled.copy bound holds).lay_live (start + 1)
      have length : (source.blocks start :: chain.extent source.blocks).length = 1 + chain.count := by
        rw [List.length_cons, Chain.length_extent, Nat.add_comm]
      rw [blocks, live, Contents.lay_append, List.length_append, length]
      rw [List.append_assoc] at later
      simp only [← Nat.add_assoc]
      exact later
  · rw [onward_done (by omega), records_done [] (by omega)]
    exact (List.append_nil records).symm ▸ settled
termination_by source.stop - start

namespace Partition

open Contents

variable {σ : Type} {cut : Bool → σ → Contents → Prop} {state : σ} {journal : Journal} {target : Log}

section Copy

variable (rest : Contents → Prop) {source : Nat → Block}
  (same : ∀ current, rest current → current journal.log = source)
  (cuts : ∀ torn current, rest current → cut torn state current)
  (kept : ∀ current index words, 1 ≤ index → rest current → rest (current.put target index words))
include same cuts kept

theorem achieves_copyChainLast {result : Except StoreError (Except Violation Nat) → σ → Contents → Prop} {chain : Chain}
    (inside : chain.stop ≤ journal.partition.blocks) (remaining : Nat) (enough : remaining ≤ chain.count) (free : Nat)
    (late : 1 ≤ free) (room : free ≤ journal.partition.blocks) (current : Contents) (now : rest current)
    (clear : ∀ position, free ≤ position → current target position = Block.blank journal.polarity)
    (short : journal.partition.blocks < free + remaining → ∀ after, rest after →
      result (.ok (.error (.blockOutside journal.partition.blocks))) state after)
    (next : free + remaining ≤ journal.partition.blocks → result (.ok (.ok (free + remaining))) state
      (current.lay target free ((List.range' (chain.stop - remaining) remaining).map source))) :
    journal.partition.Achieves result cut (journal.copyChainLast chain target remaining free).caught state current := by
  induction remaining generalizing free current with
  | zero => exact Achieves.caught (achieves_pure (cuts _ _ now) (next room))
  | succ remaining ih =>
      have stop : chain.stop = chain.start + chain.count := rfl
      have put := kept current free (current journal.log (chain.stop - (remaining + 1))).toList late now
      apply Achieves.then_caught
      apply achieves_load (by omega) (cuts _ _ now)
      apply Achieves.bind_caught
      apply achieves_append_caught (Block.takes_of_blank (clear free (Nat.le_refl _)) _) (cuts _ _ now)
        (fun count _ => cuts _ _ (kept _ _ _ late now)) (cuts _ _ put)
      · intro outside
        have last : free = journal.partition.blocks := Nat.le_antisymm room outside
        subst last
        exact ⟨cuts _ _ now, short (by omega) current now⟩
      · intro before
        apply ih (by omega) (free + 1) (by omega) before _ put
        · intro position from_free
          rw [put_apart _ _ (by rintro ⟨-, rfl⟩; omega)]
          exact clear position (by omega)
        · intro beyond
          exact short (by omega)
        · intro fits
          rw [List.range'_succ, List.map_cons, lay,
            show chain.stop - (remaining + 1) + 1 = chain.stop - remaining by omega] at next
          rw [same current now, show free + 1 + remaining = free + (remaining + 1) by omega]
          exact next (by omega)

theorem achieves_copyFile {α : Type} {result : Except StoreError (Except Violation α) → σ → Contents → Prop}
    {following : Nat → Script σ α} {block : Block} {chain : Chain} (inside : chain.stop ≤ journal.partition.blocks)
    (free : Nat) (late : 1 ≤ free) (room : free ≤ journal.partition.blocks) (current : Contents) (now : rest current)
    (clear : ∀ position, free ≤ position → current target position = Block.blank journal.polarity)
    (short : journal.partition.blocks < free + 1 + chain.count → ∀ after, rest after →
      result (.ok (.error (.blockOutside journal.partition.blocks))) state after)
    (next : free + 1 + chain.count ≤ journal.partition.blocks →
      journal.partition.Achieves result cut (following (free + 1 + chain.count)).caught state
        (current.lay target free (block :: chain.extent source))) :
    journal.partition.Achieves result cut (do
      let free ← journal.partition.append target free block
      let free ← journal.copyChainLast chain target chain.count free
      following free : Script σ α).caught state current := by
  have put := kept current free block.toList late now
  have extent : (List.range' (chain.stop - chain.count) chain.count).map source = chain.extent source := by
    rw [Chain.extent, show chain.stop - chain.count = chain.start by simp only [Chain.stop]; omega]
  apply Achieves.bind_caught
  apply achieves_append_caught (Block.takes_of_blank (clear free (Nat.le_refl _)) _) (cuts _ _ now)
    (fun count _ => cuts _ _ (kept _ _ _ late now)) (cuts _ _ put)
  · intro outside
    have last : free = journal.partition.blocks := Nat.le_antisymm room outside
    subst last
    exact ⟨cuts _ _ now, short (by omega) current now⟩
  · intro before
    apply Achieves.bind_caught
    apply achieves_copyChainLast rest same cuts kept inside chain.count (Nat.le_refl _) (free + 1) (by omega) before _
      put
    · intro position beyond
      rw [put_apart _ _ (by rintro ⟨-, rfl⟩; omega)]
      exact clear position (by omega)
    · intro beyond after now'
      exact ⟨cuts _ _ now', short beyond after now'⟩
    · intro fits
      rw [extent]
      exact next fits

theorem achieves_copyLast {result : Except StoreError (Except Violation Nat) → σ → Contents → Prop}
    (inside : journal.stop ≤ journal.partition.blocks) (remaining : Nat) (enough : remaining < journal.stop)
    (free : Nat) (late : 1 ≤ free) (room : free ≤ journal.partition.blocks) (current : Contents) (now : rest current)
    (clear : ∀ position, free ≤ position → current target position = Block.blank journal.polarity)
    (copied : List Block)
    (live : copied =
      Block.live journal.polarity (Tape.onward ⟨journal.polarity, source, journal.stop⟩ (journal.stop - remaining)))
    (short : journal.partition.blocks < free + copied.length → ∀ after, rest after →
      result (.ok (.error (.blockOutside journal.partition.blocks))) state after)
    (next : free + copied.length ≤ journal.partition.blocks →
      result (.ok (.ok (free + copied.length))) state (current.lay target free copied)) :
    journal.partition.Achieves result cut (journal.copyLast target remaining free).caught state current := by
  -- on the blocks still to be looked at; copies of those before them end at `free`
  induction remaining generalizing free current copied with
  | zero =>
      have none : Tape.onward ⟨journal.polarity, source, journal.stop⟩ journal.stop = [] :=
        Tape.onward_done (Nat.le_refl _)
      rw [Nat.sub_zero, none, Block.live] at live
      subst live
      exact Achieves.caught (achieves_pure (cuts _ _ now) (next room))
  | succ remaining ih =>
      have before : journal.stop - (remaining + 1) < journal.stop := by omega
      have index : journal.stop - (remaining + 1) + 1 = journal.stop - remaining := by omega
      have step := @Tape.onward_step ⟨journal.polarity, source, journal.stop⟩ (journal.stop - (remaining + 1)) before
      rw [index] at step
      rw [step] at live
      apply Achieves.then_caught
      apply achieves_load (by omega) (cuts _ _ now)
      rw [same current now]
      simp only
      split
      · rename_i unbound
        rw [Block.live_unbound unbound] at live
        exact ih (by omega) free late room current now clear copied live short next
      · rename_i id ufid bound
        have tape : journal.tape current = ⟨journal.polarity, source, journal.stop⟩ := by
          rw [Journal.tape, same current now]
        have last := Tape.last?_onward ⟨journal.polarity, source, journal.stop⟩ id (journal.stop - remaining)
        apply Achieves.then_caught
        apply achieves_last inside (fun torn => cuts torn _ now)
        rw [tape, index]
        cases answer :
            (Tape.chains ⟨journal.polarity, source, journal.stop⟩ id (journal.stop - remaining)).getLast? with
        | none =>
            rw [answer] at last
            rw [Block.live_orphan bound last] at live
            exact ih (by omega) free late room current now clear copied live short next
        | some chain =>
            rw [answer] at last
            rw [Block.live_entry bound last, ← List.cons_append] at live
            have length :
                (source (journal.stop - (remaining + 1)) :: chain.extent source).length = 1 + chain.count := by
              rw [List.length_cons, Chain.length_extent, Nat.add_comm]
            subst live
            rw [List.length_append, length] at short next
            rw [lay_append, length] at next
            simp only [← Nat.add_assoc] at short next
            have ends := (Tape.chainAt?_some.mp (Tape.getLast?_chains.mp answer).1.sound).2.2.1
            apply achieves_copyFile rest same cuts kept (Nat.le_trans ends inside) free late room current now clear
            · intro beyond
              exact short (by omega)
            · intro fits
              have laid := lay_keeps kept now free late
                (source (journal.stop - (remaining + 1)) :: chain.extent source)
              refine ih (by omega) (free + 1 + chain.count) (by omega) fits _ laid ?_ _ rfl short next
              intro position beyond
              rw [lay_apart _ _ (.inr (.inr (by rw [length]; omega)))]
              exact clear position (by omega)

/-- Copying a log lays down what is live in it in the other log, which was erased, if there is room. -/
theorem achieves_copyTo {result : Except StoreError (Except Violation Nat) → σ → Contents → Prop}
    (positive : 1 ≤ journal.stop) (inside : journal.stop ≤ journal.partition.blocks) (current : Contents)
    (now : rest current) (erased : ∀ position, current target position = Block.blank journal.polarity)
    (copied : List Block)
    (live : copied = Block.live journal.polarity (Tape.onward ⟨journal.polarity, source, journal.stop⟩ 1))
    (short : journal.partition.blocks < 1 + copied.length → ∀ after, rest after →
      result (.ok (.error (.blockOutside journal.partition.blocks))) state after)
    (next : 1 + copied.length ≤ journal.partition.blocks →
      result (.ok (.ok (1 + copied.length))) state (current.lay target 1 copied)) :
    journal.partition.Achieves result cut (journal.copyTo target).caught state current := by
  have first : journal.stop - (journal.stop - 1) = 1 := by omega
  rw [← first] at live
  exact achieves_copyLast rest same cuts kept inside (journal.stop - 1) (by omega) 1 (Nat.le_refl _)
    (Nat.le_trans positive inside) current now (fun position _ => erased position) copied live short next

end Copy

end Partition

end TwinLog
