import TwinLog.Proofs.FaithfulCompaction
import TwinLog.Proofs.Remounting

set_option autoImplicit false

namespace TwinLog

namespace Store

variable {store first second : Store} {contents middle after : Contents}

/-- What is live in the log that a rotation wrote is all that it copied. -/
theorem Turned.live_turned (turn : store.Turned contents first middle) : first.live middle = store.live contents := by
  obtain ⟨rfl, -, written, -⟩ := turn
  have onward := Tape.onward_logOf store.partition.polarity (store.live contents)
  rw [← written] at onward
  exact (congrArg (Block.live store.partition.polarity) onward).trans (Block.live_live _)

/-- Two rotations in a row write the same log, the second one in the place of the log before. -/
theorem Turned.again (turn : store.Turned contents first middle) (next : first.Turned middle second after) :
    second = ⟨store.partition, store.active, first.free⟩ ∧ after store.active = middle store.active.other := by
  have live := turn.live_turned
  obtain ⟨rfl, -, written, -⟩ := turn
  obtain ⟨rfl, -, rewritten, -⟩ := next
  rw [live] at rewritten
  simp only [live, Log.other_other] at rewritten ⊢
  exact ⟨trivial, rewritten.trans written.symm⟩

end Store

namespace Session

variable {μ : Type} [Medium μ] [LawfulMedium μ] {session once : Session μ} {store first : Store}

theorem rotate_again {contents : Contents} {middle : μ} (fits : store.partition.Fits middle)
    (turn : store.Turned contents first (store.partition.contents middle)) :
    ∃ after second, perform ⟨middle, some first⟩ .rotate = (.ok .done, ⟨after, some second⟩) ∧
      first.Turned (store.partition.contents middle) second (store.partition.contents after) := by
  have live := turn.live_turned
  obtain ⟨partition, -, room, settled, -, -, -⟩ := turn.rotated
  have left := turn.left
  rw [← partition] at fits live ⊢
  rcases rotate_turned fits settled.positive room with ⟨after, second, performed, -, again⟩ | ⟨beyond, -⟩
  · exact ⟨after, second, performed, again⟩
  · rw [live] at beyond
    subst left
    exact absurd room (Nat.not_le.mpr beyond)

/-- Compaction is a fixpoint. Whatever was on a medium that has room for the logs, after any history that starts by
mounting it and breaks no precondition: if a rotation ends well then so does another one right after it. The first makes
the other log the active one, and what it holds is the marker, the blocks that were copied, up to its end, and erased
blocks behind. The second makes the log active that was so before, with the same end, and leaves in it, word for word,
what the first has left in the other log. -/
theorem rotate_fixpoint {medium : μ} {geometry : Geometry}
    (fits : Partition.Fits ⟨Medium.polarity medium, geometry⟩ medium) (requests : List Request)
    (same : ∀ other, .mount other ∈ requests → other = geometry) {answers : List Answer}
    (reached : performAll ⟨medium, none⟩ (.mount geometry :: requests) = (answers, none, session))
    (turned : session.perform .rotate = (.ok .done, once)) :
    ∃ store first second twice copied, session.store = some store ∧ once.store = some first ∧
      once.perform .rotate = (.ok .done, twice) ∧ twice.store = some second ∧
      first = ⟨store.partition, store.active.other, 1 + copied.length⟩ ∧
      second = ⟨store.partition, store.active, 1 + copied.length⟩ ∧
      copied = store.live (store.partition.contents session.medium) ∧
      store.partition.contents once.medium first.active = Partition.logOf store.partition.polarity copied ∧
      store.partition.contents twice.medium second.active = store.partition.contents once.medium first.active := by
  obtain ⟨store, knows, together, room, charge⟩ :=
    @performAll_inCharge μ _ _ ⟨Medium.polarity medium, geometry⟩ session medium fits requests same answers reached
  rw [← together] at charge room
  obtain ⟨last, given⟩ := session
  obtain rfl : given = some store := knows
  rcases rotate_turned room charge.positive charge.room with ⟨middle, first, performed, fits', turn⟩ | ⟨-, halted⟩
  · rw [performed, Prod.mk.injEq] at turned
    obtain ⟨-, rfl⟩ := turned
    obtain ⟨after, second, performed', next⟩ := rotate_again fits' turn
    obtain ⟨rfl, rewritten⟩ := turn.again next
    obtain ⟨rfl, -, written, -⟩ := turn
    exact ⟨store, _, _, _, _, rfl, rfl, performed', rfl, rfl, rfl, rfl, written, rewritten⟩
  · rw [turned] at halted
    cases halted

section SharedId

set_option maxRecDepth 8192

/-- Two entries that share an id and its chain, a chain of an id without an entry and the start of a torn one: the first
rotation copies the chain twice and leaves out the rest, and the second one writes the same log again. -/
theorem rotate_fixpoint_sharedId :
    (sharedId.perform .rotate).1 = .ok .done ∧
      ∃ twice, (sharedId.perform .rotate).2.perform .rotate = (.ok .done, twice) ∧
        twice.store = some ⟨⟨.zeros, ⟨0, 256, 256⟩⟩, .a, 5⟩ ∧
        Partition.contents ⟨.zeros, ⟨0, 256, 256⟩⟩ twice.medium .a =
          Partition.contents ⟨.zeros, ⟨0, 256, 256⟩⟩ (sharedId.perform .rotate).2.medium .b := by
  have reached : performAll ⟨sharedId.medium, none⟩ [.mount ⟨0, 256, 256⟩] = ([.done], none, sharedId) := by rfl
  have turned : sharedId.perform .rotate = (.ok .done, (sharedId.perform .rotate).2) := by rfl
  have after : (sharedId.perform .rotate).2.store = some ⟨⟨.zeros, ⟨0, 256, 256⟩⟩, .b, 5⟩ := by rfl
  obtain ⟨store, first, second, twice, copied, mounted, left, again, right, rfl, rfl, -, -, same⟩ :=
    @rotate_fixpoint Simulated _ _ sharedId _ sharedId.medium ⟨0, 256, 256⟩ sharedId_fits []
      (fun other member => absurd member List.not_mem_nil) _ reached turned
  obtain rfl : ⟨⟨.zeros, ⟨0, 256, 256⟩⟩, .a, 6⟩ = store := Option.some.inj mounted
  rw [after, Option.some.injEq, Store.mk.injEq] at left
  refine ⟨by rw [turned], twice, again, ?_, same⟩
  rw [right, ← left.2.2]

end SharedId

end Session

end TwinLog
