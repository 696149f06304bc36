import TwinLog.Proofs.Remounting

set_option autoImplicit false

namespace TwinLog

namespace Store

def kept (store : Store) (contents : Contents) : List Record :=
  Record.live ((store.tape contents).records [] 1)

def keptBlocks (store : Store) (contents : Contents) : Nat :=
  Record.weights (store.kept contents)

/-- The ids of the live entries: those that a chain of their id follows. -/
def keptIds (store : Store) (contents : Contents) : List FileId :=
  (Record.entries (store.kept contents)).map Prod.fst

/-- Whether there is no room in a log for what a compaction copies. -/
def Overflows (store : Store) (contents : Contents) : Prop :=
  store.partition.blocks < 1 + store.keptBlocks contents

variable {store left : Store} {contents after : Contents} {ufid : Ufid} {data : List UInt8}

theorem Saved.roomy {value : Except StoreError Unit} (saved : store.Saved contents ufid data value left after)
    (turns : store.Turns contents ufid data) : ¬ store.Overflows contents := by
  obtain ⟨small, blocks, needed, tight⟩ := turns
  cases saved with
  | large size => omega
  | atOnce _ placed enough =>
      cases placed with
      | full added =>
          rw [needed] at added
          cases added
      | fits added room =>
          rw [needed, Option.some.injEq] at added
          subst added
          omega
      | tight _ _ => exact absurd rfl enough
  | turned _ _ _ turn _ =>
      have room := turn.room
      rw [turn.full, turn.partition] at room
      exact Nat.not_lt.mpr room

end Store

namespace Session

variable {μ : Type} [Medium μ] [LawfulMedium μ] {session : Session μ} {store : Store} {medium : μ}

/-- A rotation copies what is live, or asks for the block behind the last one if that is more than a log holds. -/
theorem rotate_kept (fits : store.partition.Fits medium)
    (charge : store.InCharge (store.partition.contents medium)) :
    (¬ store.Overflows (store.partition.contents medium) ∧ ∃ after left,
      perform ⟨medium, some store⟩ .rotate = (.ok .done, ⟨after, some left⟩) ∧
        left.active = store.active.other ∧ left.free = 1 + store.keptBlocks (store.partition.contents medium)) ∨
    (store.Overflows (store.partition.contents medium) ∧
      (perform ⟨medium, some store⟩ .rotate).1 = .error (.blockOutside store.partition.blocks)) := by
  have copied : store.keptBlocks (store.partition.contents medium) =
      (store.live (store.partition.contents medium)).length := (store.length_live _).symm
  rw [Store.Overflows, copied]
  rcases rotate_turned fits charge.positive charge.room with ⟨after, left, performed, -, turn⟩ | halted
  · obtain ⟨rfl, room, -⟩ := turn
    exact .inl ⟨Nat.not_lt.mpr room, after, _, performed, rfl, rfl⟩
  · exact .inr halted

/-- A save breaks a precondition only where it is to compact what is more than a log holds. -/
theorem save_kept (fits : store.partition.Fits medium) (charge : store.InCharge (store.partition.contents medium))
    (ufid : Ufid) (data : List UInt8) (violation : Violation) :
    (perform ⟨medium, some store⟩ (.save ufid data)).1 = .error violation ↔
      violation = .blockOutside store.partition.blocks ∧ store.Turns (store.partition.contents medium) ufid data ∧
        store.Overflows (store.partition.contents medium) := by
  have achieved : store.partition.Achieves
      (fun value _ _ =>
        (value = .ok (.error (.blockOutside store.partition.blocks)) ∧
          store.Turns (store.partition.contents medium) ufid data ∧
          store.Overflows (store.partition.contents medium)) ∨
        ((∃ ended : Except StoreError Unit, value = ended.map .ok) ∧
          (store.Turns (store.partition.contents medium) ufid data →
            ¬ store.Overflows (store.partition.contents medium))))
      (fun _ _ _ => True) (store.save ufid data).caught store (store.partition.contents medium) := by
    apply Partition.achieves_save_inCharge charge
    · intro turns beyond _ _
      exact .inl ⟨rfl, turns, beyond⟩
    · intro ended left after saved
      exact .inr ⟨⟨ended, rfl⟩, saved.roomy⟩
  obtain ⟨value, left, after, -, ended, changed⟩ :=
    @change_of_caught μ _ _ store.partition ⟨medium, some store⟩ store _ _ _ _ fits achieved (fun () => Answer.done)
  have performed : perform ⟨medium, some store⟩ (.save ufid data) = _ := changed
  rw [performed]
  cases ended with
  | inl halted =>
      obtain ⟨rfl, turns, beyond⟩ := halted
      constructor
      · intro broken
        cases broken
        exact ⟨rfl, turns, beyond⟩
      · rintro ⟨rfl, -⟩
        rfl
  | inr finished =>
      obtain ⟨⟨ended, rfl⟩, roomy⟩ := finished
      constructor
      · intro broken
        cases ended <;> cases broken
      · rintro ⟨-, turns, beyond⟩
        exact absurd beyond (roomy turns)

/-- Where the live entries have ids of their own, compaction fits. Whatever was on a medium that has room for the logs,
and whatever was asked of the store since it was mounted: if no two live entries share an id, what a compaction copies
is no more than the active log has in use, a rotation succeeds and leaves just that, and no save breaks a precondition.
In general a rotation ends well unless what it copies, each live entry with the latest chain of its id, is more than a
log holds besides its marker; if so it asks for the block behind the last one, as does each save that compacts, and
nothing else breaks a precondition. -/
theorem rotate_fits {geometry : Geometry} (fits : Partition.Fits ⟨Medium.polarity medium, geometry⟩ medium)
    (requests : List Request) (same : ∀ other, .mount other ∈ requests → other = geometry) {answers : List Answer}
    (reached : performAll ⟨medium, none⟩ (.mount geometry :: requests) = (answers, none, session)) :
    ∃ store contents, session.store = some store ∧ store.partition = ⟨Medium.polarity medium, geometry⟩ ∧
      contents = store.partition.contents session.medium ∧
      ((store.keptIds contents).Nodup → store.keptBlocks contents ≤ store.free - 1 ∧
        (∃ after left, session.perform .rotate = (.ok .done, ⟨after, some left⟩) ∧
          left.free - 1 = store.keptBlocks contents) ∧
        ∀ ufid data, ∃ answer, (session.perform (.save ufid data)).1 = .ok answer) ∧
      (store.keptBlocks contents ≤ geometry.blocks - 1 → ∃ after left,
        session.perform .rotate = (.ok .done, ⟨after, some left⟩) ∧ left.active = store.active.other ∧
          left.free - 1 = store.keptBlocks contents) ∧
      (geometry.blocks - 1 < store.keptBlocks contents →
        (session.perform .rotate).1 = .error (.blockOutside geometry.blocks)) ∧
      ∀ ufid data violation, (session.perform (.save ufid data)).1 = .error violation ↔
        violation = .blockOutside geometry.blocks ∧ store.Turns contents ufid data ∧
          geometry.blocks - 1 < store.keptBlocks contents := by
  obtain ⟨store, mounted, together, room, charge⟩ :=
    @performAll_inCharge μ _ _ ⟨Medium.polarity medium, geometry⟩ session medium fits requests same answers reached
  rw [← together] at room charge
  have total : store.partition.blocks = geometry.blocks := by rw [together]; rfl
  have two : 2 ≤ geometry.blocks := (Geometry.check_ok fits.checked).two
  obtain ⟨last, given⟩ := session
  obtain rfl : given = some store := mounted
  have overflows : store.Overflows (store.partition.contents last) ↔
      geometry.blocks - 1 < store.keptBlocks (store.partition.contents last) := by
    rw [Store.Overflows, total]
    omega
  have rotates := rotate_kept room charge
  have saves := save_kept room charge
  simp only [overflows, total] at rotates saves
  have copies (enough : store.keptBlocks (store.partition.contents last) ≤ geometry.blocks - 1) : ∃ after left,
      perform ⟨last, some store⟩ .rotate = (.ok .done, ⟨after, some left⟩) ∧ left.active = store.active.other ∧
        left.free - 1 = store.keptBlocks (store.partition.contents last) := by
    rcases rotates with ⟨-, after, left, performed, turned, full⟩ | ⟨beyond, -⟩
    · exact ⟨after, left, performed, turned, by omega⟩
    · omega
  refine ⟨store, store.partition.contents last, rfl, together, rfl, ?_, copies, ?_, saves⟩
  · intro distinct
    have short : 1 + store.keptBlocks (store.partition.contents last) ≤ store.free :=
      Store.live_short rfl charge.positive distinct
    have within := charge.room
    have enough : store.keptBlocks (store.partition.contents last) ≤ geometry.blocks - 1 := by omega
    obtain ⟨after, left, performed, -, full⟩ := copies enough
    refine ⟨by omega, ⟨after, left, performed, full⟩, ?_⟩
    intro ufid data
    cases ended : (perform ⟨last, some store⟩ (.save ufid data)).1 with
    | ok answer => exact ⟨answer, rfl⟩
    | error violation =>
        obtain ⟨-, -, beyond⟩ := (saves ufid data violation).mp ended
        omega
  · intro beyond
    rcases rotates with ⟨roomy, -⟩ | ⟨-, halted⟩
    · exact absurd beyond roomy
    · exact halted

section SharedIds

set_option maxRecDepth 8192

/-- Two entries share an id and one chain, and both copies of it do not fit into the other log: the log holds three
blocks besides its marker, a rotation asks for a fourth, and so does a save that compacts. -/
theorem rotate_overfull :
    Partition.Fits ⟨.ones, ⟨0, 128, 128⟩⟩ overfull ∧ Geometry.blocks ⟨0, 128, 128⟩ = 4 ∧
      performAll ⟨overfull, none⟩ [.mount ⟨0, 128, 128⟩] =
        ([.done], none, ⟨overfull, some ⟨⟨.ones, ⟨0, 128, 128⟩⟩, .a, 4⟩⟩) ∧
      Store.keptBlocks ⟨⟨.ones, ⟨0, 128, 128⟩⟩, .a, 4⟩ (Partition.contents ⟨.ones, ⟨0, 128, 128⟩⟩ overfull) = 4 ∧
      (perform ⟨overfull, some ⟨⟨.ones, ⟨0, 128, 128⟩⟩, .a, 4⟩⟩ .rotate).1 = .error (.blockOutside 4) ∧
      (perform ⟨overfull, some ⟨⟨.ones, ⟨0, 128, 128⟩⟩, .a, 4⟩⟩ (.save (Vector.replicate 12 7) [3])).1 =
        .error (.blockOutside 4) := by
  exact ⟨overfull_fits, by rfl, by rfl, by rfl, by rfl, by rfl⟩

/-- A full log in which two entries share an id, but the chain is only behind the first one. -/
def halfLive : Simulated :=
  let blocks := [Block.ofList [Partition.marker], Block.entry .ones 0 (Vector.replicate 12 7)] ++
    Chain.fresh .ones 0 [1, 2] ++ [Block.entry .ones 0 (Vector.replicate 12 8)]
  ⟨.ones, 128, (blocks.flatMap Block.toList ++ List.replicate 32 Simulated.garbage).toArray⟩

theorem halfLive_fits : Partition.Fits ⟨.ones, ⟨0, 128, 128⟩⟩ halfLive := by
  refine Partition.Fits.simulated rfl rfl (by decide) ?_
  intro log
  cases log <;> decide

/-- The other entry of that log is not live: a rotation copies two of its three blocks. -/
theorem rotate_fits_halfLive :
    performAll ⟨halfLive, none⟩ [.mount ⟨0, 128, 128⟩] =
        ([.done], none, ⟨halfLive, some ⟨⟨.ones, ⟨0, 128, 128⟩⟩, .a, 4⟩⟩) ∧
      ∃ after left, perform ⟨halfLive, some ⟨⟨.ones, ⟨0, 128, 128⟩⟩, .a, 4⟩⟩ .rotate =
        (.ok .done, ⟨after, some left⟩) ∧ left.free - 1 = 2 := by
  have reached : performAll ⟨halfLive, none⟩ [.mount ⟨0, 128, 128⟩] =
      ([.done], none, ⟨halfLive, some ⟨⟨.ones, ⟨0, 128, 128⟩⟩, .a, 4⟩⟩) := by rfl
  obtain ⟨store, contents, mounted, -, rfl, distinct, -⟩ :=
    @rotate_fits Simulated _ _ _ halfLive ⟨0, 128, 128⟩ halfLive_fits [] (fun other member => absurd member (by simp)) _
      reached
  obtain rfl := Option.some.inj mounted
  obtain ⟨-, ⟨after, left, performed, full⟩, -⟩ := distinct (by decide)
  exact ⟨reached, after, left, performed, full⟩

end SharedIds

end Session

end TwinLog
