import TwinLog.Medium.Simulated
import TwinLog.Proofs.Pruning

set_option autoImplicit false

namespace TwinLog

open LawfulMedium

variable {σ μ : Type} [Medium μ] [LawfulMedium μ]

/-- Whether a chain is one of the file `id` from the index `start` on: its first block declares it, and the chain passes
its check. -/
structure Journal.Sees (journal : Journal) (medium : μ) (id : FileId) (start : Nat) (chain : Chain) : Prop where
  from_start : start ≤ chain.start
  declared : journal.polarity.kind (journal.partition.contents medium journal.log chain.start).info = .start chain.head
  owner : chain.head.id = id
  accepted : (journal.accepts chain (journal.partition.contents medium journal.log chain.start)).run () medium =
    ⟨.ok true, (), medium⟩

namespace Tape

variable {tape tape' : Tape} {id other : FileId} {start start' : Nat} {older newer : Chain}

/-- No sound chain starts inside of another one. -/
theorem Holds.apart (first : tape.Holds id start older) (second : tape.Holds other start' newer)
    (before : older.start < newer.start) : older.stop ≤ newer.start := by
  by_contra within
  have kind := Chain.sound_further (chainAt?_some.mp first.sound).2.2.2 before (by omega)
  rw [(chainAt?_some.mp second.sound).2.1] at kind
  cases kind

/-- The last chain of a file stays the last one where all from its first block on stays as it is. -/
theorem getLast?_chains_kept (polarity : tape'.polarity = tape.polarity) (stop : tape'.stop = tape.stop)
    (kept : ∀ position, start ≤ position →
      (∀ chain, (tape.chains id start).getLast? = some chain → chain.start ≤ position) →
      tape'.blocks position = tape.blocks position) :
    (tape'.chains id start).getLast? = (tape.chains id start).getLast? := by
  cases last : (tape.chains id start).getLast? with
  | none =>
      rw [last] at kept
      rw [chains_same polarity stop (fun position late => kept position late (fun chain found => by cases found)), last]
  | some chain =>
      obtain ⟨holds, greatest⟩ := getLast?_chains.mp last
      have late := holds.from_start
      have same (position : Nat) (from_chain : chain.start ≤ position) :
          tape'.blocks position = tape.blocks position := by
        refine kept position (by omega) ?_
        intro found there
        rw [last, Option.some.injEq] at there
        rwa [← there]
      refine getLast?_chains.mpr ⟨holds.same polarity stop same, ?_⟩
      intro other there
      by_cases before : other.start ≤ chain.start
      · exact before
      · exact greatest other (there.same polarity.symm stop.symm fun position from_other =>
          (same position (by omega)).symm)

/-- With pruning every chain of a file but the last is superseded. -/
theorem mem_superseded {index : Nat} : index ∈ Chain.superseded true (tape.chains id start) ↔
    ∃ chain, tape.Holds id start chain ∧ (tape.chains id start).getLast? ≠ some chain ∧ chain.start = index := by
  constructor
  · intro member
    obtain ⟨older, last, holds, first, found, before⟩ := superseded_chains member
    refine ⟨older, holds, ?_, first⟩
    intro same
    rw [found, Option.some.injEq] at same
    rw [same, first] at before
    exact Nat.lt_irrefl _ before
  · rintro ⟨chain, holds, earlier, rfl⟩
    have member := mem_chains.mpr holds
    obtain ⟨last, found, -⟩ := holds.exists_last
    rw [← List.dropLast_append_getLast? last found, List.mem_append, List.mem_singleton] at member
    rcases member with behind | rfl
    · exact List.mem_map_of_mem behind
    · exact absurd found earlier

end Tape

namespace Partition

variable {journal : Journal} {medium after : μ} {id : FileId} {start : Nat} {prune : Bool} {state : σ}

theorem latest_ran (fits : journal.partition.Fits medium) (inside : journal.stop ≤ journal.partition.blocks)
    (id : FileId) (start : Nat) (prune : Bool) (state : σ) {chains : List Chain}
    (found : chains = (journal.tape (journal.partition.contents medium)).chains id start) :
    ∃ after, (journal.latest id start prune).run state medium = ⟨.ok chains.getLast?, state, after⟩ ∧
      journal.partition.Voided journal.log (Chain.superseded prune chains) medium after ∧
      (Chain.superseded prune chains = [] → after = medium) := by
  have ensured : Script.Ensures (fun result last after => result = .ok chains.getLast? ∧ last = state ∧
      journal.partition.Voided journal.log (Chain.superseded prune chains) medium after ∧
      (Chain.superseded prune chains = [] → after = medium)) (fun _ _ _ => True) (journal.latest id start prune) state
      medium :=
    ensures_latest inside fits chains found (fun _ _ _ _ => trivial) fun after voided untouched =>
      ⟨rfl, rfl, voided, untouched⟩
  exact ensured.ran

/-- Making superseded chains void does not change which chain is the last. -/
theorem Voided.getLast?_chains {chains : List Chain}
    (voided : journal.partition.Voided journal.log (Chain.superseded prune chains) medium after)
    (fits : journal.partition.Fits medium) (inside : journal.stop ≤ journal.partition.blocks)
    (found : chains = (journal.tape (journal.partition.contents medium)).chains id start) :
    ((journal.tape (journal.partition.contents after)).chains id start).getLast? = chains.getLast? := by
  subst found
  refine Tape.getLast?_chains_kept (by rfl) (by rfl) ?_
  intro position _ behind
  simp only [Journal.tape]
  rw [voided.contents fits (fun index member => Nat.lt_of_lt_of_le (Tape.superseded_inside member) inside)]
  refine Contents.voided_apart (fun member => ?_) _
  obtain ⟨-, last, -, -, found, before⟩ := Tape.superseded_chains member
  have late := behind last found
  omega

/-- Searches for the last chain of a file, pruning or not, all find the same one. -/
theorem latest_again (fits : journal.partition.Fits medium) (inside : journal.stop ≤ journal.partition.blocks)
    (id : FileId) (start : Nat) (state : σ) (prunes : List Bool) {chains : List Chain}
    (found : chains = (journal.tape (journal.partition.contents medium)).chains id start) :
    ∃ after, (prunes.mapM' (journal.latest id start)).run state medium =
      ⟨.ok (List.replicate prunes.length chains.getLast?), state, after⟩ := by
  induction prunes generalizing medium chains with
  | nil => exact ⟨medium, rfl⟩
  | cons prune rest ih =>
      obtain ⟨between, ran, voided, -⟩ := latest_ran fits inside id start prune state found
      obtain ⟨after, again⟩ := ih voided.fits rfl
      rw [voided.getLast?_chains fits inside found] at again
      refine ⟨after, ?_⟩
      rw [List.mapM', Script.run_bind, ran]
      simp only
      rw [Script.run_bind, again]
      rfl

end Partition

namespace Journal

variable {journal : Journal} {medium : μ} {id : FileId} {start : Nat}

theorem sees_iff (fits : journal.partition.Fits medium) (inside : journal.stop ≤ journal.partition.blocks)
    {chain : Chain} : journal.Sees medium id start chain ↔
      (journal.tape (journal.partition.contents medium)).Holds id start chain := by
  have accepts := (@Partition.observes_accepts Unit (journal.partition.contents medium) journal chain inside μ _ _
    medium fits rfl).run ()
  constructor
  · intro sees
    have accepted := sees.accepted
    rw [accepts, Outcome.mk.injEq, Except.ok.injEq, Bool.and_eq_true, decide_eq_true_eq] at accepted
    exact ⟨sees.from_start, Tape.chainAt?_some.mpr ⟨rfl, sees.declared, accepted.1⟩, sees.owner⟩
  · intro holds
    obtain ⟨-, declared, passed⟩ := Tape.chainAt?_some.mp holds.sound
    refine ⟨holds.from_start, declared, holds.owner, ?_⟩
    rw [accepts, Outcome.mk.injEq, Except.ok.injEq, Bool.and_eq_true, decide_eq_true_eq]
    exact ⟨passed, rfl, rfl⟩

/-- Looking for the last chain of a file is exact. Let a log hold anything. No chain that passes its check starts inside
of another, be it of the same file or not. So walking from chain to chain finds, for every file and every start and end
of the walk, the chain that starts last of those that the file has from the start on, and none if there is none; without
pruning the medium stays as it is. With pruning the chain that is found is the same, the first word of every other of
those chains is made void, and no other word of the medium changes. Any number of further walks, each pruning or not,
find this chain again. -/
theorem latest_exact (fits : journal.partition.Fits medium) (inside : journal.stop ≤ journal.partition.blocks)
    (id : FileId) (start : Nat) (state : σ) :
    (∀ other start' older newer, journal.Sees medium id start older → journal.Sees medium other start' newer →
      older.start ≤ newer.start → newer.start < older.stop → newer = older) ∧
    ∃ latest : Option Chain,
      (∀ chain, latest = some chain ↔ journal.Sees medium id start chain ∧
        ∀ other, journal.Sees medium id start other → other.start ≤ chain.start) ∧
      (latest = none ↔ ∀ chain, ¬ journal.Sees medium id start chain) ∧
      (journal.latest id start false).run state medium = ⟨.ok latest, state, medium⟩ ∧
      (∃ after, (journal.latest id start true).run state medium = ⟨.ok latest, state, after⟩ ∧
        journal.partition.Fits after ∧
        (∀ other, journal.Sees medium id start other → latest ≠ some other →
          cell after (journal.partition.cellOf journal.log other.start) = journal.polarity.voidWord) ∧
        ∀ position, (∀ other, journal.Sees medium id start other → latest ≠ some other →
          position ≠ journal.partition.cellOf journal.log other.start) → cell after position = cell medium position) ∧
      ∀ prunes : List Bool, ∃ after, (prunes.mapM' (journal.latest id start)).run state medium =
        ⟨.ok (List.replicate prunes.length latest), state, after⟩ := by
  simp only [sees_iff fits inside]
  constructor
  · intro other start' older newer first second late within
    by_cases same : newer.start = older.start
    · have there := second.sound
      rw [same, first.sound, Option.some.injEq] at there
      exact there.symm
    · have apart := first.apart second (by omega)
      omega
  obtain ⟨read, ran, -, untouched⟩ := Partition.latest_ran fits inside id start false state rfl
  obtain ⟨after, ran', voided, -⟩ := Partition.latest_ran fits inside id start true state rfl
  rw [untouched rfl] at ran
  refine ⟨_, fun chain => Tape.getLast?_chains, ?_, ran, ⟨after, ran', voided.fits, ?_, ?_⟩, fun prunes =>
    Partition.latest_again fits inside id start state prunes rfl⟩
  · rw [List.getLast?_eq_none_iff, List.eq_nil_iff_forall_not_mem]
    simp only [Tape.mem_chains]
  · intro other holds earlier
    rw [voided.cells, if_pos (List.mem_map_of_mem (Tape.mem_superseded.mpr ⟨other, holds, earlier, rfl⟩))]
    rfl
  · intro position elsewhere
    rw [voided.cells, if_neg]
    intro member
    obtain ⟨index, superseded, place⟩ := List.mem_map.mp member
    obtain ⟨other, holds, earlier, rfl⟩ := Tape.mem_superseded.mp superseded
    exact elsewhere other holds earlier place.symm

section Interrupted

set_option maxRecDepth 32768

/-- A log in which the last two of three starts of a file begin sound chains. The first one declares two blocks of which
the second is the next start; made void, that block would end its chain with the right checksum. -/
def interrupted : Simulated where
  polarity := .ones
  pageSize := 128
  words := Array.replicate 8 0 ++
    #[0x2801, 0, 0, 0, 0, 0, 0, 0xB32DEA76,
      0x1801, 0, 0, 0, 0, 0, 0, 0x1D33F72B,
      0x1801, 1, 0, 0, 0, 0, 0, 0x9C16920C] ++ Array.replicate 32 0xFFFFFFFF

theorem interrupted_fits : Partition.Fits ⟨.ones, ⟨0, 128, 128⟩⟩ interrupted := by
  refine Partition.Fits.simulated rfl rfl (by decide) ?_
  intro log
  cases log <;> decide

/-- Pruning such a log lets the first chain pass its check, and every walk still finds the third. -/
theorem latest_exact_interrupted :
    (chainAt ⟨⟨.ones, ⟨0, 128, 128⟩⟩, .a, 4⟩ 0 1).run () interrupted = ⟨.ok none, (), interrupted⟩ ∧
      ((latest ⟨⟨.ones, ⟨0, 128, 128⟩⟩, .a, 4⟩ 0 1 true >>= fun _ =>
        chainAt ⟨⟨.ones, ⟨0, 128, 128⟩⟩, .a, 4⟩ 0 1).run () interrupted).result = .ok (some ⟨1, ⟨0, 40, 0⟩⟩) ∧
      ∃ after, ([true, false, true].mapM' (latest ⟨⟨.ones, ⟨0, 128, 128⟩⟩, .a, 4⟩ 0 1)).run () interrupted =
        ⟨.ok (List.replicate 3 (some ⟨3, ⟨0, 24, 0⟩⟩)), (), after⟩ := by
  obtain ⟨-, last, -, -, found, -, again⟩ :=
    @latest_exact Unit Simulated _ _ ⟨⟨.ones, ⟨0, 128, 128⟩⟩, .a, 4⟩ interrupted interrupted_fits (by decide) 0 1 ()
  have ran : (latest ⟨⟨.ones, ⟨0, 128, 128⟩⟩, .a, 4⟩ 0 1 false).run () interrupted =
      ⟨.ok (some ⟨3, ⟨0, 24, 0⟩⟩), (), interrupted⟩ := by rfl
  rw [ran, Outcome.mk.injEq, Except.ok.injEq] at found
  rw [← found.1] at again
  exact ⟨by rfl, by rfl, again _⟩

end Interrupted

end Journal

end TwinLog
