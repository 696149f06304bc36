import TwinLog.Proofs.Corruption

set_option autoImplicit false

namespace TwinLog

theorem Block.binding?_some {polarity : Polarity} {block : Block} {id : FileId} {ufid : Ufid} :
    block.binding? polarity = some (id, ufid) ↔
      polarity.kind block.info = .entry id ∧ block.checks 0 = true ∧ block.ufid = ufid := by
  constructor
  · intro bound
    refine ⟨kind_of_binding bound, ?_⟩
    rw [binding?, kind_of_binding bound] at bound
    simp only [Option.ite_none_right_eq_some, Option.some.injEq, Prod.mk.injEq, true_and] at bound
    exact bound
  · rintro ⟨kind, checked, owner⟩
    rw [binding?, kind]
    simp only [checked, if_true, owner]

namespace Tape

/-- Whether the block at `index` is a sound entry that binds `ufid` to `id`. -/
structure Binds (tape : Tape) (index : Nat) (id : FileId) (ufid : Ufid) : Prop where
  from_first : 1 ≤ index
  inside : index < tape.stop
  kind : tape.polarity.kind (tape.blocks index).info = .entry id
  checks : (tape.blocks index).checks 0 = true
  owner : (tape.blocks index).ufid = ufid

def Unused (tape : Tape) (id : FileId) : Prop :=
  ∀ index ufid, ¬ tape.Binds index id ufid

/-- Whether an answer to where the entry of `ufid` is, is right: the sound entry of the lowest index, or, if there is
none, the lowest unused id, or none if every id is carried by some entry. -/
def Answers (tape : Tape) (ufid : Ufid) : Lookup → Prop
  | .found id index => tape.Binds index id ufid ∧ ∀ other owner, tape.Binds other owner ufid → index ≤ other
  | .vacant (some id) =>
      (∀ index owner, ¬ tape.Binds index owner ufid) ∧ tape.Unused id ∧ ∀ other, tape.Unused other → id ≤ other
  | .vacant none => (∀ index owner, ¬ tape.Binds index owner ufid) ∧ ∀ id, ¬ tape.Unused id

variable {tape : Tape} {index : Nat} {id : FileId} {ufid : Ufid}

theorem binds_iff : tape.Binds index id ufid ↔
    1 ≤ index ∧ index < tape.stop ∧ (tape.blocks index).binding? tape.polarity = some (id, ufid) := by
  rw [Block.binding?_some]
  exact ⟨fun ⟨late, early, kind, checked, owner⟩ => ⟨late, early, kind, checked, owner⟩,
    fun ⟨late, early, kind, checked, owner⟩ => ⟨late, early, kind, checked, owner⟩⟩

/-- The sound entries are those that the records of a log name. -/
theorem mem_entries : (id, ufid) ∈ Record.entries (tape.records [] 1) ↔ ∃ index, tape.Binds index id ufid := by
  simp only [entries_records, List.mem_filterMap, List.mem_range'_1, binds_iff]
  constructor
  · rintro ⟨index, within, bound⟩
    exact ⟨index, within.1, by omega, bound⟩
  · rintro ⟨index, late, early, bound⟩
    exact ⟨index, by omega, bound⟩

theorem unused_iff : tape.Unused id ↔ id ∉ (Record.entries (tape.records [] 1)).map Prod.fst := by
  rw [List.mem_map, Unused]
  constructor
  · rintro unused ⟨⟨owner, ufid⟩, member, rfl⟩
    obtain ⟨index, binds⟩ := mem_entries.mp member
    exact unused index ufid binds
  · intro absent index ufid binds
    exact absent ⟨(id, ufid), mem_entries.mpr ⟨index, binds⟩, rfl⟩

/-- No entry of an identifier comes before the one that is located. -/
theorem Locates.least (located : tape.Locates ufid 1 [] (.found id index)) {other : Nat} {owner : FileId}
    (binds : tape.Binds other owner ufid) : index ≤ other := by
  obtain ⟨late, early, bound, before, split, absent⟩ := located
  by_contra earlier
  have entry : tape.visible [] index = some (.entry id ufid) := by rw [visible_nil, recordAt_entry bound]
  -- what is said before the entry is what the blocks before it say
  have same : before = (List.range' 1 (index - 1)).filterMap (tape.visible []) := by
    rw [records_split [] late (Nat.le_of_lt early), records_step tape [] early, entry] at split
    exact (List.append_cancel_right split).symm
  rw [same, entries_visible] at absent
  apply absent
  rw [List.mem_map]
  refine ⟨(owner, ufid), List.mem_filterMap.mpr ⟨other, ?_, (binds_iff.mp binds).2.2⟩, rfl⟩
  have positive := binds.from_first
  rw [List.mem_range'_1]
  omega

theorem answers_lookup (tape : Tape) (ufid : Ufid) : tape.Answers ufid (tape.lookup ufid) := by
  have located := tape.locates_lookup ufid
  cases answer : tape.lookup ufid with
  | found id index =>
      rw [answer] at located
      exact ⟨binds_iff.mpr ⟨located.1, located.2.1, located.2.2.1⟩, fun other owner binds => located.least binds⟩
  | vacant next =>
      rw [answer] at located
      have absent (index : Nat) (owner : FileId) : ¬ tape.Binds index owner ufid := by
        intro binds
        exact located.1 (List.mem_map.mpr ⟨(owner, ufid), mem_entries.mpr ⟨index, binds⟩, rfl⟩)
      have lowest := located.owner_vacant.2
      cases next with
      | some id =>
          refine ⟨absent, unused_iff.mpr (FileId.lowestUnused_not_mem lowest.symm), ?_⟩
          intro other unused
          exact FileId.lowestUnused_le lowest.symm (unused_iff.mp unused)
      | none =>
          refine ⟨absent, ?_⟩
          intro id unused
          exact unused_iff.mp unused (FileId.lowestUnused_eq_none_iff.mp lowest.symm _)

/-- Blocks that are no sound entries make no difference to a lookup. -/
theorem lookupIn_silent {indices : List Nat}
    (silent : ∀ index ∈ indices, (tape.blocks index).binding? tape.polarity = none) (used : List FileId) :
    tape.lookupIn ufid indices used = .vacant (FileId.lowestUnused used) := by
  induction indices with
  | nil => rfl
  | cons index rest ih =>
      rw [lookupIn, silent index List.mem_cons_self]
      exact ih fun later member => silent later (List.mem_cons_of_mem index member)

end Tape

namespace Journal

variable {σ μ : Type} [Medium μ] [LawfulMedium μ] {journal : Journal} {medium : μ} {ufid : Ufid}

/-- What the walk comes to whose end is behind the end of the log: it finds what there is to find, or breaks a
precondition at the end of the log. -/
def past (journal : Journal) (state : σ) (medium : μ) : Lookup → Outcome σ μ Lookup
  | .found id index => ⟨.ok (.found id index), state, medium⟩
  | .vacant _ => ⟨.error (.halt (.blockOutside journal.partition.blocks)), state, medium⟩

theorem lookupLast_past (fits : journal.partition.Fits medium) (beyond : journal.partition.blocks < journal.stop)
    (state : σ) (remaining : Nat) (enough : remaining ≤ journal.stop)
    (reached : journal.stop - remaining ≤ journal.partition.blocks) (used : List FileId) :
    (journal.lookupLast ufid remaining used).run state medium = journal.past state medium
      ((journal.tape (journal.partition.contents medium)).lookupIn ufid
        (List.range' (journal.stop - remaining) remaining) used) := by
  induction remaining generalizing used with
  | zero => omega
  | succ remaining ih =>
      rw [lookupLast]
      by_cases inside : journal.stop - (remaining + 1) < journal.partition.blocks
      · have loaded : journal.partition.Observes (journal.partition.contents medium)
            (journal.load (journal.stop - (remaining + 1)) : Script σ Block) _ := Partition.observes_load inside
        rw [Script.run_bind, (loaded μ medium fits rfl).run state, List.range'_succ, Tape.lookupIn,
          show journal.stop - (remaining + 1) + 1 = journal.stop - remaining by omega]
        simp only [tape] at ih ⊢
        cases (journal.partition.contents medium journal.log (journal.stop - (remaining + 1))).binding?
            journal.polarity with
        | none => exact ih (by omega) (by omega) used
        | some binding =>
            simp only
            split
            · rfl
            · exact ih (by omega) (by omega) (binding.1 :: used)
      · rw [load_outside inside, Tape.lookupIn_silent, past,
          show journal.stop - (remaining + 1) = journal.partition.blocks by omega]
        intro index member
        rw [List.mem_range'_1] at member
        simp only [tape]
        rw [Partition.contents_outside journal.log (by omega)]
        exact Block.binding?_blank _

/-- A lookup meets its specification on every log. Whatever the log holds and wherever in it the walk ends, the answer is
the sound entry of the lowest index that binds the identifier, and if there is none the lowest of the ids that no sound
entry carries, or none exactly if all are carried; the medium is left as it is. Where the walk would end behind the end
of the log, an entry is found all the same, and if there is none the walk stops there. -/
theorem lookup_exact (fits : journal.partition.Fits medium) (ufid : Ufid) (state : σ) :
    ∃ answer, (journal.tape (journal.partition.contents medium)).Answers ufid answer ∧
      (journal.stop ≤ journal.partition.blocks →
        (journal.lookup ufid).run state medium = ⟨.ok answer, state, medium⟩) ∧
      (journal.partition.blocks < journal.stop →
        (journal.lookup ufid).run state medium = journal.past state medium answer) := by
  refine ⟨_, Tape.answers_lookup _ ufid, ?_, ?_⟩
  · intro inside
    have observed : journal.partition.Observes (journal.partition.contents medium)
        (journal.lookup ufid : Script σ Lookup) _ := Partition.observes_lookup inside
    exact (observed μ medium fits rfl).run state
  · intro beyond
    have some_blocks : 2 ≤ journal.partition.blocks := (Geometry.check_ok fits.checked).two
    have walked := @lookupLast_past σ μ _ _ journal medium ufid fits beyond state (journal.stop - 1) (by omega)
      (by omega) []
    rw [show journal.stop - (journal.stop - 1) = 1 by omega] at walked
    exact walked

section Cluttered

set_option maxRecDepth 32768

def cluttered : Simulated where
  polarity := .zeros
  pageSize := 64
  words := (List.replicate 8 0 ++ (Block.entry .zeros 1 (Vector.replicate 12 7)).toList.set 7 0 ++
    Block.wordsOf [Block.entry .zeros 0 (Vector.replicate 12 8), Block.entry .zeros 2 (Vector.replicate 12 7),
      Block.entry .zeros 5 (Vector.replicate 12 7)] ++ List.replicate 56 0).toArray

theorem cluttered_fits : Partition.Fits ⟨.zeros, ⟨0, 192, 192⟩⟩ cluttered := by
  refine Partition.Fits.simulated rfl rfl (by decide +kernel) ?_
  intro log
  cases log <;> decide +kernel

/-- There the entry of id 2 is found, not the torn one nor the later one, and the id of the torn one is the lowest that
is free. A walk whose end is behind the end of the log finds that entry too. -/
theorem lookup_exact_cluttered :
    ((lookup ⟨⟨.zeros, ⟨0, 192, 192⟩⟩, .a, 5⟩ (Vector.replicate 12 7)).run () cluttered =
        ⟨.ok (.found 2 3), (), cluttered⟩ ∧
      (tape ⟨⟨.zeros, ⟨0, 192, 192⟩⟩, .a, 5⟩ (Partition.contents ⟨.zeros, ⟨0, 192, 192⟩⟩ cluttered)).Answers
        (Vector.replicate 12 7) (.found 2 3)) ∧
      (lookup ⟨⟨.zeros, ⟨0, 192, 192⟩⟩, .a, 5⟩ (Vector.replicate 12 9)).run () cluttered =
        ⟨.ok (.vacant (some 1)), (), cluttered⟩ ∧
      (tape ⟨⟨.zeros, ⟨0, 192, 192⟩⟩, .a, 5⟩ (Partition.contents ⟨.zeros, ⟨0, 192, 192⟩⟩ cluttered)).Answers
        (Vector.replicate 12 9) (.vacant (some 1)) ∧
      (lookup ⟨⟨.zeros, ⟨0, 192, 192⟩⟩, .a, 9⟩ (Vector.replicate 12 7)).run () cluttered =
        ⟨.ok (.found 2 3), (), cluttered⟩ ∧
      (tape ⟨⟨.zeros, ⟨0, 192, 192⟩⟩, .a, 9⟩ (Partition.contents ⟨.zeros, ⟨0, 192, 192⟩⟩ cluttered)).Answers
        (Vector.replicate 12 7) (.found 2 3) := by
  have found : (lookup ⟨⟨.zeros, ⟨0, 192, 192⟩⟩, .a, 5⟩ (Vector.replicate 12 7)).run () cluttered =
      ⟨.ok (.found 2 3), (), cluttered⟩ := by rfl
  have vacant : (lookup ⟨⟨.zeros, ⟨0, 192, 192⟩⟩, .a, 5⟩ (Vector.replicate 12 9)).run () cluttered =
      ⟨.ok (.vacant (some 1)), (), cluttered⟩ := by rfl
  have late : (lookup ⟨⟨.zeros, ⟨0, 192, 192⟩⟩, .a, 9⟩ (Vector.replicate 12 7)).run () cluttered =
      ⟨.ok (.found 2 3), (), cluttered⟩ := by rfl
  refine ⟨⟨found, ?_⟩, vacant, ?_, late, ?_⟩
  · obtain ⟨answer, right, ran, -⟩ := @lookup_exact Unit Simulated _ _ ⟨⟨.zeros, ⟨0, 192, 192⟩⟩, .a, 5⟩ cluttered
      cluttered_fits (Vector.replicate 12 7) ()
    rw [ran (by decide), Outcome.mk.injEq, Except.ok.injEq] at found
    rwa [found.1] at right
  · obtain ⟨answer, right, ran, -⟩ := @lookup_exact Unit Simulated _ _ ⟨⟨.zeros, ⟨0, 192, 192⟩⟩, .a, 5⟩ cluttered
      cluttered_fits (Vector.replicate 12 9) ()
    rw [ran (by decide), Outcome.mk.injEq, Except.ok.injEq] at vacant
    rwa [vacant.1] at right
  · obtain ⟨answer, right, -, ran⟩ := @lookup_exact Unit Simulated _ _ ⟨⟨.zeros, ⟨0, 192, 192⟩⟩, .a, 9⟩ cluttered
      cluttered_fits (Vector.replicate 12 7) ()
    rw [ran (by decide)] at late
    cases answer with
    | found id index =>
        rw [past, Outcome.mk.injEq, Except.ok.injEq] at late
        rwa [late.1] at right
    | vacant next => cases late

end Cluttered

end Journal

end TwinLog
