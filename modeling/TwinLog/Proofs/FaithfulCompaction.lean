import TwinLog.Proofs.MapRefinement

set_option autoImplicit false

namespace TwinLog

def Tape.ufids (tape : Tape) : List Ufid :=
  (List.range' 1 (tape.stop - 1)).filterMap fun index => ((tape.blocks index).binding? tape.polarity).map Prod.snd

theorem Tape.ufids_eq (tape : Tape) : tape.ufids = (Record.entries (tape.records [] 1)).map Prod.snd := by
  rw [entries_records, List.map_filterMap]
  rfl

theorem Store.readable {store : Store} {contents : Contents} (positive : 1 ≤ store.free)
    (room : store.free ≤ store.partition.blocks) :
    store.Readable contents ((store.tape contents).records [] 1) (fun _ => True) :=
  ⟨positive, room, rfl, trivial, fun _ _ _ _ _ _ _ _ _ _ _ => trivial⟩

namespace Session

variable {μ : Type} [Medium μ] [LawfulMedium μ] {session rotated : Session μ} {store : Store}

theorem readAll_records (mounted : session.store = some store) (fits : store.partition.Fits session.medium)
    (positive : 1 ≤ store.free) (room : store.free ≤ store.partition.blocks) (ufid : Ufid) :
    (session.perform (.readAll ufid)).1 =
      .ok ((Record.files ((store.tape (store.partition.contents session.medium)).records [] 1)).reading ufid) := by
  obtain ⟨medium, given⟩ := session
  simp only at mounted fits
  subst mounted
  have readable : store.Readable (store.partition.contents medium) _ _ := Store.readable positive room
  have informs : Informs store medium _ _ (.readAll ufid) := informs_of_readable fits readable trivial
  obtain ⟨-, answer, after, performed, -, -, step⟩ := informs
  rw [performed, (step True).reading]

/-- Whatever a log holds, a rotation that comes to its end leaves what is live of it in the other log. -/
theorem rotated_of_done (mounted : session.store = some store) (fits : store.partition.Fits session.medium)
    (positive : 1 ≤ store.free) (room : store.free ≤ store.partition.blocks)
    (turned : session.perform .rotate = (.ok .done, rotated)) :
    ∃ left, rotated.store = some left ∧ store.partition.Fits rotated.medium ∧
      store.Rotated ((store.tape (store.partition.contents session.medium)).records [] 1) left
        (store.partition.contents rotated.medium) := by
  obtain ⟨medium, given⟩ := session
  simp only at mounted fits ⊢
  subst mounted
  rcases rotate_turned fits positive room with ⟨after, left, performed, fits', turn⟩ | ⟨-, halted⟩
  · rw [performed, Prod.mk.injEq] at turned
    obtain ⟨-, rfl⟩ := turned
    exact ⟨left, rfl, fits', turn.rotated⟩
  · rw [turned] at halted
    cases halted

/-- Compaction is faithful. Whatever the log holds, if no identifier is in two sound entries then after a rotation that
is acknowledged every file is answered as before, with its content or as missing. -/
theorem rotate_faithful (mounted : session.store = some store) (fits : store.partition.Fits session.medium)
    (positive : 1 ≤ store.free) (room : store.free ≤ store.partition.blocks)
    (distinct : (store.tape (store.partition.contents session.medium)).ufids.Nodup)
    (turned : session.perform .rotate = (.ok .done, rotated)) :
    ∃ files : Files, ∀ ufid, (session.perform (.readAll ufid)).1 = .ok (files.reading ufid) ∧
      (rotated.perform (.readAll ufid)).1 = .ok (files.reading ufid) := by
  rw [Tape.ufids_eq] at distinct
  obtain ⟨left, knows, fits', turn⟩ := rotated_of_done mounted fits positive room turned
  refine ⟨_, fun ufid => ⟨readAll_records mounted fits positive room ufid, ?_⟩⟩
  rw [← turn.partition] at fits'
  have answer := readAll_records knows fits' turn.settled.positive turn.room ufid
  rw [turn.partition, turn.settled.listed, Record.files_live distinct] at answer
  exact answer

section SharedId

set_option maxRecDepth 8192

/-- A log with two files that share an id, a chain of an id without an entry, and the start of a chain that goes on
past the end. -/
def sharedId : Session Simulated :=
  let blocks := [Block.ofList [Partition.marker], Block.entry .zeros 5 (Vector.replicate 12 7),
    Block.entry .zeros 5 (Vector.replicate 12 8)] ++ Chain.fresh .zeros 5 [1, 2] ++ Chain.fresh .zeros 9 [3] ++
    [Block.ofList [Polarity.startWord .zeros ⟨3, 500, 0⟩]]
  ⟨⟨.zeros, 64, (blocks.flatMap Block.toList ++ List.replicate 80 0).toArray⟩,
    some ⟨⟨.zeros, ⟨0, 256, 256⟩⟩, .a, 6⟩⟩

theorem sharedId_fits : Partition.Fits ⟨.zeros, ⟨0, 256, 256⟩⟩ sharedId.medium := by
  refine Partition.Fits.simulated rfl rfl (by decide) ?_
  intro log
  cases log <;> decide

/-- That log keeps its files over a rotation. -/
theorem rotate_faithful_sharedId :
    sharedId.perform .rotate = (.ok .done, (sharedId.perform .rotate).2) ∧
      ∃ files : Files, ∀ ufid, (sharedId.perform (.readAll ufid)).1 = .ok (files.reading ufid) ∧
        ((sharedId.perform .rotate).2.perform (.readAll ufid)).1 = .ok (files.reading ufid) := by
  have turned : sharedId.perform .rotate = (.ok .done, (sharedId.perform .rotate).2) := by rfl
  refine ⟨turned, ?_⟩
  exact @rotate_faithful Simulated _ _ sharedId _ ⟨⟨.zeros, ⟨0, 256, 256⟩⟩, .a, 6⟩ rfl sharedId_fits (by decide)
    (by decide) (by decide +kernel) turned

end SharedId

end Session

end TwinLog
