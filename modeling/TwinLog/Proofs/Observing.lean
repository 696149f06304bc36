import TwinLog.Proofs.Contents

set_option autoImplicit false

namespace TwinLog

namespace Script

variable {σ α β μ : Type} [Medium μ]

/-- Whether an operation makes no other calls than reads, which all end well and leave the medium as it is, and comes to
`value`. -/
def Observes (medium : μ) (value : α) : Script σ α → Prop
  | done delivered => delivered = value
  | read address count next =>
      ∃ words, Medium.read medium address count = (⟨words, none⟩, medium) ∧ Observes medium value (next words)
  | _ => False

variable {medium : μ} {value : α} {script : Script σ α}

theorem Observes.bind {next : α → Script σ β} {last : β} (first : Observes medium value script)
    (second : Observes medium last (next value)) : Observes medium last (script >>= next) := by
  induction script with
  | done delivered =>
      cases first
      exact second
  | read address count rest ih =>
      obtain ⟨words, passed, later⟩ := first
      exact ⟨words, passed, ih words later⟩
  | _ => cases first

theorem Observes.run (observes : Observes medium value script) (state : σ) :
    script.run state medium = ⟨.ok value, state, medium⟩ := by
  induction script with
  | done delivered =>
      cases observes
      rfl
  | read address count rest ih =>
      obtain ⟨words, passed, later⟩ := observes
      simp only [Script.run, passed]
      exact ih words later
  | _ => cases observes

/-- Whatever an operation that only reads is held to has to hold of the medium as it is. -/
theorem Observes.ensures (observes : Observes medium value script) {state : σ}
    {result : Except StoreError α → σ → μ → Prop} {cut : Bool → σ → μ → Prop} (here : cut false state medium)
    (next : result (.ok value) state medium) : Ensures result cut script state medium := by
  induction script with
  | done delivered =>
      cases observes
      exact ⟨here, next⟩
  | read address count rest ih =>
      obtain ⟨words, passed, later⟩ := observes
      simp only [Ensures, passed]
      exact ⟨here, ih words later⟩
  | _ => cases observes

end Script

namespace Partition

open LawfulMedium

variable {σ α β : Type} {partition : Partition} {contents : Contents} {log : Log}

/-- Whether, on every medium in working order that holds `contents`, an operation only reads and comes to `value`. -/
def Observes (partition : Partition) (contents : Contents) (script : Script σ α) (value : α) : Prop :=
  ∀ (μ : Type) [Medium μ] [LawfulMedium μ] (medium : μ), partition.Fits medium →
    partition.contents medium = contents → Script.Observes medium value script

theorem observes_pure (value : α) : partition.Observes contents (pure value : Script σ α) value := by
  intro μ _ _ medium _ _
  rfl

theorem Observes.bind {script : Script σ α} {next : α → Script σ β} {value : α} {last : β}
    (first : partition.Observes contents script value) (second : partition.Observes contents (next value) last) :
    partition.Observes contents (script >>= next) last := by
  intro μ _ _ medium fits same
  exact (first μ medium fits same).bind (second μ medium fits same)

theorem observes_load {index : Nat} (inside : index < partition.blocks) :
    partition.Observes contents (partition.load log index : Script σ Block) (contents log index) := by
  rintro μ _ _ medium fits rfl
  obtain ⟨address, located, aligned, first, room⟩ := fits.address log inside
  have whole : address.toNat / 4 + Block.wordCount ≤ cellCount medium := by rw [first]; exact room
  unfold load
  rw [located]
  refine ⟨_, read_inside fits.sound aligned whole, ?_⟩
  simp only [first, Partition.contents, if_pos inside]
  rfl

theorem observes_isMarked (inside : 0 < partition.blocks) :
    partition.Observes contents (partition.isMarked log : Script σ Bool) ((contents log 0).info == marker) := by
  rintro μ _ _ medium fits rfl
  obtain ⟨address, located, aligned, first, room⟩ := fits.address log inside
  have info : (partition.contents medium log 0).info = cell medium (partition.cellOf log 0) := by
    rw [Block.info_eq]
    exact contents_inside log inside (by omega)
  unfold isMarked
  rw [located]
  refine ⟨[cell medium (partition.cellOf log 0)], ?_, ?_⟩
  · rw [read_inside fits.sound aligned (by omega), first]
    rfl
  · rw [info]
    rfl

end Partition

end TwinLog
