import TwinLog.Proofs.Achieves

set_option autoImplicit false

namespace TwinLog

namespace Script

variable {σ α β μ : Type}

/-- The operation that returns the precondition which it finds broken. -/
def caught : Script σ α → Script σ (Except Violation α)
  | done value => done (.ok value)
  | stop (.error error) => stop (.error error)
  | stop (.halt violation) => done (.error violation)
  | keep state rest => keep state rest.caught
  | read address count rest => read address count fun words => (rest words).caught
  | write address words rest => write address words rest.caught
  | erase address count rest => erase address count rest.caught

def proceed (next : α → Script σ β) : Except Violation α → Script σ (Except Violation β)
  | .ok value => (next value).caught
  | .error violation => done (.error violation)

def Unbroken {ρ : Type} (result : Except StoreError α → σ → ρ → Prop) :
    Except StoreError (Except Violation α) → σ → ρ → Prop
  | .ok (.ok value) => result (.ok value)
  | .ok (.error _) => fun _ _ => False
  | .error error => result (.error error)

theorem caught_bind (script : Script σ α) (next : α → Script σ β) :
    (script >>= next).caught = script.caught >>= proceed next := by
  induction script with
  | done value => rfl
  | stop reason => cases reason <;> rfl
  | keep state rest ih => exact congrArg (keep state) ih
  | read address count rest ih => exact congrArg (read address count) (funext ih)
  | write address words rest ih => exact congrArg (write address words) ih
  | erase address count rest ih => exact congrArg (erase address count) ih

variable [Medium μ] {script : Script σ α} {state : σ} {medium : μ}

theorem legal_caught : script.caught.Legal medium ↔ script.Legal medium := by
  induction script generalizing medium with
  | done value => exact Iff.rfl
  | stop reason => cases reason <;> exact Iff.rfl
  | keep state rest ih => exact ih
  | read address count rest ih =>
      simp only [caught, Legal]
      split
      · exact ih _
      · exact Iff.rfl
  | write address words rest ih =>
      simp only [caught, Legal]
      split
      · exact and_congr_right fun _ => ih
      · exact Iff.rfl
  | erase address count rest ih =>
      simp only [caught, Legal]
      split
      · exact ih
      · exact Iff.rfl

theorem ensures_caught {result : Except StoreError α → σ → μ → Prop} {cut : Bool → σ → μ → Prop} :
    Ensures (Unbroken result) cut script.caught state medium ↔ Ensures result cut script state medium := by
  induction script generalizing state medium with
  | done value => exact Iff.rfl
  | stop reason =>
      cases reason with
      | error error => exact Iff.rfl
      | halt violation => simp only [caught, Ensures, Unbroken, and_false]
  | keep kept rest ih => simp only [caught, Ensures, ih]
  | read address count rest ih =>
      simp only [caught, Ensures]
      split <;> simp only [ih]
  | write address words rest ih =>
      simp only [caught, Ensures]
      split <;> simp only [ih]
  | erase address count rest ih =>
      simp only [caught, Ensures]
      split <;> simp only [ih]

/-- What an operation comes to, which may be that it broke a precondition. -/
def EndsOrBreaks (result : Except StoreError (Except Violation α) → σ → μ → Prop) (outcome : Outcome σ μ α) : Prop :=
  match outcome with
  | ⟨.ok value, state, medium⟩ => result (.ok (.ok value)) state medium
  | ⟨.error (.error error), state, medium⟩ => result (.error error) state medium
  | ⟨.error (.halt violation), state, medium⟩ => result (.ok (.error violation)) state medium

theorem Ensures.ends_or_breaks {result : Except StoreError (Except Violation α) → σ → μ → Prop}
    {cut : Bool → σ → μ → Prop} (ensured : Ensures result cut script.caught state medium) :
    EndsOrBreaks result (script.run state medium) := by
  induction script generalizing state medium with
  | done value => exact ensured.2
  | stop reason => cases reason <;> exact ensured.2
  | keep kept rest ih => exact ih ensured.2
  | read address count rest ih =>
      obtain ⟨-, words, after, passed, next⟩ := ensured.of_read
      simp only [run, passed]
      exact ih words next
  | write address words rest ih =>
      obtain ⟨-, -, -, after, passed, next⟩ := ensured.of_write
      simp only [run, passed]
      exact ih next
  | erase address count rest ih =>
      obtain ⟨-, after, passed, next⟩ := ensured.of_erase
      simp only [run, passed]
      exact ih next

end Script

namespace Partition

open Script

variable {σ α β : Type} {partition : Partition} {cut : Bool → σ → Contents → Prop} {state : σ} {contents : Contents}

theorem Achieves.caught {result : Except StoreError (Except Violation α) → σ → Contents → Prop} {script : Script σ α}
    (achieved : partition.Achieves (fun value state contents => result (value.map .ok) state contents) cut script state
      contents) :
    partition.Achieves result cut script.caught state contents := by
  intro μ _ _ medium fits same
  have ensured := ensures_caught.mpr (achieved μ medium fits same)
  refine ensured.mono ?_ (fun _ _ _ holds => holds)
  intro value left after holds
  match value, holds with
  | .ok (.ok _), holds => exact holds
  | .error _, holds => exact holds

/-- An operation whose preconditions hold does without catching. -/
theorem Achieves.of_caught {result : Except StoreError α → σ → Contents → Prop} {script : Script σ α}
    (achieved : partition.Achieves (Unbroken result) cut script.caught state contents) :
    partition.Achieves result cut script state contents := by
  intro μ _ _ medium fits same
  refine ensures_caught.mp ((achieved μ medium fits same).mono ?_ (fun _ _ _ holds => holds))
  intro value left after holds
  match value, holds with
  | .ok (.ok _), holds => exact holds
  | .error _, holds => exact holds

theorem Achieves.bind_caught {result : Except StoreError (Except Violation β) → σ → Contents → Prop}
    {script : Script σ α} {next : α → Script σ β}
    (achieved : partition.Achieves (fun (value : Except StoreError (Except Violation α)) state contents =>
      match value with
      | .ok (.ok value) => partition.Achieves result cut (next value).caught state contents
      | .ok (.error violation) => cut false state contents ∧ result (.ok (.error violation)) state contents
      | .error error => result (.error error) state contents) cut script.caught state contents) :
    partition.Achieves result cut (script >>= next).caught state contents := by
  rw [caught_bind]
  refine Achieves.bind (achieved.mono ?_ (fun _ _ _ holds => holds))
  intro value left after holds
  match value, holds with
  | .ok (.ok _), holds => exact holds
  | .ok (.error _), holds => exact achieves_done holds.1 holds.2
  | .error _, holds => exact holds

theorem Achieves.then_caught {result : Except StoreError (Except Violation β) → σ → Contents → Prop}
    {script : Script σ α} {next : α → Script σ β}
    (achieved : partition.Achieves (fun value state contents =>
      match value with
      | .ok value => partition.Achieves result cut (next value).caught state contents
      | .error error => result (.error error) state contents) cut script state contents) :
    partition.Achieves result cut (script >>= next).caught state contents := by
  refine Achieves.bind_caught (Achieves.caught (achieved.mono ?_ (fun _ _ _ holds => holds)))
  intro value left after holds
  cases value with
  | ok value => exact holds
  | error error => exact holds

theorem achieves_append_caught {log : Log} {free : Nat} {block : Block}
    {result : Except StoreError (Except Violation Nat) → σ → Contents → Prop}
    (taken : Block.Takes partition.polarity (contents log free) block)
    (here : cut false state contents)
    (torn : ∀ count < 8, cut true state (contents.put log free (block.toList.take count)))
    (whole : cut false state (contents.put log free block.toList))
    (outside : partition.blocks ≤ free → result (.ok (.error (.blockOutside free))) state contents)
    (next : free < partition.blocks → result (.ok (.ok (free + 1))) state (contents.put log free block.toList)) :
    partition.Achieves result cut (partition.append log free block).caught state contents := by
  by_cases inside : free < partition.blocks
  · exact Achieves.caught (achieves_append inside taken here torn whole (next inside))
  · have script : (partition.append log free block : Script σ Nat).caught = .done (.error (.blockOutside free)) := by
      rw [append, address, if_neg inside]
      rfl
    rw [script]
    exact achieves_done here (outside (Nat.le_of_not_lt inside))

end Partition

end TwinLog
