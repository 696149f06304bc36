import TwinLog.Proofs.SingleFault

set_option autoImplicit false

namespace TwinLog

inductive Call where
  | read (address : Address) (count : Nat)
  | write (address : Address) (words : List Word)
  | erase (address : Address) (count : Word)
  deriving DecidableEq, Repr

def Call.erases : Call → Bool
  | erase _ _ => true
  | read _ _ | write _ _ => false

/-- Whether an operation ended at a medium call or at a broken precondition, and not of its own accord. -/
def Outcome.Broken {σ μ α : Type} (outcome : Outcome σ μ α) : Prop :=
  ∃ reason : Stop MediumError, outcome.result = .error (.ofMedium reason)

/-- A medium call that fails with `error` after `index` calls that pass. If it is a write, it puts down `kept` of its
words before, or all if there are fewer. -/
structure Failure where
  error : MediumError
  kept : Nat
  index : Nat

namespace Script

variable {σ α β μ : Type} [Medium μ]

def trace : Script σ α → μ → List Call
  | done _, _ => []
  | stop _, _ => []
  | keep _ rest, medium => rest.trace medium
  | .read address count rest, medium =>
      .read address count ::
        match Medium.read medium address count with
        | (⟨words, none⟩, after) => (rest words).trace after
        | (⟨_, some _⟩, _) => []
  | .write address words rest, medium =>
      .write address words ::
        match Medium.write medium address words false with
        | (.ok (), after) => rest.trace after
        | (.error _, _) => []
  | .erase address count rest, medium =>
      .erase address count ::
        match Medium.erase medium address count with
        | (.ok (), after) => rest.trace after
        | (.error _, _) => []

@[simp] theorem length_trace (script : Script σ α) (medium : μ) :
    (script.trace medium).length = script.calls medium := by
  induction script generalizing medium with
  | done value => rfl
  | stop reason => rfl
  | keep kept rest ih => exact ih medium
  | read address count rest ih =>
      simp only [trace, calls, List.length_cons]
      rcases Medium.read medium address count with ⟨⟨words, _ | reason⟩, after⟩
      · simp only [ih]
      · rfl
  | write address words rest ih =>
      simp only [trace, calls, List.length_cons]
      rcases Medium.write medium address words false with ⟨_ | _, after⟩
      · rfl
      · simp only [ih]
  | erase address count rest ih =>
      simp only [trace, calls, List.length_cons]
      rcases Medium.erase medium address count with ⟨_ | _, after⟩
      · rfl
      · simp only [ih]

/-- Of two operations in a row, the second makes its calls after those of the first, if that one ended well. -/
theorem trace_bind (script : Script σ α) (next : α → Script σ β) (state : σ) (medium : μ) :
    (script >>= next).trace medium = script.trace medium ++
      match script.run state medium with
      | ⟨.ok value, _, after⟩ => (next value).trace after
      | ⟨.error _, _, _⟩ => [] := by
  induction script generalizing state medium with
  | done value => rfl
  | stop reason => rfl
  | keep kept rest ih => exact ih kept medium
  | read address count rest ih =>
      simp only [read_bind, trace, run, List.cons_append]
      rcases Medium.read medium address count with ⟨⟨words, _ | reason⟩, after⟩
      · simp only [ih words state]
      · rfl
  | write address words rest ih =>
      simp only [write_bind, trace, run, List.cons_append]
      rcases Medium.write medium address words false with ⟨_ | _, after⟩
      · rfl
      · simp only [ih state]
  | erase address count rest ih =>
      simp only [erase_bind, trace, run, List.cons_append]
      rcases Medium.erase medium address count with ⟨_ | _, after⟩
      · rfl
      · simp only [ih state]

theorem bind_done (script : Script σ α) : (script >>= done) = script := by
  induction script with
  | done value => rfl
  | stop reason => rfl
  | keep kept rest ih => exact congrArg (Script.keep kept) ih
  | read address count rest ih => exact congrArg (Script.read address count) (funext ih)
  | write address words rest ih => exact congrArg (Script.write address words) ih
  | erase address count rest ih => exact congrArg (Script.erase address count) ih

theorem runFailing_of_calls {error : MediumError} {kept : Nat} (script : Script σ α) {index : Nat} (state : σ)
    {medium : μ} (beyond : script.calls medium ≤ index) :
    script.runFailing error kept index state medium = script.run state medium := by
  obtain ⟨further, rfl⟩ := Nat.exists_eq_add_of_le beyond
  have whole := @runFailing_bind σ α α μ _ error kept script done further state medium
  rw [bind_done] at whole
  rw [whole]
  cases script.run state medium with
  | mk result left after => cases result <;> rfl

def attempt (script : Script σ α) (failure : Option Failure) (state : σ) (medium : μ) : Outcome σ μ α :=
  match failure with
  | none => script.run state medium
  | some ⟨error, kept, index⟩ => script.runFailing error kept index state medium

def passed (script : Script σ α) (failure : Option Failure) (medium : μ) : List Call :=
  match failure with
  | none => script.trace medium
  | some failure => (script.trace medium).take failure.index

end Script

end TwinLog
