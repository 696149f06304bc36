import TwinLog.Proofs.Interruption

set_option autoImplicit false

namespace TwinLog.Script

variable {σ α β μ : Type} [Medium μ]

/-- Runs an operation of which the call with `index` calls before it fails. If that is a write, it has put down `keep`
of its words, or all if there are fewer. -/
def runFailing (error : MediumError) (keep : Nat) : Script σ α → Nat → σ → μ → Outcome σ μ α
  | done value, _, state, medium => ⟨.ok value, state, medium⟩
  | stop reason, _, state, medium => ⟨.error reason, state, medium⟩
  | .keep state rest, index, _, medium => rest.runFailing error keep index state medium
  | read _ _ _, 0, state, medium => ⟨.error (.error (.medium error)), state, medium⟩
  | read address count rest, index + 1, state, medium =>
      match Medium.read medium address count with
      | (⟨words, none⟩, after) => (rest words).runFailing error keep index state after
      | (⟨_, some reason⟩, after) => ⟨.error (.ofMedium reason), state, after⟩
  | write address words _, 0, state, medium =>
      match Medium.write medium address (words.take keep) false with
      | (.ok (), after) => ⟨.error (.error (.medium error)), state, after⟩
      | (.error reason, after) => ⟨.error (.ofMedium reason), state, after⟩
  | write address words rest, index + 1, state, medium =>
      match Medium.write medium address words false with
      | (.ok (), after) => rest.runFailing error keep index state after
      | (.error reason, after) => ⟨.error (.ofMedium reason), state, after⟩
  | erase _ _ _, 0, state, medium => ⟨.error (.error (.medium error)), state, medium⟩
  | erase address count rest, index + 1, state, medium =>
      match Medium.erase medium address count with
      | (.ok (), after) => rest.runFailing error keep index state after
      | (.error reason, after) => ⟨.error (.ofMedium reason), state, after⟩

def calls : Script σ α → μ → Nat
  | done _, _ => 0
  | stop _, _ => 0
  | keep _ rest, medium => rest.calls medium
  | read address count rest, medium =>
      match Medium.read medium address count with
      | (⟨words, none⟩, after) => (rest words).calls after + 1
      | (⟨_, some _⟩, _) => 1
  | write address words rest, medium =>
      match Medium.write medium address words false with
      | (.ok (), after) => rest.calls after + 1
      | (.error _, _) => 1
  | erase address count rest, medium =>
      match Medium.erase medium address count with
      | (.ok (), after) => rest.calls after + 1
      | (.error _, _) => 1

variable {error : MediumError} {kept : Nat} {result : Except StoreError α → σ → μ → Prop}
  {cut : Bool → σ → μ → Prop}

/-- What a failing call leaves behind, an interruption can leave. -/
theorem Ensures.failing {script : Script σ α} {state : σ} {medium : μ}
    (ensured : Ensures result cut script state medium) (error : MediumError) (kept index : Nat) :
    ∃ torn, cut torn (script.runFailing error kept index state medium).state
      (script.runFailing error kept index state medium).medium := by
  induction script generalizing index state medium with
  | done value => exact ⟨false, ensured.1⟩
  | stop reason =>
      cases reason with
      | error _ => exact ⟨false, ensured.1⟩
      | halt violation => cases ensured
  | keep later rest ih => exact ih ensured.2 index
  | read address count rest ih =>
      obtain ⟨here, words, after, passed, next⟩ := ensured.of_read
      cases index with
      | zero => exact ⟨false, here⟩
      | succ index =>
          simp only [runFailing, passed]
          exact ih words next index
  | write address words rest ih =>
      obtain ⟨here, -, part, after, passed, next⟩ := ensured.of_write
      cases index with
      | zero =>
          simp only [runFailing]
          by_cases short : kept < words.length
          · obtain ⟨between, ran, torn⟩ := part kept short
            rw [ran]
            exact ⟨true, torn⟩
          · rw [List.take_of_length_le (Nat.le_of_not_lt short), passed]
            exact ⟨false, next.cut_here⟩
      | succ index =>
          simp only [runFailing, passed]
          exact ih next index
  | erase address count rest ih =>
      obtain ⟨here, after, passed, next⟩ := ensured.of_erase
      cases index with
      | zero => exact ⟨false, here⟩
      | succ index =>
          simp only [runFailing, passed]
          exact ih next index

/-- Whether what an operation leaves behind wherever one of its calls fails satisfies `spared`. What it leaves behind
when it comes to its end need not. -/
def Spares (spared : σ → μ → Prop) (script : Script σ α) (state : σ) (medium : μ) : Prop :=
  ∀ error kept index left after,
    script.runFailing error kept index state medium = ⟨.error (.error (.medium error)), left, after⟩ → spared left after

/-- What holds wherever an operation is interrupted holds where one of its calls fails. -/
theorem Ensures.spares {script : Script σ α} {state : σ} {medium : μ} {spared : σ → μ → Prop}
    (ensured : Ensures result cut script state medium)
    (cuts : ∀ torn left after, cut torn left after → spared left after) : script.Spares spared state medium := by
  intro error kept index left after failed
  obtain ⟨torn, holds⟩ := ensured.failing error kept index
  rw [failed] at holds
  exact cuts torn left after holds

/-- A call that fails later than in the first of two operations is in the second, if the first ended well. -/
theorem runFailing_bind (script : Script σ α) (next : α → Script σ β) (index : Nat) (state : σ) (medium : μ) :
    (script >>= next).runFailing error kept (script.calls medium + index) state medium =
      match script.run state medium with
      | ⟨.ok value, left, after⟩ => (next value).runFailing error kept index left after
      | ⟨.error reason, left, after⟩ => ⟨.error reason, left, after⟩ := by
  induction script generalizing state medium with
  | done value => rw [done_bind, calls, Nat.zero_add, run]
  | stop reason => rfl
  | keep later rest ih => exact ih later medium
  | read address count rest ih =>
      simp only [read_bind, calls, run]
      split
      · rename_i words between passed
        simp only [Nat.add_right_comm _ 1 index, runFailing, passed]
        exact ih words state between
      · rename_i passed
        simp only [Nat.add_comm 1 index, runFailing, passed]
  | write address words rest ih =>
      simp only [write_bind, calls, run]
      split
      · rename_i between passed
        simp only [Nat.add_right_comm _ 1 index, runFailing, passed]
        exact ih state between
      · rename_i passed
        simp only [Nat.add_comm 1 index, runFailing, passed]
  | erase address count rest ih =>
      simp only [erase_bind, calls, run]
      split
      · rename_i between passed
        simp only [Nat.add_right_comm _ 1 index, runFailing, passed]
        exact ih state between
      · rename_i passed
        simp only [Nat.add_comm 1 index, runFailing, passed]

theorem runFailing_bind_first {script : Script σ α} {next : α → Script σ β} {state left : σ} {medium after : μ}
    {index : Nat} {reason : Stop StoreError} (inside : index < script.calls medium)
    (failed : (script >>= next).runFailing error kept index state medium = ⟨.error reason, left, after⟩) :
    script.runFailing error kept index state medium = ⟨.error reason, left, after⟩ := by
  -- on the first operation, whose calls are passed until the one that fails
  induction script generalizing index state medium with
  | done given => exact absurd inside (Nat.not_lt_zero _)
  | stop reason => exact absurd inside (Nat.not_lt_zero _)
  | keep later rest ih => exact ih inside failed
  | read address count rest ih =>
      simp only [read_bind] at failed
      simp only [calls] at inside
      cases index with
      | zero =>
          simp only [runFailing] at failed ⊢
          cases failed
          rfl
      | succ index =>
          simp only [runFailing] at failed ⊢
          split at inside
          · rename_i words between passed
            rw [passed] at failed
            exact ih words (by omega) failed
          · omega
  | write address words rest ih =>
      simp only [write_bind] at failed
      simp only [calls] at inside
      cases index with
      | zero =>
          simp only [runFailing] at failed ⊢
          split at failed
          · cases failed
            rfl
          · cases failed
            rfl
      | succ index =>
          simp only [runFailing] at failed ⊢
          split at inside
          · rename_i between passed
            rw [passed] at failed
            exact ih (by omega) failed
          · omega
  | erase address count rest ih =>
      simp only [erase_bind] at failed
      simp only [calls] at inside
      cases index with
      | zero =>
          simp only [runFailing] at failed ⊢
          cases failed
          rfl
      | succ index =>
          simp only [runFailing] at failed ⊢
          split at inside
          · rename_i between passed
            rw [passed] at failed
            exact ih (by omega) failed
          · omega

/-- The call that fails is in the first of two operations, or in the second, which starts where the first ended. -/
theorem spares_bind {script : Script σ α} {next : α → Script σ β} {state : σ} {medium : μ} {spared : σ → μ → Prop}
    (first : script.Spares spared state medium)
    (ensured : Ensures (fun value left after =>
      match value with
      | .ok value => (next value).Spares spared left after
      | .error _ => spared left after) cut script state medium) :
    (script >>= next).Spares spared state medium := by
  intro error kept index left after failed
  by_cases inside : index < script.calls medium
  · exact first error kept index left after (runFailing_bind_first inside failed)
  · obtain ⟨further, rfl⟩ := Nat.exists_eq_add_of_le (Nat.le_of_not_lt inside)
    rw [runFailing_bind] at failed
    have ends := ensured.ends
    cases ran : script.run state medium with
    | mk outcome between later =>
        rw [ran] at failed ends
        cases outcome with
        | ok value => exact ends error kept further left after failed
        | error reason =>
            cases failed
            exact ends

end TwinLog.Script
