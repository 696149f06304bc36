import TwinLog.Script

set_option autoImplicit false

/-!
What can be said of an operation whatever becomes of it. An operation can run to its end, or stop at any of its medium
calls: a power cut, or a call that fails, leaves the medium with what was put down until then, and of the words of the
write that it falls into a number from the front. `Ensures` is the precondition for both outcomes at once; it composes
along `bind`, so that an operation is treated one call at a time.
-/

namespace TwinLog

/-- Whether no word that is programmed over those from `address` on moves a bit back toward the erased state. -/
def Medium.Takes {μ : Type} [Medium μ] (medium : μ) (address : Address) (words : List Word) : Prop :=
  ∀ index (inside : index < words.length),
    (Medium.polarity medium).canProgram ((Medium.read medium address words.length).1.words.getD index 0)
      words[index] = true

namespace Script

variable {σ α β μ : Type} [Medium μ]

/-- The state and the medium that an operation can leave behind when it stops at one of its calls. It stops between
two calls, or in a write that has put down some of its words but not the last, which the flag tells; an erase it stops
in does nothing. -/
inductive Interrupted : Script σ α → σ → μ → Bool → σ → μ → Prop
  | here (script : Script σ α) (state : σ) (medium : μ) : Interrupted script state medium false state medium
  | keep {kept left : σ} {rest : Script σ α} {state : σ} {medium after : μ} {torn : Bool}
      (later : Interrupted rest kept medium torn left after) : Interrupted (.keep kept rest) state medium torn left after
  | read {address : Address} {count : Nat} {next : List Word → Script σ α} {state left : σ}
      {medium between after : μ} {words : List Word} {torn : Bool}
      (passed : Medium.read medium address count = (⟨words, none⟩, between))
      (later : Interrupted (next words) state between torn left after) :
      Interrupted (.read address count next) state medium torn left after
  | torn {address : Address} {words : List Word} {rest : Script σ α} {state : σ} {medium after : μ} (count : Nat)
      (short : count < words.length)
      (passed : Medium.write medium address (words.take count) false = (.ok (), after)) :
      Interrupted (.write address words rest) state medium true state after
  | write {address : Address} {words : List Word} {rest : Script σ α} {state left : σ} {medium between after : μ}
      {torn : Bool} (passed : Medium.write medium address words false = (.ok (), between))
      (later : Interrupted rest state between torn left after) :
      Interrupted (.write address words rest) state medium torn left after
  | erase {address : Address} {count : Word} {rest : Script σ α} {state left : σ} {medium between after : μ}
      {torn : Bool} (passed : Medium.erase medium address count = (.ok (), between))
      (later : Interrupted rest state between torn left after) :
      Interrupted (.erase address count rest) state medium torn left after

/-- Whether an operation that meets no failure only ever programs bits away from the erased state. -/
def Legal : Script σ α → μ → Prop
  | done _, _ => True
  | stop _, _ => True
  | keep _ rest, medium => rest.Legal medium
  | read address count next, medium =>
      match Medium.read medium address count with
      | (⟨words, none⟩, after) => (next words).Legal after
      | (⟨_, some _⟩, _) => True
  | write address words rest, medium =>
      Medium.Takes medium address words ∧
        match Medium.write medium address words false with
        | (.ok (), after) => rest.Legal after
        | (.error _, _) => True
  | erase address count rest, medium =>
      match Medium.erase medium address count with
      | (.ok (), after) => rest.Legal after
      | (.error _, _) => True

/-- An operation ends with a result or an error of its own that satisfies `result`, only ever programs bits away from
the erased state, and leaves behind what satisfies `cut` wherever it is interrupted. -/
def Ensures (result : Except StoreError α → σ → μ → Prop) (cut : Bool → σ → μ → Prop) : Script σ α → σ → μ → Prop
  | done value, state, medium => cut false state medium ∧ result (.ok value) state medium
  | stop (.error error), state, medium => cut false state medium ∧ result (.error error) state medium
  | stop (.halt _), _, _ => False
  | keep kept rest, state, medium => cut false state medium ∧ Ensures result cut rest kept medium
  | read address count next, state, medium =>
      cut false state medium ∧
        match Medium.read medium address count with
        | (⟨words, none⟩, after) => Ensures result cut (next words) state after
        | (⟨_, some _⟩, _) => False
  | write address words rest, state, medium =>
      cut false state medium ∧ Medium.Takes medium address words ∧
        (∀ count < words.length, ∃ after,
          Medium.write medium address (words.take count) false = (.ok (), after) ∧ cut true state after) ∧
        match Medium.write medium address words false with
        | (.ok (), after) => Ensures result cut rest state after
        | (.error _, _) => False
  | erase address count rest, state, medium =>
      cut false state medium ∧
        match Medium.erase medium address count with
        | (.ok (), after) => Ensures result cut rest state after
        | (.error _, _) => False

def Ends (result : Except StoreError α → σ → μ → Prop) (outcome : Outcome σ μ α) : Prop :=
  match outcome with
  | ⟨.ok value, state, medium⟩ => result (.ok value) state medium
  | ⟨.error (.error error), state, medium⟩ => result (.error error) state medium
  | ⟨.error (.halt _), _, _⟩ => False

variable {result : Except StoreError α → σ → μ → Prop} {cut : Bool → σ → μ → Prop}

theorem Ensures.of_read {address : Address} {count : Nat} {next : List Word → Script σ α} {state : σ} {medium : μ}
    (ensured : Ensures result cut (.read address count next) state medium) :
    cut false state medium ∧ ∃ words after, Medium.read medium address count = (⟨words, none⟩, after) ∧
      Ensures result cut (next words) state after := by
  simp only [Ensures] at ensured
  obtain ⟨here, later⟩ := ensured
  cases passed : Medium.read medium address count with
  | mk fetch after =>
      obtain ⟨words, reason⟩ := fetch
      rw [passed] at later
      cases reason with
      | none => exact ⟨here, words, after, rfl, later⟩
      | some reason => cases later

theorem Ensures.of_write {address : Address} {words : List Word} {rest : Script σ α} {state : σ} {medium : μ}
    (ensured : Ensures result cut (.write address words rest) state medium) :
    cut false state medium ∧ Medium.Takes medium address words ∧
      (∀ count < words.length, ∃ after,
        Medium.write medium address (words.take count) false = (.ok (), after) ∧ cut true state after) ∧
      ∃ after, Medium.write medium address words false = (.ok (), after) ∧ Ensures result cut rest state after := by
  obtain ⟨here, taken, part, later⟩ := ensured
  refine ⟨here, taken, part, ?_⟩
  cases passed : Medium.write medium address words false with
  | mk written after =>
      rw [passed] at later
      cases written with
      | ok => exact ⟨after, rfl, later⟩
      | error reason => cases later

theorem Ensures.of_erase {address : Address} {count : Word} {rest : Script σ α} {state : σ} {medium : μ}
    (ensured : Ensures result cut (.erase address count rest) state medium) :
    cut false state medium ∧
      ∃ after, Medium.erase medium address count = (.ok (), after) ∧ Ensures result cut rest state after := by
  obtain ⟨here, later⟩ := ensured
  refine ⟨here, ?_⟩
  cases passed : Medium.erase medium address count with
  | mk erased after =>
      rw [passed] at later
      cases erased with
      | ok => exact ⟨after, rfl, later⟩
      | error reason => cases later

theorem Ensures.ends {script : Script σ α} {state : σ} {medium : μ}
    (ensured : Ensures result cut script state medium) : Ends result (script.run state medium) := by
  induction script generalizing state medium with
  | done value => exact ensured.2
  | stop reason =>
      cases reason with
      | error error => exact ensured.2
      | halt violation => exact ensured
  | keep kept rest ih => exact ih ensured.2
  | read address count next ih =>
      obtain ⟨-, words, after, passed, next⟩ := ensured.of_read
      simp only [run, passed]
      exact ih words next
  | write address words rest ih =>
      obtain ⟨-, -, -, after, passed, next⟩ := ensured.of_write
      simp only [run, passed]
      exact ih next
  | erase address count rest ih =>
      obtain ⟨-, after, passed, next⟩ := ensured.of_erase
      simp only [run, passed]
      exact ih next

theorem Ensures.ran {script : Script σ α} {state left : σ} {medium : μ} {value : α} {holds : μ → Prop}
    (ensured : Ensures (fun result last after => result = .ok value ∧ last = left ∧ holds after) cut script state
      medium) : ∃ after, script.run state medium = ⟨.ok value, left, after⟩ ∧ holds after := by
  have ends := ensured.ends
  cases ran : script.run state medium with
  | mk result last after =>
      rw [ran] at ends
      cases result with
      | ok delivered =>
          obtain ⟨delivers, rfl, held⟩ := ends
          cases delivers
          exact ⟨after, rfl, held⟩
      | error reason =>
          cases reason with
          | error error => cases ends.1
          | halt violation => cases ends

theorem Ensures.cut_here {script : Script σ α} {state : σ} {medium : μ}
    (ensured : Ensures result cut script state medium) : cut false state medium := by
  cases script with
  | stop reason =>
      cases reason with
      | error error => exact ensured.1
      | halt violation => cases ensured
  | read address count next => exact ensured.of_read.1
  | _ => exact ensured.1

theorem Ensures.interrupted {script : Script σ α} {state left : σ} {medium after : μ}
    {torn : Bool} (ensured : Ensures result cut script state medium)
    (stopped : Interrupted script state medium torn left after) : cut torn left after := by
  induction stopped with
  | here script state medium => exact ensured.cut_here
  | keep later ih => exact ih ensured.2
  | read passed later ih =>
      obtain ⟨-, words, between, also, next⟩ := ensured.of_read
      rw [passed] at also
      cases also
      exact ih next
  | torn count short passed =>
      obtain ⟨after, also, left⟩ := ensured.of_write.2.2.1 count short
      rw [passed] at also
      cases also
      exact left
  | write passed later ih =>
      obtain ⟨-, -, -, between, also, next⟩ := ensured.of_write
      rw [passed] at also
      cases also
      exact ih next
  | erase passed later ih =>
      obtain ⟨-, between, also, next⟩ := ensured.of_erase
      rw [passed] at also
      cases also
      exact ih next

theorem Ensures.legal {script : Script σ α} {state : σ} {medium : μ}
    (ensured : Ensures result cut script state medium) : script.Legal medium := by
  induction script generalizing state medium with
  | done value => trivial
  | stop reason => trivial
  | keep kept rest ih => exact ih ensured.2
  | read address count next ih =>
      obtain ⟨-, words, after, passed, next⟩ := ensured.of_read
      simp only [Legal, passed]
      exact ih words next
  | write address words rest ih =>
      obtain ⟨-, taken, -, after, passed, next⟩ := ensured.of_write
      simp only [Legal, passed]
      exact ⟨taken, ih next⟩
  | erase address count rest ih =>
      obtain ⟨-, after, passed, next⟩ := ensured.of_erase
      simp only [Legal, passed]
      exact ih next

theorem Ensures.mono {result' : Except StoreError α → σ → μ → Prop} {cut' : Bool → σ → μ → Prop} {script : Script σ α}
    {state : σ} {medium : μ} (ensured : Ensures result cut script state medium)
    (weaker : ∀ value state medium, result value state medium → result' value state medium)
    (cutWeaker : ∀ torn state medium, cut torn state medium → cut' torn state medium) :
    Ensures result' cut' script state medium := by
  induction script generalizing state medium with
  | done value => exact ⟨cutWeaker _ _ _ ensured.1, weaker _ _ _ ensured.2⟩
  | stop reason =>
      cases reason with
      | error error => exact ⟨cutWeaker _ _ _ ensured.1, weaker _ _ _ ensured.2⟩
      | halt violation => cases ensured
  | keep kept rest ih => exact ⟨cutWeaker _ _ _ ensured.1, ih ensured.2⟩
  | read address count next ih =>
      obtain ⟨here, words, after, passed, next⟩ := ensured.of_read
      simp only [Ensures, passed]
      exact ⟨cutWeaker _ _ _ here, ih words next⟩
  | write address words rest ih =>
      obtain ⟨here, taken, part, after, passed, next⟩ := ensured.of_write
      simp only [Ensures, passed]
      refine ⟨cutWeaker _ _ _ here, taken, ?_, ih next⟩
      intro count short
      obtain ⟨between, placed, left⟩ := part count short
      exact ⟨between, placed, cutWeaker _ _ _ left⟩
  | erase address count rest ih =>
      obtain ⟨here, after, passed, next⟩ := ensured.of_erase
      simp only [Ensures, passed]
      exact ⟨cutWeaker _ _ _ here, ih next⟩

theorem ensures_bind {script : Script σ α} {next : α → Script σ β} {result : Except StoreError β → σ → μ → Prop}
    {state : σ} {medium : μ} :
    Ensures result cut (script >>= next) state medium ↔
      Ensures (fun value state medium =>
        match value with
        | .ok value => Ensures result cut (next value) state medium
        | .error error => result (.error error) state medium) cut script state medium := by
  induction script generalizing state medium with
  | done value =>
      simp only [done_bind, Ensures]
      exact ⟨fun ensured => ⟨ensured.cut_here, ensured⟩, fun ensured => ensured.2⟩
  | stop reason => cases reason <;> simp only [stop_bind, Ensures]
  | keep kept rest ih => simp only [keep_bind, Ensures, ih]
  | read address count rest ih =>
      simp only [read_bind, Ensures]
      split <;> simp only [ih]
  | write address words rest ih =>
      simp only [write_bind, Ensures]
      split <;> simp only [ih]
  | erase address count rest ih =>
      simp only [erase_bind, Ensures]
      split <;> simp only [ih]

theorem bind_assoc {γ : Type} (script : Script σ α) (next : α → Script σ β) (last : β → Script σ γ) :
    script >>= next >>= last = script >>= fun value => next value >>= last := by
  induction script with
  | done value => rfl
  | stop reason => rfl
  | keep kept rest ih => exact congrArg (Script.keep kept) ih
  | read address count rest ih => exact congrArg (Script.read address count) (funext ih)
  | write address words rest ih => exact congrArg (Script.write address words) ih
  | erase address count rest ih => exact congrArg (Script.erase address count) ih

theorem legal_bind_first {script : Script σ α} {next : α → Script σ β} {medium : μ}
    (legal : (script >>= next).Legal medium) : script.Legal medium := by
  -- on the first operation, of which no call ends the run
  induction script generalizing medium with
  | done given => trivial
  | stop reason => trivial
  | keep kept rest ih => exact ih legal
  | read address count rest ih =>
      simp only [read_bind, Legal] at legal ⊢
      split at legal
      · exact ih _ legal
      · trivial
  | write address words rest ih =>
      refine ⟨legal.1, ?_⟩
      have later := legal.2
      split at later
      · exact ih later
      · trivial
  | erase address count rest ih =>
      simp only [erase_bind, Legal] at legal ⊢
      split at legal
      · exact ih legal
      · trivial

/-- Where the first of two operations is guaranteed to do well, the second decides whether the whole is legal. -/
theorem legal_bind {script : Script σ α} {next : α → Script σ β} {state : σ} {medium : μ}
    (legal : (script >>= next).Legal medium) {value : α} {left : σ} {after : μ}
    (ran : script.run state medium = ⟨.ok value, left, after⟩) : (next value).Legal after := by
  induction script generalizing state medium with
  | done given =>
      simp only [run, Outcome.mk.injEq, Except.ok.injEq] at ran
      obtain ⟨rfl, rfl, rfl⟩ := ran
      exact legal
  | stop reason => cases ran
  | keep kept rest ih => exact ih legal ran
  | read address count rest ih =>
      simp only [read_bind, Legal] at legal
      simp only [run] at ran
      split at ran
      · rename_i words between passed
        rw [passed] at legal
        exact ih words legal ran
      · cases ran
  | write address words rest ih =>
      have legal := legal.2
      simp only [run] at ran
      split at ran
      · rename_i between passed
        rw [passed] at legal
        exact ih legal ran
      · cases ran
  | erase address count rest ih =>
      simp only [erase_bind, Legal] at legal
      simp only [run] at ran
      split at ran
      · rename_i between passed
        rw [passed] at legal
        exact ih legal ran
      · cases ran

end Script

end TwinLog
