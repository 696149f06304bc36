import TwinLog.Geometry
import TwinLog.Medium

set_option autoImplicit false

/-!
What the store does to its medium, as a value. A script is the tree of medium calls of one operation: every call names
what is accessed, a read goes on with the words it delivered, and `keep` records the state that the operation leaves
behind if a later call fails. `Script.run` performs the calls on a medium and stops at the first that does not end
well. The same script can be read in other ways too, for instance with a power cut at any of its calls.
-/

namespace TwinLog

inductive StoreError where
  /-- The content is larger than a file can be. -/
  | tooLarge
  /-- The content does not fit, even after compaction. -/
  | noSpace
  /-- Every file id is taken. -/
  | noFileIds
  /-- There is no file with content under this identifier. -/
  | notFound
  | geometry (error : GeometryError)
  | medium (error : MediumError)
  /-- A typed value could not be written or read. -/
  | encoding
  deriving DecidableEq, Repr

/-- An operation that leaves a state of type `σ` behind and returns a value of type `α` if all goes well. -/
inductive Script (σ α : Type) where
  | done (value : α)
  /-- The operation ends early. -/
  | stop (reason : Stop StoreError)
  /-- From here on this state is left behind. -/
  | keep (state : σ) (next : Script σ α)
  | read (address : Address) (count : Nat) (next : List Word → Script σ α)
  | write (address : Address) (words : List Word) (next : Script σ α)
  | erase (address : Address) (count : Word) (next : Script σ α)

/-- What a script came to: its result, the state it left behind and the medium afterwards. -/
structure Outcome (σ μ α : Type) where
  result : Except (Stop StoreError) α
  state : σ
  medium : μ

def Stop.ofMedium : Stop MediumError → Stop StoreError
  | error cause => .error (.medium cause)
  | halt violation => .halt violation

namespace Script

variable {σ α β μ : Type}

/-- Goes on with `next` when all is done. -/
protected def bind : Script σ α → (α → Script σ β) → Script σ β
  | done value, next => next value
  | stop reason, _ => stop reason
  | keep state rest, next => keep state (rest.bind next)
  | read address count rest, next => read address count fun words => (rest words).bind next
  | write address words rest, next => write address words (rest.bind next)
  | erase address count rest, next => erase address count (rest.bind next)

instance : Monad (Script σ) where
  pure := done
  bind := Script.bind

/-- Ends the operation with an error. -/
def fail (error : StoreError) : Script σ α :=
  stop (.error error)

def require : Except Violation α → Script σ α
  | .ok value => done value
  | .error violation => stop (.halt violation)

def leave (state : σ) : Script σ Unit :=
  keep state (done ())

def fetch (address : Address) (count : Nat) : Script σ (List Word) :=
  read address count done

def program (address : Address) (words : List Word) : Script σ Unit :=
  write address words (done ())

def wipe (address : Address) (count : Word) : Script σ Unit :=
  erase address count (done ())

/-- Performs the calls on a medium, with `state` to leave behind until another is recorded. -/
def run [Medium μ] : Script σ α → σ → μ → Outcome σ μ α
  | done value, state, medium => ⟨.ok value, state, medium⟩
  | stop reason, state, medium => ⟨.error reason, state, medium⟩
  | keep state rest, _, medium => rest.run state medium
  | read address count rest, state, medium =>
      match Medium.read medium address count with
      | (⟨words, none⟩, after) => (rest words).run state after
      | (⟨_, some reason⟩, after) => ⟨.error (.ofMedium reason), state, after⟩
  | write address words rest, state, medium =>
      match Medium.write medium address words false with
      | (.ok (), after) => rest.run state after
      | (.error reason, after) => ⟨.error (.ofMedium reason), state, after⟩
  | erase address count rest, state, medium =>
      match Medium.erase medium address count with
      | (.ok (), after) => rest.run state after
      | (.error reason, after) => ⟨.error (.ofMedium reason), state, after⟩

@[simp] theorem done_bind (value : α) (next : α → Script σ β) : (done value >>= next) = next value := rfl

@[simp] theorem stop_bind (reason : Stop StoreError) (next : α → Script σ β) :
    ((stop reason : Script σ α) >>= next) = stop reason := rfl

@[simp] theorem keep_bind (state : σ) (rest : Script σ α) (next : α → Script σ β) :
    (keep state rest >>= next) = keep state (rest >>= next) := rfl

@[simp] theorem read_bind (address : Address) (count : Nat) (rest : List Word → Script σ α)
    (next : α → Script σ β) :
    (read address count rest >>= next) = read address count fun words => rest words >>= next := rfl

@[simp] theorem write_bind (address : Address) (words : List Word) (rest : Script σ α) (next : α → Script σ β) :
    (write address words rest >>= next) = write address words (rest >>= next) := rfl

@[simp] theorem erase_bind (address : Address) (count : Word) (rest : Script σ α) (next : α → Script σ β) :
    (erase address count rest >>= next) = erase address count (rest >>= next) := rfl

/-- Running two operations in a row runs the second on what the first left, if that one ended well. -/
theorem run_bind [Medium μ] (script : Script σ α) (next : α → Script σ β) (state : σ) (medium : μ) :
    (script >>= next).run state medium =
      match script.run state medium with
      | ⟨.ok value, after, left⟩ => (next value).run after left
      | ⟨.error reason, after, left⟩ => ⟨.error reason, after, left⟩ := by
  induction script generalizing state medium with
  | done value => rfl
  | stop reason => rfl
  | keep kept rest ih => exact ih kept medium
  | read address count rest ih =>
      simp only [read_bind, run]
      split
      · rename_i words after _
        exact ih words state after
      · rfl
  | write address words rest ih =>
      simp only [write_bind, run]
      split
      · rename_i after _
        exact ih state after
      · rfl
  | erase address count rest ih =>
      simp only [erase_bind, run]
      split
      · rename_i after _
        exact ih state after
      · rfl

end Script

end TwinLog
