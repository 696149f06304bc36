import TwinLog.Medium

set_option autoImplicit false

namespace TwinLog

/-- What is planned for the writes and erases to come. -/
inductive FaultPlan where
  /-- All of them reach the medium. -/
  | none
  /-- The one after `after` more fails with `error`; a write puts down at most `keep` words. If it is `lasting`, all
  later ones fail too. -/
  | pending (after keep : Nat) (error : MediumError) (lasting : Bool)
  /-- All of them fail and change nothing. -/
  | dead (error : MediumError)
  deriving DecidableEq, Repr

/-- A range of bytes, the end excluded, in which reads fail. -/
structure BadRange where
  start : Nat
  stop : Nat
  error : MediumError
  deriving DecidableEq, Repr

structure Faulty (μ : Type) where
  medium : μ
  plan : FaultPlan
  badRanges : List BadRange
  deriving DecidableEq, Repr

inductive Fate where
  /-- It reaches the medium. -/
  | passes
  /-- It fails after at most `keep` words. -/
  | fails (keep : Nat) (error : MediumError)
  /-- It fails at once. -/
  | refused (error : MediumError)
  deriving DecidableEq, Repr

def FaultPlan.next : FaultPlan → Fate × FaultPlan
  | none => (.passes, .none)
  | pending 0 keep error lasting => (.fails keep error, if lasting then .dead error else .none)
  | pending (after + 1) keep error lasting => (.passes, .pending after keep error lasting)
  | dead error => (.refused error, .dead error)

namespace Faulty

variable {μ : Type}

def sound (medium : μ) : Faulty μ :=
  ⟨medium, .none, []⟩

def withPlan (faulty : Faulty μ) (plan : FaultPlan) : Faulty μ :=
  { faulty with plan }

/-- The medium with one more bad range; of two that a read touches the earlier one decides the error. -/
def withBadRange (faulty : Faulty μ) (range : BadRange) : Faulty μ :=
  { faulty with badRanges := faulty.badRanges ++ [range] }

variable [Medium μ]

def read (faulty : Faulty μ) (address : Address) (count : Nat) : Fetch × Faulty μ :=
  let touches (range : BadRange) : Bool :=
    address.toNat < range.stop && range.start < address.toNat + 4 * count
  match faulty.badRanges.find? touches with
  | some range => (⟨[], some (.error range.error)⟩, faulty)
  | none =>
      let (fetch, after) := Medium.read faulty.medium address count
      (fetch, { faulty with medium := after })

/-- Programs words. An end that the medium itself gives to the words that are put down comes before the planned
error. -/
def write (faulty : Faulty μ) (address : Address) (words : List Word) (eraseFirst : Bool) :
    Except (Stop MediumError) Unit × Faulty μ :=
  match faulty.plan.next with
  | (.passes, plan) =>
      let (result, after) := Medium.write faulty.medium address words eraseFirst
      (result, { faulty with medium := after, plan })
  | (.fails keep error, plan) =>
      let (result, after) := Medium.write faulty.medium address (words.take keep) eraseFirst
      (result.bind fun _ => .error (.error error), { faulty with medium := after, plan })
  | (.refused error, plan) => (.error (.error error), { faulty with plan })

def erase (faulty : Faulty μ) (address : Address) (count : Word) : Except (Stop MediumError) Unit × Faulty μ :=
  match faulty.plan.next with
  | (.passes, plan) =>
      let (result, after) := Medium.erase faulty.medium address count
      (result, { faulty with medium := after, plan })
  | (.fails _ error, plan) => (.error (.error error), { faulty with plan })
  | (.refused error, plan) => (.error (.error error), { faulty with plan })

instance : Medium (Faulty μ) where
  polarity := fun faulty => Medium.polarity faulty.medium
  pageSize := fun faulty => Medium.pageSize faulty.medium
  read := read
  write := write
  erase := erase

end Faulty

end TwinLog
