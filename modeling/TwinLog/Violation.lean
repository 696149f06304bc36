import TwinLog.Word

set_option autoImplicit false

namespace TwinLog

/-- A precondition that a caller or a simulated medium found broken. -/
inductive Violation where
  /-- The page size of a simulated medium does not fit its words or its capacity. -/
  | unfitPageSize
  /-- An address is not that of a word. -/
  | unaligned (address : Address)
  /-- An access that starts at this address leaves the medium. -/
  | outOfRange (address : Address)
  /-- Programming a word would have moved a bit back toward the erased state. -/
  | illegalWrite (index : Nat) (before after : Word)
  /-- A log has no block of this index. -/
  | blockOutside (index : Nat)
  /-- A size does not fit its field. -/
  | sizeOutOfRange (size : Nat)
  /-- A remainder was taken by a page size of zero. -/
  | zeroDivisor
  deriving DecidableEq, Repr

def Violation.message : Violation → Option String
  | unfitPageSize => none
  | unaligned address => some s!"unaligned flash address {Word.hex address.toNat 0}"
  | outOfRange address => some s!"flash access out of range at {Word.hex address.toNat 0}"
  | illegalWrite index before after =>
      some s!"illegal flash write at word {index}: {Word.hex before.toNat 8} -> {Word.hex after.toNat 8}"
  | blockOutside index => some s!"block {index} outside of log"
  | sizeOutOfRange size => some s!"file size {size} out of range"
  | zeroDivisor => some "attempt to calculate the remainder with a divisor of zero"

end TwinLog
