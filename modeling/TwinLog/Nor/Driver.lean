import TwinLog.Polarity

set_option autoImplicit false

namespace TwinLog

inductive NorError where
  | notAligned
  | outOfBounds
  | other
  deriving DecidableEq, Repr

/-- A driver of NOR flash. Every call also returns the driver as it is afterwards. -/
class NorDriver (δ : Type) where
  /-- The granularity of a read in bytes. -/
  readSize : δ → Nat
  /-- The granularity of a write in bytes. -/
  writeSize : δ → Nat
  /-- The granularity of an erase in bytes. -/
  eraseSize : δ → Nat
  /-- Reads a number of bytes from an offset on. -/
  read : δ → Address → Nat → Except NorError (List UInt8) × δ
  /-- Programs bytes from an offset on. -/
  write : δ → Address → List UInt8 → Except NorError Unit × δ
  /-- Erases the bytes from the first offset up to the second. -/
  erase : δ → Address → Address → Except NorError Unit × δ

end TwinLog
