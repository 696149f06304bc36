import TwinLog.Block

set_option autoImplicit false

namespace TwinLog

inductive Log where
  | a
  | b
  deriving DecidableEq, Repr

def Log.other : Log → Log
  | a => b
  | b => a

/-- The byte addresses of the two logs and the size of each in bytes. -/
structure Geometry where
  logA : Address
  logB : Address
  size : Word
  deriving DecidableEq, Repr

inductive GeometryError where
  /-- A size or an address is no multiple of the block or page size. -/
  | misaligned
  /-- A log cannot hold its marker block and one more. -/
  | tooSmall
  /-- The two logs share bytes. -/
  | overlap
  deriving DecidableEq, Repr

namespace Geometry

def base (geometry : Geometry) : Log → Address
  | .a => geometry.logA
  | .b => geometry.logB

def blocks (geometry : Geometry) : Nat :=
  geometry.size.toNat / Block.byteSize

/-- Holds the layout against the erase page size of the medium. The ends of the logs are compared as they are, also past
the end of the address space. -/
def check (geometry : Geometry) (pageSize : Word) : Except GeometryError Unit :=
  let a := geometry.logA.toNat
  let b := geometry.logB.toNat
  let size := geometry.size.toNat
  let page := pageSize.toNat
  if size < 2 * Block.byteSize then
    .error .tooSmall
  else if page = 0 ∨ size % Block.byteSize ≠ 0 ∨ size % page ≠ 0 then
    .error .misaligned
  else if a % page ≠ 0 ∨ b % page ≠ 0 then
    .error .misaligned
  else if a < b + size ∧ b < a + size then
    .error .overlap
  else
    .ok ()

end Geometry

end TwinLog
