import TwinLog.Word

set_option autoImplicit false

namespace TwinLog.Varint

/-- The largest number of groups in a number of `bits` bits, which is at least one. -/
def groups (bits : Nat) : Nat :=
  max 1 ((bits + 6) / 7)

def encodeGroups : Nat → Nat → List UInt8
  | 0, _ => []
  | limit + 1, number =>
      if number < 128 then
        [UInt8.ofNat number]
      else
        UInt8.ofNat (128 + number % 128) :: encodeGroups limit (number / 128)

def decodeGroups : Nat → List UInt8 → Option (Nat × List UInt8)
  | 0, _ => none
  | _ + 1, [] => none
  | limit + 1, byte :: rest =>
      if byte.toNat < 128 then
        some (byte.toNat, rest)
      else
        (decodeGroups limit rest).map fun (high, after) => (byte.toNat - 128 + 128 * high, after)

def encode (bits number : Nat) : List UInt8 :=
  encodeGroups (groups bits) number

/-- Reads a number of `bits` bits. Groups of zeros above the number are accepted. -/
def decode (bits : Nat) (bytes : List UInt8) : Option (Nat × List UInt8) :=
  (decodeGroups (groups bits) bytes).filter fun (number, _) => number >>> bits = 0

/-- The place of a signed number in the sequence `0, -1, 1, -2, …`. -/
def interleave : Int → Nat
  | .ofNat number => 2 * number
  | .negSucc number => 2 * number + 1

def deinterleave (place : Nat) : Int :=
  if place % 2 = 0 then .ofNat (place / 2) else .negSucc (place / 2)

theorem decodeGroups_encodeGroups (limit number : Nat) (rest : List UInt8) (fits : number >>> (7 * (limit + 1)) = 0) :
    decodeGroups (limit + 1) (encodeGroups (limit + 1) number ++ rest) = some (number, rest) := by
  induction limit generalizing number with
  | zero =>
      have small : number < 128 := by
        rw [Nat.shiftRight_eq_div_pow] at fits
        omega
      have value : (UInt8.ofNat number).toNat = number := by
        rw [UInt8.toNat_ofNat', Nat.mod_eq_of_lt (by omega)]
      simp only [encodeGroups, small, if_true, List.cons_append, List.nil_append, decodeGroups, value]
  | succ limit ih =>
      by_cases small : number < 128
      · have value : (UInt8.ofNat number).toNat = number := by
          rw [UInt8.toNat_ofNat', Nat.mod_eq_of_lt (by omega)]
        rw [encodeGroups, if_pos small]
        simp only [List.cons_append, List.nil_append, decodeGroups, value, small, if_true]
      · have value : (UInt8.ofNat (128 + number % 128)).toNat = 128 + number % 128 := by
          rw [UInt8.toNat_ofNat', Nat.mod_eq_of_lt (by omega)]
        have high : (number / 128) >>> (7 * (limit + 1)) = 0 := by
          have group : number / 128 = number >>> 7 := by rw [Nat.shiftRight_eq_div_pow]
          rw [group, ← Nat.shiftRight_add, Nat.add_comm]
          exact fits
        rw [encodeGroups, if_neg small, List.cons_append, decodeGroups, value,
          if_neg (show ¬ 128 + number % 128 < 128 by omega), ih _ high]
        simp only [Option.map_some, Option.some.injEq, Prod.mk.injEq, and_true]
        omega

/-- A number without bits beyond its width reads back as itself, whatever follows it. -/
theorem decode_encode (bits number : Nat) (rest : List UInt8) (fits : number >>> bits = 0) :
    decode bits (encode bits number ++ rest) = some (number, rest) := by
  obtain ⟨limit, count⟩ : ∃ limit, groups bits = limit + 1 := ⟨groups bits - 1, by unfold groups; omega⟩
  obtain ⟨spare, enough⟩ : ∃ spare, 7 * (limit + 1) = bits + spare :=
    ⟨7 * (limit + 1) - bits, by unfold groups at count; omega⟩
  have held : number >>> (7 * (limit + 1)) = 0 := by
    rw [enough, Nat.shiftRight_add, fits, Nat.zero_shiftRight]
  rw [decode, encode, count, decodeGroups_encodeGroups _ _ _ held]
  simp only [Option.filter_some, fits, decide_true, if_true]

@[simp] theorem deinterleave_interleave (number : Int) : deinterleave (interleave number) = number := by
  cases number with
  | ofNat number => simp only [interleave, deinterleave, if_pos (show 2 * number % 2 = 0 by omega),
      show 2 * number / 2 = number by omega]
  | negSucc number => simp only [interleave, deinterleave, if_neg (show ¬ (2 * number + 1) % 2 = 0 by omega),
      show (2 * number + 1) / 2 = number by omega]

end TwinLog.Varint
