set_option autoImplicit false

namespace TwinLog

/-- The unit in which a medium is read and programmed. -/
abbrev Word := UInt32

/-- A byte offset into a medium. -/
abbrev Address := UInt32

namespace Word

def byteSize : Nat := 4

/-- The `position`-th byte of a word, the lowest first. -/
def byte (word : Word) (position : Nat) : UInt8 :=
  UInt8.ofNat (word.toNat >>> (8 * position))

def bytes (word : Word) : List UInt8 :=
  [byte word 0, byte word 1, byte word 2, byte word 3]

/-- The value of a byte list read as a numeral in base 256, the lowest byte first. -/
def numeral : List UInt8 → Nat
  | [] => 0
  | byte :: rest => byte.toNat + 256 * numeral rest

/-- The word that up to four bytes stand for; bytes that are missing count as zero. -/
def ofBytes (bytes : List UInt8) : Word :=
  UInt32.ofNat (numeral bytes)

/-- Exactly `count` words that hold `bytes` from the first byte on, filled up with zeros. -/
def pack : Nat → List UInt8 → List Word
  | 0, _ => []
  | count + 1, bytes => ofBytes (bytes.take 4) :: pack count (bytes.drop 4)

def unpack (words : List Word) : List UInt8 :=
  words.flatMap bytes

def setLowBit (word : Word) (bit : Bool) : Word :=
  UInt32.ofNat (2 * (word.toNat / 2) + bit.toNat)

def hex (number : Nat) (width : Nat) : String :=
  let digits := Nat.toDigits 16 number
  "0x" ++ String.ofList (List.replicate (width - digits.length) '0' ++ digits)

@[simp] theorem length_bytes (word : Word) : (bytes word).length = 4 := rfl

@[simp] theorem length_pack (count : Nat) (bytes : List UInt8) : (pack count bytes).length = count := by
  induction count generalizing bytes with
  | zero => rfl
  | succ count ih => simp only [pack, List.length_cons, ih]

@[simp] theorem length_unpack (words : List Word) : (unpack words).length = 4 * words.length := by
  induction words with
  | nil => rfl
  | cons word rest ih =>
      simp only [unpack, List.flatMap_cons, List.length_append, length_bytes, List.length_cons] at ih ⊢
      omega

theorem ofBytes_bytes (word : Word) : ofBytes (bytes word) = word := by
  have bound : word.toNat < 4294967296 := word.toNat_lt
  apply UInt32.toNat_inj.mp
  simp only [ofBytes, bytes, numeral, byte, UInt8.toNat_ofNat', UInt32.toNat_ofNat', Nat.shiftRight_eq_div_pow]
  omega

theorem bytes_ofBytes (b0 b1 b2 b3 : UInt8) : bytes (ofBytes [b0, b1, b2, b3]) = [b0, b1, b2, b3] := by
  have h0 : b0.toNat < 256 := b0.toNat_lt
  have h1 : b1.toNat < 256 := b1.toNat_lt
  have h2 : b2.toNat < 256 := b2.toNat_lt
  have h3 : b3.toNat < 256 := b3.toNat_lt
  simp only [bytes, byte, ofBytes, numeral, UInt32.toNat_ofNat', List.cons.injEq, and_true,
    ← UInt8.toNat_inj, UInt8.toNat_ofNat', Nat.shiftRight_eq_div_pow]
  omega

/-- Packing the bytes of a run of words into as many words gives the run back. -/
theorem pack_unpack (words : List Word) : pack words.length (unpack words) = words := by
  induction words with
  | nil => rfl
  | cons word rest ih =>
      have taken : (bytes word ++ unpack rest).take 4 = bytes word := by
        rw [List.take_left' (length_bytes word)]
      have dropped : (bytes word ++ unpack rest).drop 4 = unpack rest := by
        rw [List.drop_left' (length_bytes word)]
      have step : unpack (word :: rest) = bytes word ++ unpack rest := rfl
      simp only [List.length_cons, pack, step, taken, dropped, ofBytes_bytes, ih]

end Word

end TwinLog
