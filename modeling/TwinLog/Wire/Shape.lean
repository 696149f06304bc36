import TwinLog.Wire.Table
import TwinLog.Wire.Varint

set_option autoImplicit false

/-!
Typed values and their bytes. A shape says what a value is made of, `Shape.Value` is the type of its values, `encode`
writes one and `decode` reads one from the front of a byte list and returns what follows. Nothing in the bytes tells
the shape, so a reader has to know it.
-/

namespace TwinLog

mutual
/-- What a value is made of. -/
inductive Shape where
  /-- The one value that carries nothing; it has no bytes. -/
  | unit
  /-- A truth value in one byte. -/
  | bool
  /-- A number of bytes as they are, the lowest first. -/
  | raw (count : Nat)
  /-- A signed number in bytes as they are, the lowest first. -/
  | signed (count : Nat)
  /-- An unsigned number of `bits` bits in groups of seven. -/
  | natural (bits : Nat)
  /-- A signed number of `bits` bits, interleaved, in groups of seven. -/
  | integer (bits : Nat)
  /-- One character, written as the text of it alone. -/
  | char
  /-- A text: the number of its bytes in UTF-8 and the bytes. -/
  | text
  /-- A byte string: its length and its bytes. -/
  | bytes
  /-- Nothing, a zero byte, or a value behind a byte that is one. -/
  | option (item : Shape)
  /-- A list: its length and its items. -/
  | sequence (item : Shape)
  /-- Two values in a row. -/
  | pair (first second : Shape)
  /-- A map: the number of its bindings, and key and value of each in the order of the keys. -/
  | dictionary (key item : Shape)
  /-- One of several cases: its number and its payload. -/
  | choice (cases : Cases)

inductive Cases where
  | nil
  | cons (payload : Shape) (rest : Cases)
end

deriving instance DecidableEq for Shape, Cases

abbrev Shape.map (keyBytes : Nat) (item : Shape) : Shape :=
  .dictionary (.raw keyBytes) item

def utf8 (text : String) : List UInt8 :=
  text.toUTF8.data.toList

/-- The values of a shape and their order: one value is before another if its place is before the other's, where places
are compared number by number as lists are. -/
structure Domain where
  Value : Type
  place : Value → List Nat

namespace Domain

/-- Negative numbers are before the others; numbers of one sign are ordered as if they had none. -/
def signed (bits : Nat) : Domain :=
  ⟨BitVec bits, fun value => [(!value.msb).toNat, value.toNat]⟩

def option (item : Domain) : Domain where
  Value := Option item.Value
  place
    | none => [0]
    | some value => 1 :: item.place value

/-- Lists are compared item by item; the zero behind the last item puts a list before those that go on. -/
def sequence (item : Domain) : Domain :=
  ⟨List item.Value, fun values => (values.flatMap fun value => 1 :: item.place value) ++ [0]⟩

def pair (first second : Domain) : Domain :=
  ⟨first.Value × second.Value, fun value => first.place value.1 ++ second.place value.2⟩

def dictionary (key item : Domain) : Domain :=
  ⟨Dictionary key.place item.Value, fun table => (key.pair item).sequence.place table.entries⟩

def sum (first second : Domain) : Domain where
  Value := first.Value ⊕ second.Value
  place
    | .inl value => 0 :: first.place value
    | .inr value => 1 :: second.place value

def byte : Domain :=
  ⟨UInt8, fun value => [value.toNat]⟩

end Domain

mutual
/-- The values of a shape in their order, which is that of its parts: fields one after the other, cases by their
number, characters by their code points and texts by their bytes. -/
def Shape.domain : Shape → Domain
  | .unit => ⟨Unit, fun _ => []⟩
  | .bool => ⟨Bool, fun value => [value.toNat]⟩
  | .raw count => ⟨BitVec (8 * count), fun value => [value.toNat]⟩
  | .signed count => .signed (8 * count)
  | .natural bits => ⟨BitVec bits, fun value => [value.toNat]⟩
  | .integer bits => .signed bits
  | .char => ⟨Char, fun value => [value.toNat]⟩
  | .text => ⟨String, fun value => Domain.byte.sequence.place (utf8 value)⟩
  | .bytes => Domain.byte.sequence
  | .option item => item.domain.option
  | .sequence item => item.domain.sequence
  | .pair first second => first.domain.pair second.domain
  | .dictionary key item => key.domain.dictionary item.domain
  | .choice cases => cases.domain

def Cases.domain : Cases → Domain
  | .nil => ⟨Empty, Empty.elim⟩
  | .cons payload rest => payload.domain.sum rest.domain
end

def Shape.Value (shape : Shape) : Type :=
  shape.domain.Value

def Cases.Value (cases : Cases) : Type :=
  cases.domain.Value

namespace Wire

/-- A reader takes a value from the front and returns what follows it. -/
abbrev Reader (α : Type) := List UInt8 → Option (α × List UInt8)

def lengthBits : Nat := 64

def caseBits : Nat := 32

def take (count : Nat) : Reader (List UInt8) := fun bytes =>
  if count ≤ bytes.length then some (bytes.take count, bytes.drop count) else none

def rawBytes : Nat → Nat → List UInt8
  | 0, _ => []
  | count + 1, number => UInt8.ofNat number :: rawBytes count (number / 256)

def encodeBytes (bytes : List UInt8) : List UInt8 :=
  Varint.encode lengthBits bytes.length ++ bytes

def decodeBytes : Reader (List UInt8) := fun bytes => do
  let (length, rest) ← Varint.decode lengthBits bytes
  take length rest

def decodeText : Reader String := fun bytes => do
  let (content, rest) ← decodeBytes bytes
  let text ← String.fromUTF8? content.toByteArray
  return (text, rest)

/-- Reads the first character of a text of at most four bytes. -/
def decodeChar : Reader Char := fun bytes => do
  let (length, rest) ← Varint.decode lengthBits bytes
  if 4 < length then
    none
  else
    let (content, rest) ← take length rest
    let text ← String.fromUTF8? content.toByteArray
    let char ← text.toList.head?
    return (char, rest)

def decodeFlag : Reader Bool
  | 0 :: rest => some (false, rest)
  | 1 :: rest => some (true, rest)
  | _ => none

def times {α : Type} (count : Nat) (reader : Reader α) : Reader (List α) := fun bytes =>
  match count with
  | 0 => some ([], bytes)
  | count + 1 => do
      let (item, rest) ← reader bytes
      let (items, rest) ← times count reader rest
      return (item :: items, rest)

def both {α β : Type} (first : Reader α) (second : Reader β) : Reader (α × β) := fun bytes => do
  let (one, rest) ← first bytes
  let (other, rest) ← second rest
  return ((one, other), rest)

def decodeRaw (count : Nat) : Reader (BitVec (8 * count)) := fun bytes =>
  (take count bytes).map fun (content, rest) => (BitVec.ofNat (8 * count) (Word.numeral content), rest)

end Wire

open Wire

mutual
def Shape.encode : (shape : Shape) → shape.Value → List UInt8
  | .unit, _ => []
  | .bool, false => [0]
  | .bool, true => [1]
  | .raw count, (value : BitVec (8 * count)) => rawBytes count value.toNat
  | .signed count, (value : BitVec (8 * count)) => rawBytes count value.toNat
  | .natural bits, (value : BitVec bits) => Varint.encode bits value.toNat
  | .integer bits, (value : BitVec bits) => Varint.encode bits (Varint.interleave value.toInt)
  | .char, value => encodeBytes (utf8 (String.singleton value))
  | .text, value => encodeBytes (utf8 value)
  | .bytes, value => encodeBytes value
  | .option _, none => [0]
  | .option item, some value => 1 :: item.encode value
  | .sequence item, (values : List item.Value) =>
      Varint.encode lengthBits values.length ++ values.flatMap item.encode
  | .pair first second, (one, other) => first.encode one ++ second.encode other
  | .dictionary key item, (table : Dictionary key.domain.place item.Value) =>
      Varint.encode lengthBits table.entries.length ++
        table.entries.flatMap fun entry => key.encode entry.1 ++ item.encode entry.2
  | .choice cases, value => cases.encode 0 value

/-- The bytes of a payload behind the number of its case; the first case has the number `number`. -/
def Cases.encode : (cases : Cases) → Nat → cases.Value → List UInt8
  | .cons payload _, number, .inl value => Varint.encode caseBits number ++ payload.encode value
  | .cons _ rest, number, .inr value => rest.encode (number + 1) value
end

mutual
def Shape.decode : (shape : Shape) → Reader shape.Value
  | .unit => fun bytes => some ((), bytes)
  | .bool => decodeFlag
  | .raw count => decodeRaw count
  | .signed count => decodeRaw count
  | .natural bits => fun bytes =>
      (Varint.decode bits bytes).map fun (number, rest) => (BitVec.ofNat bits number, rest)
  | .integer bits => fun bytes =>
      (Varint.decode bits bytes).map fun (place, rest) => (BitVec.ofInt bits (Varint.deinterleave place), rest)
  | .char => decodeChar
  | .text => decodeText
  | .bytes => decodeBytes
  | .option item => fun bytes =>
      match decodeFlag bytes with
      | none => none
      | some (false, rest) => some (none, rest)
      | some (true, rest) => (item.decode rest).map fun (value, rest) => (some value, rest)
  | .sequence item => fun bytes => do
      let (length, rest) ← Varint.decode lengthBits bytes
      times length item.decode rest
  | .pair first second => both first.decode second.decode
  | .dictionary key item => fun bytes => do
      let (length, rest) ← Varint.decode lengthBits bytes
      let (bindings, rest) ← times length (both key.decode item.decode) rest
      return (Dictionary.ofList bindings, rest)
  | .choice cases => fun bytes => do
      let (number, rest) ← Varint.decode caseBits bytes
      cases.decode number rest

def Cases.decode : (cases : Cases) → Nat → Reader cases.Value
  | .nil, _ => fun _ => none
  | .cons payload _, 0 => fun bytes => (payload.decode bytes).map fun (value, rest) => (.inl value, rest)
  | .cons _ rest, number + 1 => fun bytes =>
      (rest.decode number bytes).map fun (value, after) => (.inr value, after)
end

end TwinLog
