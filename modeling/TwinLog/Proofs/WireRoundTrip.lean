import Mathlib.Algebra.Group.Nat.Defs
import TwinLog.Wire.Shape

set_option autoImplicit false

namespace TwinLog

namespace Dictionary

variable {κ : Type} {place : κ → List Nat} {α : Type}

theorem insertInto_last {entries : List (κ × α)} {key : κ} {value : α}
    (above : ∀ entry ∈ entries, place entry.1 < place key) :
    insertInto place key value entries = entries ++ [(key, value)] := by
  induction entries with
  | nil => rfl
  | cons entry rest ih =>
      have less : place entry.1 < place key := above entry List.mem_cons_self
      have different : place key ≠ place entry.1 := fun same => List.lt_irrefl _ (same ▸ less)
      rw [insertInto, if_neg (List.lt_asymm less), if_neg different,
        ih (fun other member => above other (List.mem_cons_of_mem _ member)), List.cons_append]

theorem eq_of_entries {one other : Dictionary place α} (same : one.entries = other.entries) : one = other := by
  cases one
  cases other
  cases same
  rfl

theorem entries_foldl (table : Dictionary place α) {rest : List (κ × α)}
    (ordered : (table.entries ++ rest).Pairwise fun before after => place before.1 < place after.1) :
    (rest.foldl (fun table binding => table.insert binding.1 binding.2) table).entries = table.entries ++ rest := by
  induction rest generalizing table with
  | nil => rw [List.foldl_nil, List.append_nil]
  | cons entry rest ih =>
      have last : (table.insert entry.1 entry.2).entries = table.entries ++ [entry] :=
        insertInto_last fun other member =>
          (List.pairwise_append.mp ordered).2.2 other member entry List.mem_cons_self
      have further : (table.insert entry.1 entry.2).entries ++ rest = table.entries ++ entry :: rest := by
        rw [last, List.append_assoc, List.singleton_append]
      rw [List.foldl_cons, ih _ (further ▸ ordered), further]

@[simp] theorem ofList_entries (table : Dictionary place α) : ofList table.entries = table :=
  eq_of_entries (entries_foldl empty table.ordered)

end Dictionary

namespace Wire

variable {α β : Type}

/-- Whether a reader comes to `value` on `bytes`, and leaves alone what follows them. -/
def Recovers (reader : Reader α) (bytes : List UInt8) (value : α) : Prop :=
  ∀ rest, reader (bytes ++ rest) = some (value, rest)

theorem length_rawBytes (count number : Nat) : (rawBytes count number).length = count := by
  induction count generalizing number with
  | zero => rfl
  | succ count ih => rw [rawBytes, List.length_cons, ih]

theorem numeral_rawBytes (count number : Nat) : Word.numeral (rawBytes count number) = number % 256 ^ count := by
  induction count generalizing number with
  | zero => rw [Nat.pow_zero, Nat.mod_one, rawBytes, Word.numeral]
  | succ count ih =>
      have low : (UInt8.ofNat number).toNat = number % 256 := UInt8.toNat_ofNat'
      rw [rawBytes, Word.numeral, ih, low, Nat.pow_succ', Nat.mod_mul]

/-- The bytes of a number of that many bytes stand for it. -/
theorem ofNat_rawBytes (count : Nat) (value : BitVec (8 * count)) :
    BitVec.ofNat (8 * count) (Word.numeral (rawBytes count value.toNat)) = value := by
  have bound : value.toNat < 256 ^ count := by
    have held := value.isLt
    rwa [Nat.pow_mul] at held
  rw [numeral_rawBytes, Nat.mod_eq_of_lt bound, BitVec.ofNat_toNat, BitVec.setWidth_eq]

theorem recovers_take (bytes : List UInt8) : Recovers (take bytes.length) bytes bytes := by
  intro rest
  rw [take, if_pos (by rw [List.length_append]; omega), List.take_left, List.drop_left]

/-- A number without bits beyond its width is recovered. -/
theorem recovers_varint {bits number : Nat} (small : number < 2 ^ bits) :
    Recovers (Varint.decode bits) (Varint.encode bits number) number :=
  fun rest => Varint.decode_encode bits number rest (Nat.shiftRight_eq_zero _ _ small)

theorem interleave_lt {bits : Nat} (value : BitVec bits) : Varint.interleave value.toInt < 2 ^ bits := by
  have above := @BitVec.two_mul_toInt_lt bits value
  have below := @BitVec.le_two_mul_toInt bits value
  have width : ((2 ^ bits : Nat) : Int) = 2 ^ bits := by push_cast; rfl
  cases number : value.toInt with
  | ofNat size =>
      rw [number] at above
      rw [Varint.interleave]
      have : 2 * (size : Int) < 2 ^ bits := above
      omega
  | negSucc size =>
      rw [number] at below
      rw [Varint.interleave]
      have : -(2 ^ bits : Int) ≤ 2 * -((size : Int) + 1) := by simpa [Int.negSucc_eq] using below
      omega

theorem Recovers.bind {reader : Reader α} {bytes more : List UInt8} {value : α} {result : β}
    (first : Recovers reader bytes value) (next : α → Reader β) (second : Recovers (next value) more result) :
    Recovers (fun input => reader input >>= fun read => next read.1 read.2) (bytes ++ more) result := by
  intro rest
  rw [List.append_assoc]
  simp only [first _, Option.bind_eq_bind, Option.bind_some]
  exact second rest

theorem Recovers.map {reader : Reader α} {bytes : List UInt8} {value : α} (recovers : Recovers reader bytes value)
    (change : α → β) :
    Recovers (fun input => (reader input).map fun read => (change read.1, read.2)) bytes (change value) := by
  intro rest
  simp only [recovers rest, Option.map_some]

theorem recovers_raw {count : Nat} (value : BitVec (8 * count)) :
    Recovers (decodeRaw count) (rawBytes count value.toNat) value := by
  have taken := recovers_take (rawBytes count value.toNat)
  rw [length_rawBytes] at taken
  have read := taken.map fun content => BitVec.ofNat (8 * count) (Word.numeral content)
  rwa [ofNat_rawBytes] at read

theorem recovers_natural {bits : Nat} (value : BitVec bits) :
    Recovers (fun input => (Varint.decode bits input).map fun read => (BitVec.ofNat bits read.1, read.2))
      (Varint.encode bits value.toNat) value := by
  have read := (recovers_varint value.isLt).map (BitVec.ofNat bits)
  rwa [BitVec.ofNat_toNat, BitVec.setWidth_eq] at read

theorem recovers_integer {bits : Nat} (value : BitVec bits) :
    Recovers (fun input => (Varint.decode bits input).map fun read =>
        (BitVec.ofInt bits (Varint.deinterleave read.1), read.2))
      (Varint.encode bits (Varint.interleave value.toInt)) value := by
  have read := (recovers_varint (interleave_lt value)).map fun place => BitVec.ofInt bits (Varint.deinterleave place)
  rwa [Varint.deinterleave_interleave, BitVec.ofInt_toInt] at read

theorem recovers_times {reader : Reader α} {encode : α → List UInt8} {items : List α}
    (each : ∀ item ∈ items, Recovers reader (encode item) item) :
    Recovers (times items.length reader) (items.flatMap encode) items := by
  induction items with
  | nil => exact fun rest => rfl
  | cons item items ih =>
      have first := each item List.mem_cons_self
      have others := ih fun other member => each other (List.mem_cons_of_mem _ member)
      intro rest
      rw [List.flatMap_cons, List.append_assoc, List.length_cons, times]
      simp only [first _, others _, Option.bind_eq_bind, Option.bind_some, Option.pure_def]

theorem recovers_list {reader : Reader α} {encode : α → List UInt8} {items : List α}
    (counted : items.length < 2 ^ lengthBits) (each : ∀ item ∈ items, Recovers reader (encode item) item) :
    Recovers (fun input => Varint.decode lengthBits input >>= fun read => times read.1 reader read.2)
      (Varint.encode lengthBits items.length ++ items.flatMap encode) items :=
  (recovers_varint counted).bind (fun length => times length reader) (recovers_times each)

theorem recovers_bytes {bytes : List UInt8} (counted : bytes.length < 2 ^ lengthBits) :
    Recovers decodeBytes (encodeBytes bytes) bytes :=
  (recovers_varint counted).bind take (recovers_take bytes)

theorem fromUTF8?_utf8 (text : String) : String.fromUTF8? (utf8 text).toByteArray = some text := by
  have same : (utf8 text).toByteArray = text.toByteArray := by
    apply ByteArray.ext
    rw [List.data_toByteArray]
    rfl
  rw [same, String.fromUTF8?, dif_pos text.isValidUTF8]
  rfl

theorem recovers_text {text : String} (counted : (utf8 text).length < 2 ^ lengthBits) :
    Recovers decodeText (encodeBytes (utf8 text)) text := by
  intro rest
  simp only [decodeText, recovers_bytes counted rest, fromUTF8?_utf8, Option.bind_eq_bind, Option.bind_some,
    Option.pure_def]

/-- The text of a single character is short enough for a reader of characters. -/
theorem recovers_char (char : Char) : Recovers decodeChar (encodeBytes (utf8 (String.singleton char))) char := by
  have short : (utf8 (String.singleton char)).length ≤ 4 :=
    Nat.le_trans (Nat.le_of_eq String.utf8ByteSize_singleton) char.utf8Size_le_four
  have counted : (utf8 (String.singleton char)).length < 2 ^ lengthBits := by
    rw [lengthBits]
    omega
  intro rest
  rw [encodeBytes, List.append_assoc]
  simp only [decodeChar, recovers_varint counted _, recovers_take _ _, if_neg (Nat.not_lt.mpr short), fromUTF8?_utf8,
    Option.bind_eq_bind, Option.bind_some, Option.pure_def, String.toList_singleton, List.head?_cons]

theorem Recovers.both {first : Reader α} {second : Reader β} {bytes more : List UInt8} {one : α} {other : β}
    (front : Recovers first bytes one) (back : Recovers second more other) :
    Recovers (both first second) (bytes ++ more) (one, other) := by
  intro rest
  rw [List.append_assoc]
  simp only [Wire.both, front _, back _, Option.bind_eq_bind, Option.bind_some, Option.pure_def]

/-- A map is recovered from its bindings, which were written in the order of their keys. -/
theorem recovers_dictionary {κ : Type} {place : κ → List Nat} {first : Reader κ} {second : Reader α}
    {encode : κ × α → List UInt8} {table : Dictionary place α} (counted : table.entries.length < 2 ^ lengthBits)
    (each : ∀ entry ∈ table.entries, Recovers (both first second) (encode entry) entry) :
    Recovers (fun input => Varint.decode lengthBits input >>= fun read =>
        times read.1 (both first second) read.2 >>= fun read => pure (Dictionary.ofList read.1, read.2))
      (Varint.encode lengthBits table.entries.length ++ table.entries.flatMap encode) table := by
  have bindings := recovers_times each
  intro rest
  rw [List.append_assoc]
  simp only [recovers_varint counted _, bindings _, Dictionary.ofList_entries, Option.bind_eq_bind, Option.bind_some,
    Option.pure_def]

end Wire

open Wire

mutual
/-- Whether the lengths and the numbers of cases in a value can be written, as those of every value in the memory of a
machine can. -/
def Shape.Counted : (shape : Shape) → shape.Value → Prop
  | .unit, _ => True
  | .bool, _ => True
  | .raw _, _ => True
  | .signed _, _ => True
  | .natural _, _ => True
  | .integer _, _ => True
  | .char, _ => True
  | .text, value => (utf8 value).length < 2 ^ lengthBits
  | .bytes, value => value.length < 2 ^ lengthBits
  | .option _, none => True
  | .option item, some value => item.Counted value
  | .sequence item, (values : List item.Value) =>
      values.length < 2 ^ lengthBits ∧ ∀ value ∈ values, item.Counted value
  | .pair first second, (one, other) => first.Counted one ∧ second.Counted other
  | .dictionary key item, (table : Dictionary key.domain.place item.Value) =>
      table.entries.length < 2 ^ lengthBits ∧ ∀ entry ∈ table.entries, key.Counted entry.1 ∧ item.Counted entry.2
  | .choice cases, value => cases.Counted 0 value

def Cases.Counted : (cases : Cases) → Nat → cases.Value → Prop
  | .cons payload _, number, .inl value => number < 2 ^ caseBits ∧ payload.Counted value
  | .cons _ rest, number, .inr value => rest.Counted (number + 1) value
end

mutual
/-- A value is recovered from its bytes. -/
theorem Shape.recovers : ∀ (shape : Shape) (value : shape.Value), shape.Counted value →
    Recovers shape.decode (shape.encode value) value
  | .unit, _, _ => fun _ => rfl
  | .bool, false, _ => fun _ => rfl
  | .bool, true, _ => fun _ => rfl
  | .raw _, value, _ => recovers_raw value
  | .signed _, value, _ => recovers_raw value
  | .natural _, value, _ => recovers_natural value
  | .integer _, value, _ => recovers_integer value
  | .char, value, _ => recovers_char value
  | .text, _, counted => recovers_text counted
  | .bytes, _, counted => recovers_bytes counted
  | .option _, none, _ => fun _ => rfl
  | .option item, some value, counted => by
      intro rest
      simp only [Shape.decode, Shape.encode, List.cons_append, decodeFlag, Shape.recovers item value counted rest,
        Option.map_some]
  | .sequence item, _, counted =>
      recovers_list counted.1 fun value member => Shape.recovers item value (counted.2 value member)
  | .pair first second, (one, other), counted =>
      (Shape.recovers first one counted.1).both (Shape.recovers second other counted.2)
  | .dictionary key item, _, counted =>
      recovers_dictionary counted.1 fun entry member =>
        (Shape.recovers key entry.1 (counted.2 entry member).1).both
          (Shape.recovers item entry.2 (counted.2 entry member).2)
  | .choice cases, value, counted => by
      obtain ⟨place, payload, written, small, recovers⟩ := Cases.recovers cases 0 value counted
      rw [Nat.zero_add] at written small
      rw [Shape.encode, written]
      exact (recovers_varint small).bind cases.decode recovers

theorem Cases.recovers : ∀ (cases : Cases) (number : Nat) (value : cases.Value), cases.Counted number value →
    ∃ place payload, cases.encode number value = Varint.encode caseBits (number + place) ++ payload ∧
      number + place < 2 ^ caseBits ∧ Recovers (cases.decode place) payload value
  | .cons payload _, number, .inl value, counted =>
      ⟨0, payload.encode value, rfl, counted.1, (Shape.recovers payload value counted.2).map Sum.inl⟩
  | .cons _ rest, number, .inr value, counted => by
      obtain ⟨place, payload, written, small, recovers⟩ := Cases.recovers rest (number + 1) value counted
      rw [Nat.add_right_comm] at written small
      exact ⟨place + 1, payload, written, small, recovers.map Sum.inr⟩
end

end TwinLog
