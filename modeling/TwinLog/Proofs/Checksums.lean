import TwinLog.Proofs.BlockCodec

set_option autoImplicit false

namespace TwinLog

namespace Checksum

def bit (word : Word) (position : Nat) : Bool :=
  word.toBitVec.getLsbD position

theorem ext_bit {first second : Word} (same : ∀ position < 32, bit first position = bit second position) :
    first = second :=
  UInt32.toBitVec_inj.mp (BitVec.eq_of_getLsbD_eq same)

@[simp] theorem bit_xor (first second : Word) (position : Nat) :
    bit (first ^^^ second) position = (bit first position ^^ bit second position) := by
  simp [bit]

theorem bit_zero_iff (word : Word) : word &&& 1 = 1 ↔ bit word 0 = true := by
  constructor
  · intro odd
    have low : bit (word &&& 1) 0 = true := by rw [odd]; rfl
    simpa [bit] using low
  · intro low
    apply ext_bit
    intro position inside
    unfold bit at low ⊢
    rw [UInt32.toBitVec_and, BitVec.getLsbD_and]
    cases position with
    | zero => rw [low]; rfl
    | succ position =>
        have one : (1 : Word).toBitVec.getLsbD (position + 1) = false := by
          change BitVec.getLsbD 1#32 (position + 1) = false
          simp [BitVec.getLsbD_one]
        rw [one, Bool.and_false]

theorem bit_shift (word : Word) (position : Nat) :
    bit (shift word) position = (bit word (position + 1) ^^ (bit word 0 && bit polynomial position)) := by
  have moved : bit (word >>> 1) position = bit word (position + 1) := by
    simp [bit, Nat.add_comm]
  unfold shift
  cases low : bit word 0 with
  | true => rw [if_pos ((bit_zero_iff word).mpr low), bit_xor, moved, Bool.true_and]
  | false =>
      rw [if_neg (fun odd => by rw [(bit_zero_iff word).mp odd] at low; cases low), moved, Bool.false_and,
        Bool.xor_false]

/-- Shifting a remainder is linear. -/
theorem shift_xor (first second : Word) : shift (first ^^^ second) = shift first ^^^ shift second := by
  apply ext_bit
  intro position _
  simp only [bit_shift, bit_xor, Bool.and_xor_distrib_right, Bool.xor_assoc, Bool.xor_left_comm]

theorem shift_injective {first second : Word} (same : shift first = shift second) : first = second := by
  have low : bit first 0 = bit second 0 := by
    have top := congrArg (bit · 31) same
    simp only [bit_shift] at top
    have above (word : Word) : bit word 32 = false := BitVec.getLsbD_of_ge _ _ (Nat.le_refl _)
    have highest : bit polynomial 31 = true := by rfl
    simpa only [above, highest, Bool.and_true, Bool.false_xor] using top
  apply ext_bit
  intro position inside
  cases position with
  | zero => exact low
  | succ position =>
      have above := congrArg (bit · position) same
      simp only [bit_shift, low, Bool.xor_left_inj] at above
      exact above

theorem shifts_xor (count : Nat) (first second : Word) :
    shifts count (first ^^^ second) = shifts count first ^^^ shifts count second := by
  induction count generalizing first second with
  | zero => rfl
  | succ count ih => rw [shifts, shifts, shifts, shift_xor, ih]

theorem shifts_add (count further : Nat) (word : Word) :
    shifts (count + further) word = shifts further (shifts count word) := by
  induction count generalizing word with
  | zero => rw [Nat.zero_add, shifts]
  | succ count ih => rw [Nat.succ_add, shifts, shifts, ih]

theorem shifts_injective {count : Nat} {first second : Word} (same : shifts count first = shifts count second) :
    first = second := by
  induction count generalizing first second with
  | zero => exact same
  | succ count ih => exact shift_injective (ih same)

section Bytes

def absorbByte (remainder : Word) (byte : UInt8) : Word :=
  shifts 8 (remainder ^^^ byte.toUInt32)

theorem bit_eq_testBit (word : Word) (position : Nat) : bit word position = word.toNat.testBit position := rfl

theorem bit_shiftRight_eight (word : Word) (position : Nat) : bit (word >>> 8) position = bit word (position + 8) := by
  simp [bit, Nat.add_comm]

theorem bit_byte (word : Word) {position : Nat} :
    bit (Word.byte word 0).toUInt32 position = (decide (position < 8) && bit word position) := by
  simp [bit_eq_testBit, Word.byte, Nat.testBit_mod_two_pow _ 8]

theorem bit_shifts_high {count : Nat} {word : Word} (clear : ∀ position < count, bit word position = false)
    (position : Nat) : bit (shifts count word) position = bit word (position + count) := by
  induction count generalizing word with
  | zero => rfl
  | succ count ih =>
      have moved (place : Nat) : bit (shift word) place = bit word (place + 1) := by
        rw [bit_shift, clear 0 (Nat.succ_pos _), Bool.false_and, Bool.xor_false]
      rw [shifts, ih (fun place early => by rw [moved, clear _ (by omega)]), moved, Nat.add_assoc]

/-- Eight shifts absorb the lowest byte of what was added. -/
theorem shifts_byte (remainder word : Word) (further : Nat) :
    shifts (8 + further) (remainder ^^^ word) =
      shifts further (absorbByte remainder (Word.byte word 0) ^^^ (word >>> 8)) := by
  have high : shifts 8 (word ^^^ (Word.byte word 0).toUInt32) = word >>> 8 := by
    apply ext_bit
    intro position _
    have clear (place : Nat) (early : place < 8) : bit (word ^^^ (Word.byte word 0).toUInt32) place = false := by
      simp [bit_byte, early]
    rw [bit_shifts_high clear, bit_xor, bit_byte, bit_shiftRight_eight, decide_eq_false (by omega), Bool.false_and,
      Bool.xor_false]
  have split : remainder ^^^ word =
      (remainder ^^^ (Word.byte word 0).toUInt32) ^^^ (word ^^^ (Word.byte word 0).toUInt32) := by
    apply ext_bit
    intro position _
    simp only [bit_xor]
    cases bit remainder position <;> cases bit word position <;> simp
  rw [split, shifts_add, shifts_xor, high]
  rfl

/-- A word is absorbed as its bytes are, the lowest first. -/
theorem absorb_bytes (remainder word : Word) :
    absorb remainder word = (Word.bytes word).foldl absorbByte remainder := by
  have next (word : Word) (position : Nat) : Word.byte (word >>> 8) position = Word.byte word (position + 1) := by
    simp [Word.byte, ← Nat.shiftRight_add, Nat.mul_add, Nat.add_comm]
  have none : word >>> 8 >>> 8 >>> 8 >>> 8 = 0 := by
    apply ext_bit
    intro position _
    have above : bit word (position + 8 + 8 + 8 + 8) = false := BitVec.getLsbD_of_ge _ _ (by omega)
    simp only [bit_shiftRight_eight, above]
    exact (Nat.zero_testBit position).symm
  rw [absorb, shifts_byte remainder word 24, shifts_byte _ _ 16, shifts_byte _ _ 8, shifts_byte _ _ 0, none]
  simp only [next, Word.bytes, List.foldl_cons, List.foldl_nil, shifts, UInt32.xor_zero]

/-- The checksum is that of the bytes of the words. -/
theorem crc32_bytes (seed : Word) (words : List Word) :
    crc32 seed words = ~~~ ((Word.unpack words).foldl absorbByte (~~~ seed)) := by
  have bytewise : absorb = fun remainder word => (Word.bytes word).foldl absorbByte remainder := by
    funext remainder word
    exact absorb_bytes remainder word
  rw [crc32, Word.unpack, List.foldl_flatMap, bytewise]

/-- The check value of CRC-32, for the nine digits from one on. -/
example : ~~~ ([0x31, 0x32, 0x33, 0x34, 0x35, 0x36, 0x37, 0x38, 0x39].foldl absorbByte (~~~ 0)) = 0xCBF43926 := by
  decide +kernel

end Bytes

section Detection

/-- A remainder is told from what it was before a word, and from that word. -/
theorem absorb_injective {remainder remainder' word : Word} (same : absorb remainder word = absorb remainder' word) :
    remainder = remainder' :=
  (UInt32.xor_left_inj word).mp (shifts_injective same)

theorem absorb_word_injective {remainder word word' : Word} (same : absorb remainder word = absorb remainder word') :
    word = word' :=
  (UInt32.xor_right_inj remainder).mp (shifts_injective same)

theorem foldl_absorb_injective {remainder remainder' : Word} {words : List Word}
    (same : words.foldl absorb remainder = words.foldl absorb remainder') : remainder = remainder' := by
  induction words generalizing remainder remainder' with
  | nil => exact same
  | cons word rest ih => exact absorb_injective (ih same)

theorem not_injective {first second : Word} (same : ~~~ first = ~~~ second) : first = second := by
  rw [← UInt32.not_not (a := first), same, UInt32.not_not]

/-- Where one word of a run is replaced by another one, the checksum changes. -/
theorem crc32_set {seed word : Word} {words : List Word} {position : Nat} (inside : position < words.length)
    (other : words[position] ≠ word) : crc32 seed (words.set position word) ≠ crc32 seed words := by
  intro same
  have split : words = words.take position ++ words[position] :: words.drop (position + 1) := by
    rw [← List.drop_eq_getElem_cons inside, List.take_append_drop]
  rw [List.set_eq_take_append_cons_drop, if_pos inside] at same
  have apart := same.trans (congrArg (crc32 seed) split)
  simp only [crc32, List.foldl_append, List.foldl_cons] at apart
  exact other (absorb_word_injective (foldl_absorb_injective (not_injective apart))).symm

/-- Whether the last of a run of words is the checksum that continues `seed` over those before it. -/
def closed (seed : Word) (words : List Word) : Bool :=
  words.getLast? == some (crc32 seed words.dropLast)

@[simp] theorem closed_concat (seed : Word) (body : List Word) (last : Word) :
    closed seed (body ++ [last]) = (crc32 seed body == last) := by
  simp [closed, Bool.beq_comm]

theorem closed_append (seed : Word) (before : List Word) {after : List Word} (more : after ≠ []) :
    closed seed (before ++ after) = closed (crc32 seed before) after := by
  rw [← List.dropLast_concat_getLast more, ← List.append_assoc, closed_concat, closed_concat, crc32_append]

/-- A run that checks does not check any more when one of its words is replaced by another one. -/
theorem closed_set {seed word : Word} {words : List Word} {position : Nat} (inside : position < words.length)
    (other : words[position] ≠ word) (checked : closed seed words = true) :
    closed seed (words.set position word) = false := by
  obtain rfl | ⟨body, last, whole⟩ := List.eq_nil_or_concat words
  · cases inside
  rw [List.concat_eq_append] at whole
  subst whole
  rw [closed_concat, beq_iff_eq] at checked
  rw [List.length_append, List.length_singleton] at inside
  by_cases before : position < body.length
  · rw [List.getElem_append_left before] at other
    rw [List.set_append_left _ _ before, closed_concat, beq_eq_false_iff_ne, ← checked]
    exact crc32_set before other
  · have here : position = body.length := by omega
    subst here
    rw [List.getElem_concat_length rfl] at other
    rw [List.set_append_right _ _ (Nat.le_refl _), Nat.sub_self, List.set_cons_zero, closed_concat,
      beq_eq_false_iff_ne, checked]
    exact other

end Detection

end Checksum

theorem Block.checks_eq (block : Block) (seed : Word) : block.checks seed = Checksum.closed seed block.toList := by
  rw [Block.toList_eq, Checksum.closed_concat, Block.checks]

def Block.wordsOf (blocks : List Block) : List Word :=
  blocks.flatMap Block.toList

/-- The blocks of a chain pass its check where the further ones carry the continuation tag and all words together are
closed by their checksum. -/
theorem Chain.closes_eq (polarity : Polarity) (rest : List Block) (sum : Word) (first : Block) :
    Chain.closes polarity rest sum first =
      (rest.all (fun next => polarity.kind next.info == .cont) &&
        Checksum.closed sum (Block.wordsOf (first :: rest))) := by
  induction rest generalizing sum first with
  | nil => simp [Chain.closes, Block.wordsOf, Block.checks_eq]
  | cons next rest ih =>
      have more : Block.wordsOf (next :: rest) ≠ [] := by
        simp [Block.wordsOf, Block.toList]
      have joined : Block.wordsOf (first :: next :: rest) = first.toList ++ Block.wordsOf (next :: rest) := by
        simp [Block.wordsOf]
      rw [Chain.closes, ih, joined, Checksum.closed_append _ _ more, List.all_cons, Bool.and_assoc]

end TwinLog
