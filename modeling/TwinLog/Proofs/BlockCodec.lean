import TwinLog.Chain
import TwinLog.Proofs.Blocks

set_option autoImplicit false

namespace TwinLog

namespace Word

theorem numeral_append_zeros (bytes : List UInt8) (count : Nat) :
    numeral (bytes ++ List.replicate count 0) = numeral bytes := by
  induction bytes with
  | nil =>
      induction count with
      | zero => rfl
      | succ count ih =>
          simp only [List.nil_append, List.replicate_succ, numeral] at ih ⊢
          rw [ih]
          rfl
  | cons byte rest ih => rw [List.cons_append, numeral, ih, numeral]

theorem bytes_ofBytes_take (bytes : List UInt8) :
    Word.bytes (ofBytes (bytes.take 4)) = bytes.take 4 ++ List.replicate (4 - bytes.length) 0 := by
  have four : (bytes.take 4 ++ List.replicate (4 - bytes.length) 0).length = 4 := by
    simp only [List.length_append, List.length_take, List.length_replicate]
    omega
  have same : ofBytes (bytes.take 4) = ofBytes (bytes.take 4 ++ List.replicate (4 - bytes.length) 0) := by
    rw [ofBytes, ofBytes, numeral_append_zeros]
  rw [same]
  generalize bytes.take 4 ++ List.replicate (4 - bytes.length) 0 = whole at four
  obtain _ | ⟨b0, _ | ⟨b1, _ | ⟨b2, _ | ⟨b3, _ | ⟨b4, rest⟩⟩⟩⟩⟩ := whole
  case cons.cons.cons.cons.nil => exact bytes_ofBytes b0 b1 b2 b3
  all_goals simp only [List.length_cons, List.length_nil] at four; omega

theorem byte_ofBytes_take (bytes : List UInt8) {position : Nat} (inside : position < 4)
    (held : position < bytes.length) : Word.byte (ofBytes (bytes.take 4)) position = bytes[position] := by
  have listed : (Word.bytes (ofBytes (bytes.take 4)))[position]? = some (bytes[position]) := by
    rw [bytes_ofBytes_take, List.getElem?_append_left (by rw [List.length_take]; omega), List.getElem?_take_of_lt inside,
      List.getElem?_eq_getElem held]
  have digits : (Word.bytes (ofBytes (bytes.take 4)))[position]? =
      some (Word.byte (ofBytes (bytes.take 4)) position) := by
    have places : position = 0 ∨ position = 1 ∨ position = 2 ∨ position = 3 := by omega
    rcases places with rfl | rfl | rfl | rfl <;> rfl
  rw [digits, Option.some.injEq] at listed
  exact listed

theorem getD_pack (count : Nat) (bytes : List UInt8) {position : Nat} (inside : position < count) :
    (pack count bytes).getD position 0 = ofBytes ((bytes.drop (4 * position)).take 4) := by
  induction count generalizing bytes position with
  | zero => omega
  | succ count ih =>
      cases position with
      | zero => rfl
      | succ position =>
          rw [pack, List.getD_cons_succ, ih _ (by omega), List.drop_drop, Nat.mul_succ, Nat.add_comm]

/-- Unpacking gives the packed bytes back, followed by zeros. -/
theorem unpack_pack (count : Nat) (bytes : List UInt8) (fits : bytes.length ≤ 4 * count) :
    (unpack (pack count bytes)).take bytes.length = bytes := by
  induction count generalizing bytes with
  | zero =>
      have none : bytes = [] := List.length_eq_zero_iff.mp (by omega)
      rw [none]
      rfl
  | succ count ih =>
      have step : unpack (pack (count + 1) bytes) =
          (bytes.take 4 ++ List.replicate (4 - bytes.length) 0) ++ unpack (pack count (bytes.drop 4)) := by
        rw [← bytes_ofBytes_take]
        rfl
      rw [step]
      by_cases short : bytes.length ≤ 4
      · rw [List.take_of_length_le (i := 4) short, List.append_assoc, List.take_left]
      · rw [show 4 - bytes.length = 0 by omega, List.replicate_zero, List.append_nil]
        have later := ih (bytes.drop 4) (by rw [List.length_drop]; omega)
        rw [List.length_drop] at later
        rw [List.take_append, List.take_take, Nat.min_eq_right (by omega), List.length_take,
          Nat.min_eq_left (by omega), later, List.take_append_drop]

theorem toNat_setLowBit (word : Word) (bit : Bool) : (word.setLowBit bit).toNat = 2 * (word.toNat / 2) + bit.toNat := by
  have bound := word.toNat_lt
  have low := bit.toNat_lt
  rw [setLowBit, UInt32.toNat_ofNat']
  omega

theorem setLowBit_setLowBit (word : Word) (bit : Bool) :
    (word.setLowBit bit).setLowBit (word.toNat % 2 == 1) = word := by
  apply UInt32.toNat_inj.mp
  have low := bit.toNat_lt
  rw [toNat_setLowBit, toNat_setLowBit]
  by_cases odd : word.toNat % 2 = 1
  · rw [odd, show ((1 : Nat) == 1) = true from rfl, Bool.toNat_true]
    omega
  · rw [beq_false_of_ne odd, Bool.toNat_false]
    omega

theorem ofBytes_low (bytes : List UInt8) : (ofBytes (bytes.take 4)).toNat % 2 = (bytes[0]?.getD 0).toNat % 2 := by
  cases bytes with
  | nil => rfl
  | cons byte rest =>
      simp only [List.take_succ_cons, ofBytes, numeral, UInt32.toNat_ofNat', List.getElem?_cons_zero,
        Option.getD_some]
      omega

end Word

theorem Block.binding?_entry (polarity : Polarity) (id : FileId) (ufid : Ufid) :
    (Block.entry polarity id ufid).binding? polarity = some (id, ufid) := by
  have seven : (polarity.entryWord id :: Word.pack 6 ufid.toList).length = 7 := by
    rw [List.length_cons, Word.length_pack]
  have words := @Block.toList_sealed 0 _ seven
  have info : (Block.entry polarity id ufid).info = polarity.entryWord id := Block.info_of_toList words
  have sound : (Block.entry polarity id ufid).checks 0 = true := Block.checks_sealed seven
  have bytes : (Block.entry polarity id ufid).ufid = ufid := by
    apply Vector.ext
    intro position inside
    have word : (Block.entry polarity id ufid).words.get ⟨1 + position / 4, by omega⟩ =
        Word.ofBytes ((ufid.toList.drop (4 * (position / 4))).take 4) := by
      have listed : (Block.entry polarity id ufid).words.get ⟨1 + position / 4, by omega⟩ =
          (Block.entry polarity id ufid).toList.getD (1 + position / 4) 0 := by
        simp [toList, List.getD_eq_getElem?_getD, Vector.get, show 1 + position / 4 < 8 by omega]
      rw [listed, show (Block.entry polarity id ufid).toList = _ from words, List.cons_append, Nat.add_comm,
        List.getD_cons_succ, List.getD_append _ _ _ _ (by rw [Word.length_pack]; omega), Word.getD_pack _ _ (by omega)]
    simp only [Block.ufid, Vector.getElem_ofFn]
    rw [word, Word.byte_ofBytes_take _ (by omega) (by simp; omega)]
    simp only [List.getElem_drop, Vector.getElem_toList]
    congr 1
    omega
  rw [binding?, info, Polarity.kind_entryWord]
  simp only [sound, if_true, bytes]

namespace Slot

theorem length_words (slot : Slot) (polarity : Polarity) (info : Word) (bytes : List UInt8) :
    (slot.words polarity info bytes).length = 8 - slot.last.toNat := by
  obtain ⟨first, last⟩ := slot
  cases first <;> cases last <;> simp [words, contentWords]

/-- A block whose words were laid out for its place gives back what was laid out, followed by zeros. -/
theorem content_words (slot : Slot) (polarity : Polarity) (info : Word) (bytes : List UInt8) (displaced : Bool)
    (block : Block) (rest : List Word) (laid : block.toList = slot.words polarity info bytes ++ rest)
    (restored : slot.first = false → displaced = ((bytes[0]?.getD 0).toNat % 2 == 1)) :
    slot.content displaced block = Word.unpack (Word.pack slot.contentWords bytes) := by
  obtain ⟨first, last⟩ := slot
  have some_words : ∃ count, (Slot.mk first last).contentWords = count + 1 := by
    cases first <;> cases last <;> exact ⟨_, rfl⟩
  obtain ⟨count, counted⟩ := some_words
  cases first with
  | true =>
      simp only [content, laid, words, if_true, Bool.toNat_true, List.cons_append, List.drop_one, List.tail_cons]
      rw [List.take_left' (Word.length_pack _ _)]
  | false =>
      simp only [content, laid, words, Bool.false_eq_true, if_false, Bool.toNat_false, List.drop_zero]
      rw [List.take_left' (by rw [List.length_modifyHead, Word.length_pack]), counted, Word.pack,
        List.modifyHead_cons, List.modifyHead_cons, Polarity.tagCont, restored rfl, ← Word.ofBytes_low,
        Word.setLowBit_setLowBit]

end Slot

namespace Chain

/-- Whether `block`, with the checksum `sum` of the blocks before it, and the blocks after it end a sound chain. -/
def closes (polarity : Polarity) : List Block → Word → Block → Bool
  | [], sum, block => block.checks sum
  | next :: rest, sum, block =>
      polarity.kind next.info == .cont && closes polarity rest (Checksum.crc32 sum block.toList) next

/-- Whether blocks pass the check of a chain whose first block declares `head`. -/
def sound (polarity : Polarity) (head : Start) : List Block → Bool
  | [] => false
  | first :: rest =>
      head.size.val ≤ maxFileSize && rest.length + 1 == blocksNeeded head.size.val && closes polarity rest 0 first

/-- The content of the blocks of a chain of `count` blocks, from the one with `index` blocks before it on. -/
def gather (head : Start) (count : Nat) : Nat → List Block → List UInt8
  | _, [] => []
  | index, block :: rest =>
      (Slot.of count index).content (head.restore.getLsbD (index - 1)) block ++ gather head count (index + 1) rest

def data (head : Start) (blocks : List Block) : List UInt8 :=
  (gather head (blocksNeeded head.size.val) 0 blocks).take head.size.val

def headOf (id : FileId) (data : List UInt8) : Start :=
  ⟨id, ⟨data.length % 512, Nat.mod_lt _ (by decide)⟩, restoreBits data⟩

theorem headOf_size {id : FileId} {data : List UInt8} (fits : data.length ≤ maxFileSize) :
    (headOf id data).size.val = data.length := by
  simp only [maxFileSize] at fits
  simp only [headOf]
  omega

theorem slot_last (count index : Nat) : (Slot.of count index).last = (index + 1 == count) := rfl

theorem slot_first (count index : Nat) : (Slot.of count index).first = (index == 0) := rfl

theorem slot_last_eq_true {count index : Nat} (ends : index + 1 = count) : (Slot.of count index).last = true := by
  rw [slot_last, beq_iff_eq, ends]

theorem slot_last_eq_false {count index : Nat} (goesOn : index + 1 ≠ count) : (Slot.of count index).last = false := by
  rw [slot_last, beq_eq_false_iff_ne]
  exact goesOn

theorem slot_first_eq_true {count index : Nat} (starts : index = 0) : (Slot.of count index).first = true := by
  rw [slot_first, beq_iff_eq, starts]

theorem slot_first_eq_false {count index : Nat} (late : index ≠ 0) : (Slot.of count index).first = false := by
  rw [slot_first, beq_eq_false_iff_ne]
  exact late

/-- The last block is sealed with the checksum of the whole chain. -/
theorem lay_last (polarity : Polarity) (info : Word) (count : Nat) (some_blocks : 0 < count) (sum : Word)
    (bytes : List UInt8) :
    lay polarity info count 1 sum bytes =
      [Block.sealed sum ((Slot.of count (count - 1)).words polarity info
        (bytes.take (Slot.of count (count - 1)).room))] := by
  have last : (Slot.of count (count - 1)).last = true := slot_last_eq_true (by omega)
  simp only [lay, Nat.zero_add, last, if_true]

theorem lay_inner (polarity : Polarity) (info : Word) (count remaining : Nat) (inside : remaining + 2 ≤ count)
    (sum : Word) (bytes : List UInt8) :
    lay polarity info count (remaining + 2) sum bytes =
      let slot := Slot.of count (count - (remaining + 2))
      let words := slot.words polarity info (bytes.take slot.room)
      Block.ofList words ::
        lay polarity info count (remaining + 1) (Checksum.crc32 sum words) (bytes.drop slot.room) := by
  have inner : (Slot.of count (count - (remaining + 1 + 1))).last = false := slot_last_eq_false (by omega)
  rw [lay]
  simp only [inner, Bool.false_eq_true, if_false]

theorem toList_inner {slot : Slot} (inner : slot.last = false) (polarity : Polarity) (info : Word)
    (bytes : List UInt8) :
    (Block.ofList (slot.words polarity info bytes)).toList = slot.words polarity info bytes := by
  apply Block.toList_ofList
  rw [Slot.length_words, inner]
  rfl

theorem length_last {slot : Slot} (last : slot.last = true) (polarity : Polarity) (info : Word) (bytes : List UInt8) :
    (slot.words polarity info bytes).length = 7 := by
  rw [Slot.length_words, last]
  rfl

theorem kind_further {slot : Slot} (further : slot.first = false) (polarity : Polarity) (info : Word)
    (bytes : List UInt8) {block : Block} {rest : List Word}
    (laid : block.toList = slot.words polarity info bytes ++ rest) : polarity.kind block.info = .cont := by
  obtain ⟨first, last⟩ := slot
  cases further
  have some_words : ∃ count, (Slot.mk false last).contentWords = count + 1 := by
    cases last <;> exact ⟨_, rfl⟩
  obtain ⟨count, counted⟩ := some_words
  simp only [Slot.words, Bool.false_eq_true, if_false, counted, Word.pack, List.modifyHead_cons,
    List.cons_append] at laid
  rw [Block.info_of_toList laid, Polarity.kind_tagCont]

/-- The blocks laid out for the end of a chain close it. -/
theorem closes_lay (polarity : Polarity) (info : Word) (count remaining : Nat) (inside : remaining + 1 ≤ count)
    (sum : Word) (bytes : List UInt8) :
    ∃ first rest, lay polarity info count (remaining + 1) sum bytes = first :: rest ∧
      closes polarity rest sum first = true ∧
      (remaining + 1 < count → polarity.kind first.info = .cont) ∧ (remaining + 1 = count → first.info = info) := by
  -- on the blocks still to be laid out; `sum` is the checksum of those before them
  induction remaining generalizing sum bytes with
  | zero =>
      have last : (Slot.of count (count - 1)).last = true := slot_last_eq_true (by omega)
      have seven := length_last last polarity info (bytes.take (Slot.of count (count - 1)).room)
      have laid := @Block.toList_sealed sum _ seven
      refine ⟨_, [], lay_last polarity info count (by omega) sum bytes, ?_, ?_, ?_⟩
      · exact Block.checks_sealed (length_last last _ _ _)
      · intro further
        exact kind_further (slot_first_eq_false (by omega)) polarity info _ laid
      · intro only
        have first : (Slot.of count (count - 1)).first = true := slot_first_eq_true (by omega)
        rw [Slot.words, if_pos first, List.cons_append] at laid
        rw [Slot.words, if_pos first]
        exact Block.info_of_toList laid
  | succ remaining ih =>
      have inner : (Slot.of count (count - (remaining + 2))).last = false := slot_last_eq_false (by omega)
      rw [lay_inner polarity info count remaining inside]
      obtain ⟨next, rest, laid, closed, further, -⟩ := ih (by omega)
        (Checksum.crc32 sum ((Slot.of count (count - (remaining + 2))).words polarity info
          (bytes.take (Slot.of count (count - (remaining + 2))).room)))
        (bytes.drop (Slot.of count (count - (remaining + 2))).room)
      refine ⟨Block.ofList _, next :: rest, by simp only [laid]; rfl, ?_, ?_, ?_⟩
      · rw [closes, toList_inner inner, closed, further (by omega)]
        rfl
      · intro later
        have first : (Slot.of count (count - (remaining + 2))).first = false := slot_first_eq_false (by omega)
        have laid := toList_inner inner polarity info (bytes.take (Slot.of count (count - (remaining + 2))).room)
        exact kind_further first polarity info _ (laid.trans (List.append_nil _).symm)
      · intro only
        have first : (Slot.of count (count - (remaining + 2))).first = true := slot_first_eq_true (by omega)
        have laid := toList_inner inner polarity info (bytes.take (Slot.of count (count - (remaining + 2))).room)
        rw [Slot.words, if_pos first] at laid
        rw [Slot.words, if_pos first]
        exact Block.info_of_toList laid

theorem closes_cont {polarity : Polarity} {rest : List Block} {sum : Word} {first : Block}
    (closed : closes polarity rest sum first = true) : ∀ block ∈ rest, polarity.kind block.info = .cont := by
  induction rest generalizing sum first with
  | nil =>
      intro block member
      cases member
  | cons next rest ih =>
      rw [closes, Bool.and_eq_true, beq_iff_eq] at closed
      intro block member
      rcases List.mem_cons.mp member with rfl | later
      · exact closed.1
      · exact ih closed.2 block later

theorem one_le_blocksNeeded {size : Nat} (whole : 2 + (size - 25) / 32 < 4294967296) : 1 ≤ blocksNeeded size := by
  unfold blocksNeeded
  split <;> omega

theorem one_le_of_small {size : Nat} (fits : size ≤ maxFileSize) : 1 ≤ blocksNeeded size := by
  rw [maxFileSize] at fits
  exact one_le_blocksNeeded (by omega)

/-- A content of legal size needs sixteen blocks at most, and its chain has room for it. -/
theorem blocksNeeded_small {size : Nat} (fits : size ≤ maxFileSize) :
    blocksNeeded size = if size ≤ 24 then 1 else 2 + (size - 25) / 32 := by
  unfold blocksNeeded
  simp only [maxFileSize] at fits
  split <;> omega

theorem sound_encode (polarity : Polarity) (info : Word) (id : FileId) (content : List UInt8)
    (fits : content.length ≤ maxFileSize) :
    sound polarity (headOf id content) (encode polarity info content) = true := by
  have some_blocks := one_le_of_small fits
  obtain ⟨first, rest, laid, closed, -, -⟩ := closes_lay polarity info (blocksNeeded content.length)
    (blocksNeeded content.length - 1) (by omega) 0 content
  rw [Nat.sub_add_cancel some_blocks] at laid
  have length := length_encode polarity info content
  rw [encode, laid, List.length_cons] at length
  rw [encode, laid, sound, closed, length, headOf_size fits]
  simp [fits]

theorem encode_cons (polarity : Polarity) (info : Word) {content : List UInt8}
    (some_blocks : 1 ≤ blocksNeeded content.length) :
    ∃ first rest, encode polarity info content = first :: rest ∧ first.info = info ∧
      ∀ block ∈ rest, polarity.kind block.info = .cont := by
  obtain ⟨first, rest, laid, closed, -, only⟩ := closes_lay polarity info (blocksNeeded content.length)
    (blocksNeeded content.length - 1) (by omega) 0 content
  rw [Nat.sub_add_cancel some_blocks] at laid only
  exact ⟨first, rest, laid, only rfl, closes_cont closed⟩

/-- Bit `further` of the restore bits is the lowest one of the first byte of that further block. -/
theorem getLsbD_restoreBits (content : List UInt8) {further : Nat} (inside : further < 15) :
    (restoreBits content).getLsbD further = ((content[28 + 32 * further]?.getD 0).toNat % 2 == 1) := by
  rw [restoreBits, BitVec.getLsbD_setWidth, BitVec.getLsbD_ofBoolListLE]
  simp [List.getD_eq_getElem?_getD, inside]

theorem take_unpack_pack (count : Nat) (bytes rest : List UInt8)
    (later : rest.take (bytes.length - 4 * count) = bytes.drop (4 * count)) :
    (Word.unpack (Word.pack count (bytes.take (4 * count))) ++ rest).take bytes.length = bytes := by
  have filled := Word.unpack_pack count (bytes.take (4 * count)) (by rw [List.length_take]; omega)
  have length : (Word.unpack (Word.pack count (bytes.take (4 * count)))).length = 4 * count := by
    rw [Word.length_unpack, Word.length_pack]
  by_cases short : bytes.length ≤ 4 * count
  · rw [List.take_of_length_le short] at filled length ⊢
    rw [List.take_append_of_le_length (by omega), filled]
  · rw [List.length_take, Nat.min_eq_left (by omega), List.take_of_length_le (by omega)] at filled
    rw [List.take_append, length, later, List.take_of_length_le (by omega), filled, List.take_append_drop]

theorem room_eq (slot : Slot) : slot.room = 4 * slot.contentWords := rfl

/-- The blocks laid out for the end of a chain hold what was laid out. -/
theorem gather_lay (polarity : Polarity) (info : Word) (head : Start) (count remaining : Nat)
    (inside : remaining + 1 < count) (sum : Word) (bytes : List UInt8) (fits : bytes.length ≤ 32 * remaining + 28)
    (restored : ∀ further ≤ remaining, head.restore.getLsbD (count - (remaining + 1) - 1 + further) =
      ((bytes[32 * further]?.getD 0).toNat % 2 == 1)) :
    (gather head count (count - (remaining + 1)) (lay polarity info count (remaining + 1) sum bytes)).take
      bytes.length = bytes := by
  -- on the blocks behind this one, of which each holds 32 bytes but the last, which holds 28
  induction remaining generalizing sum bytes with
  | zero =>
      have last : (Slot.of count (count - 1)).last = true := slot_last_eq_true (by omega)
      have further : (Slot.of count (count - 1)).first = false := slot_first_eq_false (by omega)
      have words : (Slot.of count (count - 1)).contentWords = 7 := by
        simp [Slot.contentWords, last, further]
      have displaced := restored 0 (Nat.le_refl 0)
      rw [lay_last polarity info count (by omega), gather, gather, Nat.zero_add,
        Slot.content_words _ polarity info (bytes.take (Slot.of count (count - 1)).room) _ _ _
          (Block.toList_sealed (length_last last _ _ _)), room_eq, words]
      · apply take_unpack_pack
        rw [List.take_nil, List.drop_of_length_le (by omega)]
      · intro _
        rw [room_eq, words, List.getElem?_take_of_lt (by omega)]
        simpa using displaced
  | succ remaining ih =>
      have inner : (Slot.of count (count - (remaining + 2))).last = false := slot_last_eq_false (by omega)
      have further : (Slot.of count (count - (remaining + 2))).first = false := slot_first_eq_false (by omega)
      have words : (Slot.of count (count - (remaining + 2))).contentWords = 8 := by
        simp [Slot.contentWords, inner, further]
      have displaced := restored 0 (by omega)
      have next := ih (by omega) (Checksum.crc32 sum ((Slot.of count (count - (remaining + 2))).words polarity info
          (bytes.take (Slot.of count (count - (remaining + 2))).room))) (bytes.drop 32)
        (by rw [List.length_drop]; omega) (by
          intro position small
          have restore := restored (position + 1) (by omega)
          rw [show count - (remaining + 1) - 1 + position = count - (remaining + 1 + 1) - 1 + (position + 1) by omega,
            restore, List.getElem?_drop, show 32 + 32 * position = 32 * (position + 1) by omega])
      rw [lay_inner polarity info count remaining (by omega)]
      simp only [gather]
      rw [Slot.content_words _ polarity info (bytes.take (Slot.of count (count - (remaining + 2))).room) _ _ []
          (by rw [List.append_nil, toList_inner inner]), room_eq, words,
        show count - (remaining + 1 + 1) + 1 = count - (remaining + 1) by omega]
      · apply take_unpack_pack
        rw [room_eq, words, List.length_drop] at next
        exact next
      · intro _
        rw [room_eq, words, List.getElem?_take_of_lt (by omega)]
        simpa using displaced

/-- A chain that was laid out holds the content that was laid out. -/
theorem data_encode (polarity : Polarity) (info : Word) (id : FileId) (content : List UInt8)
    (fits : content.length ≤ maxFileSize) :
    data (headOf id content) (encode polarity info content) = content := by
  have small : content.length ≤ 504 := fits
  have count := blocksNeeded_small fits
  rw [data, headOf_size fits, encode]
  -- a chain of one block has both the info word and the checksum in it
  by_cases short : content.length ≤ 24
  · rw [if_pos short] at count
    have last : (Slot.of 1 0).last = true := rfl
    rw [count, lay_last polarity info 1 (by omega), gather, gather,
      Slot.content_words _ polarity info (content.take (Slot.of 1 0).room) _ _ _
        (Block.toList_sealed (length_last last _ _ _)) (fun further => absurd further (by decide)),
      room_eq, show (Slot.of 1 0).contentWords = 6 from rfl]
    apply take_unpack_pack
    rw [List.take_nil, List.drop_of_length_le (by omega)]
  · rw [if_neg short] at count
    obtain ⟨remaining, more⟩ : ∃ remaining, blocksNeeded content.length = remaining + 2 :=
      ⟨(content.length - 25) / 32, by omega⟩
    rw [more] at count ⊢
    have inner : (Slot.of (remaining + 2) 0).last = false := slot_last_eq_false (by omega)
    have words : (Slot.of (remaining + 2) 0).contentWords = 7 := by
      simp [Slot.contentWords, inner, slot_first]
    have next := gather_lay polarity info (headOf id content) (remaining + 2) remaining (by omega)
      (Checksum.crc32 0 ((Slot.of (remaining + 2) 0).words polarity info
        (content.take (Slot.of (remaining + 2) 0).room))) (content.drop 28) (by rw [List.length_drop]; omega) (by
        intro further inside
        rw [show remaining + 2 - (remaining + 1) - 1 + further = further by omega, headOf,
          getLsbD_restoreBits content (by omega), List.getElem?_drop])
    rw [lay_inner polarity info (remaining + 2) remaining (by omega)]
    simp only [Nat.sub_self, gather, Nat.zero_add]
    rw [Slot.content_words _ polarity info (content.take (Slot.of (remaining + 2) 0).room) _ _ []
        (by rw [List.append_nil, toList_inner inner]) (fun further => absurd further (by rw [slot_first]; decide)),
      room_eq, words]
    apply take_unpack_pack
    rw [room_eq, words, List.length_drop, show remaining + 2 - (remaining + 1) = 1 by omega] at next
    exact next

theorem length_content (slot : Slot) (displaced : Bool) (block : Block) :
    (slot.content displaced block).length = 4 * slot.contentWords := by
  obtain ⟨first, last⟩ := slot
  cases first <;> cases last <;> simp [Slot.content, Slot.contentWords]

theorem length_gather (head : Start) (count index : Nat) (further : 0 < index) (blocks : List Block)
    (whole : index + blocks.length = count) (more : blocks ≠ []) :
    (gather head count index blocks).length = 32 * blocks.length - 4 := by
  induction blocks generalizing index with
  | nil => exact absurd rfl more
  | cons block rest ih =>
      simp only [List.length_cons] at whole
      have first : (Slot.of count index).first = false := slot_first_eq_false (by omega)
      rw [gather, List.length_append, length_content, Slot.contentWords, first, slot_last]
      by_cases last : rest = []
      · subst last
        simp only [List.length_nil] at whole
        rw [beq_iff_eq.mpr whole]
        rfl
      · have some_blocks := List.length_pos_iff.mpr last
        rw [beq_false_of_ne (by omega), ih (index + 1) (by omega) (by omega) last]
        simp only [Bool.toNat_false, List.length_cons]
        omega

theorem length_data {polarity : Polarity} {head : Start} {blocks : List Block}
    (passed : sound polarity head blocks = true) : (data head blocks).length = head.size.val := by
  cases blocks with
  | nil => cases passed
  | cons first rest =>
      simp only [sound, Bool.and_eq_true, decide_eq_true_eq, beq_iff_eq] at passed
      obtain ⟨⟨fits, count⟩, -⟩ := passed
      have needed := blocksNeeded_small fits
      rw [data, List.length_take, gather, List.length_append, length_content, Slot.contentWords, slot_first, slot_last]
      apply Nat.min_eq_left
      by_cases single : rest = []
      · subst single
        simp only [List.length_nil] at count
        rw [← count]
        rw [← count] at needed
        split at needed
        · rename_i small
          simpa [gather] using small
        · omega
      · have some_blocks := List.length_pos_iff.mpr single
        have inner : (0 + 1 == blocksNeeded head.size.val) = false := beq_false_of_ne (by omega)
        rw [length_gather head _ 1 (by omega) rest (by omega) single, inner, beq_self_eq_true]
        simp only [Bool.toNat_true, Bool.toNat_false]
        split at needed <;> omega

end Chain

end TwinLog
