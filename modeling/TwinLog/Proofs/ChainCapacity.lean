import Mathlib.Algebra.GroupWithZero.Nat
import Mathlib.Order.Bounds.Basic
import TwinLog.Proofs.BlockCodec

set_option autoImplicit false

namespace TwinLog.Chain

/-- The number of content bytes that the blocks of a chain have room for, each of them in its place. -/
def capacity (count : Nat) : Nat :=
  ((List.range count).map fun index => (Slot.of count index).room).sum

theorem room_of (count index : Nat) :
    (Slot.of count index).room = 4 * (8 - (index == 0).toNat - (index + 1 == count).toNat) := rfl

theorem capacity_one : capacity 1 = 24 := rfl

/-- A first block, full blocks after it, and a last one. -/
theorem capacity_more (further : Nat) : capacity (further + 2) = 28 + 32 * further + 28 := by
  have first : (Slot.of (further + 2) 0).room = 28 := by
    have more : (0 + 1 == further + 2) = false := beq_false_of_ne (by omega)
    rw [room_of, more]
    rfl
  have last : (Slot.of (further + 2) (further + 1)).room = 28 := by
    have later : (further + 1 == 0) = false := rfl
    rw [room_of, later, beq_self_eq_true]
    rfl
  have inner : (List.range further).map (fun index => (Slot.of (further + 2) (index + 1)).room) =
      List.replicate further 32 := by
    rw [List.eq_replicate_iff]
    refine ⟨by rw [List.length_map, List.length_range], ?_⟩
    intro room member
    obtain ⟨index, early, rfl⟩ := List.mem_map.mp member
    rw [List.mem_range] at early
    have later : (index + 1 == 0) = false := rfl
    have more : (index + 1 + 1 == further + 2) = false := beq_false_of_ne (by omega)
    rw [room_of, later, more]
    rfl
  rw [capacity, List.range_succ, List.range_succ_eq_map, List.map_append, List.map_cons, List.map_map, first,
    List.map_singleton, last]
  change (28 :: (List.range further).map (fun index => (Slot.of (further + 2) (index + 1)).room) ++ [28]).sum = _
  rw [inner, List.sum_append_nat, List.sum_cons, List.sum_replicate_nat, List.sum_singleton]
  omega

theorem capacity_words {count : Nat} (some_blocks : 1 ≤ count) : capacity count + 8 = 32 * count := by
  obtain rfl | ⟨further, rfl⟩ : count = 1 ∨ ∃ further, count = further + 2 := by
    by_cases single : count = 1
    · exact .inl single
    · exact .inr ⟨count - 2, by omega⟩
  · rfl
  · rw [capacity_more]
    omega

/-- Reading a chain gathers as many bytes as its blocks have room for. -/
theorem length_gather_capacity (head : Start) (blocks : List Block) :
    (gather head blocks.length 0 blocks).length = capacity blocks.length := by
  have rooms (count index : Nat) (rest : List Block) : (gather head count index rest).length =
      ((List.range' index rest.length).map fun position => (Slot.of count position).room).sum := by
    induction rest generalizing index with
    | nil => rfl
    | cons block rest ih =>
        rw [gather, List.length_append, length_content, ih, List.length_cons, List.range'_succ, List.map_cons,
          List.sum_cons, room_eq]
  rw [rooms, capacity, List.range_eq_range']

/-- A chain has room for a content exactly if it has the blocks that the content needs. -/
theorem blocksNeeded_le_iff {size count : Nat} (whole : 2 + (size - 25) / 32 < 4294967296) (some_blocks : 1 ≤ count) :
    blocksNeeded size ≤ count ↔ size ≤ capacity count := by
  have words := capacity_words some_blocks
  unfold blocksNeeded
  split <;> omega

theorem blocksNeeded_mono {smaller size : Nat} (whole : 2 + (size - 25) / 32 < 4294967296) (less : smaller ≤ size) :
    blocksNeeded smaller ≤ blocksNeeded size := by
  have some_blocks := one_le_blocksNeeded whole
  have room := (blocksNeeded_le_iff whole some_blocks).mp (Nat.le_refl _)
  exact (blocksNeeded_le_iff (by omega) some_blocks).mpr (Nat.le_trans less room)

/-- The number of blocks of a chain is the least that is enough. One block holds 24 bytes, and a longer chain 28 in its
first, 32 in each inner and 28 in its last block; that is what reading such a chain delivers. For every size whose number
of blocks is a 32-bit number, this number is the least of the lengths of chains with room for so many bytes, and no
smaller content needs more blocks. -/
theorem blocksNeeded_isLeast {size : Nat} (whole : 2 + (size - 25) / 32 < 4294967296) :
    capacity 1 = 24 ∧ (∀ count, 2 ≤ count → capacity count = 28 + 32 * (count - 2) + 28) ∧
      (∀ head blocks, (gather head blocks.length 0 blocks).length = capacity blocks.length) ∧
      IsLeast { count | 1 ≤ count ∧ size ≤ capacity count } (blocksNeeded size) ∧
      ∀ smaller ≤ size, blocksNeeded smaller ≤ blocksNeeded size := by
  have some_blocks := one_le_blocksNeeded whole
  refine ⟨capacity_one, ?_, length_gather_capacity, ⟨⟨some_blocks, ?_⟩, ?_⟩, fun smaller less =>
    blocksNeeded_mono whole less⟩
  · intro count two
    obtain ⟨further, rfl⟩ := Nat.exists_eq_add_of_le' two
    rw [capacity_more, Nat.add_sub_cancel]
  · exact (blocksNeeded_le_iff whole some_blocks).mp (Nat.le_refl _)
  · rintro count ⟨more, room⟩
    exact (blocksNeeded_le_iff whole more).mpr room

/-- The largest content whose number of blocks is a 32-bit number fills its chain. -/
theorem blocksNeeded_isLeast_largest :
    2 + (137438953432 - 25) / 32 < 4294967296 ∧ capacity 4294967295 = 137438953432 ∧
      IsLeast { count | 1 ≤ count ∧ 137438953432 ≤ capacity count } 4294967295 := by
  have whole : 2 + (137438953432 - 25) / 32 < 4294967296 := by decide
  obtain ⟨-, more, -, least, -⟩ := blocksNeeded_isLeast whole
  have count : blocksNeeded 137438953432 = 4294967295 := rfl
  rw [count] at least
  exact ⟨whole, more 4294967295 (by decide), least⟩

end TwinLog.Chain
