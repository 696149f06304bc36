import TwinLog.Proofs.Contents

set_option autoImplicit false

namespace TwinLog

namespace Partition

/-- Whether a block ends at or below the top of the address space. -/
def EndsInSpace (partition : Partition) (log : Log) (index : Nat) : Prop :=
  (partition.geometry.base log).toNat + Block.byteSize * (index + 1) ≤ UInt32.size

/-- Whether an address, as it is computed, is one of the bytes of a block. -/
def Covers (partition : Partition) (log : Log) (index : Nat) (byte : Address) : Prop :=
  ∃ start, partition.address log index = .ok start ∧
    ∃ offset < Block.byteSize, byte = start + UInt32.ofNat offset

/-- The addresses of a block are computed without overflow and are those of bytes of its log. -/
structure Placed (partition : Partition) (log : Log) (index : Nat) (start : Address) : Prop where
  number : start.toNat = (partition.geometry.base log).toNat + Block.byteSize * index
  inside : ∀ byte, partition.Covers log index byte →
    (partition.geometry.base log).toNat ≤ byte.toNat ∧
      byte.toNat < (partition.geometry.base log).toNat + partition.geometry.size.toNat

/-- Every block has an aligned address inside of its log, and no two blocks share a byte. -/
structure SoundAddresses (partition : Partition) : Prop where
  placed : ∀ log index, index < partition.blocks →
    ∃ start, partition.address log index = .ok start ∧ start.toNat % 4 = 0 ∧ partition.Placed log index start
  apart : ∀ log index other position, (log, index) ≠ (other, position) →
    ∀ byte, ¬ (partition.Covers log index byte ∧ partition.Covers other position byte)

variable {partition : Partition} {pageSize : Word} {log other : Log} {index position : Nat} {start byte : Address}

theorem address_located (located : partition.address log index = .ok start) :
    index < partition.blocks ∧ start = partition.geometry.base log + UInt32.ofNat (Block.byteSize * index) := by
  rw [address] at located
  split at located
  · cases located
    exact ⟨‹_›, rfl⟩
  · cases located

/-- Addresses are computed modulo the size of the address space. -/
theorem address_toNat (located : partition.address log index = .ok start) :
    start.toNat = ((partition.geometry.base log).toNat + Block.byteSize * index) % UInt32.size := by
  rw [(address_located located).2, UInt32.toNat_add, UInt32.toNat_ofNat', Nat.add_mod_mod]

theorem Covers.toNat (covers : partition.Covers log index byte) :
    index < partition.blocks ∧ ∃ offset < Block.byteSize,
      byte.toNat = ((partition.geometry.base log).toNat + Block.byteSize * index + offset) % UInt32.size := by
  obtain ⟨start, located, offset, small, rfl⟩ := covers
  refine ⟨(address_located located).1, offset, small, ?_⟩
  rw [UInt32.toNat_add, UInt32.toNat_ofNat', Nat.add_mod_mod, address_toNat located]
  simp only [UInt32.size, Nat.reducePow, Nat.mod_add_mod]

/-- The size of the address space is a multiple of four, so overflow does not change how a block is aligned. -/
theorem aligned_iff (located : partition.address log index = .ok start) :
    start.toNat % 4 = 0 ↔ (partition.geometry.base log).toNat % 4 = 0 := by
  rw [address_toNat located, Block.byteSize, UInt32.size]
  omega

theorem aligned_page (accepted : partition.geometry.check pageSize = .ok ()) (words : pageSize.toNat % 4 = 0)
    (log : Log) : (partition.geometry.base log).toNat % 4 = 0 := by
  have page := Nat.dvd_of_mod_eq_zero ((Geometry.check_ok accepted).basePage log)
  exact Nat.mod_eq_zero_of_dvd (Nat.dvd_trans (Nat.dvd_of_mod_eq_zero words) page)

theorem placed (accepted : partition.geometry.check pageSize = .ok ())
    (located : partition.address log index = .ok start) (inSpace : partition.EndsInSpace log index) :
    partition.Placed log index start := by
  have size : partition.geometry.size.toNat = 32 * partition.blocks := (Geometry.check_ok accepted).size
  have top : (partition.geometry.base log).toNat + 32 * (index + 1) ≤ 4294967296 := inSpace
  constructor
  · rw [address_toNat located, Block.byteSize, UInt32.size]
    omega
  · intro byte covers
    obtain ⟨bound, offset, small, number⟩ := covers.toNat
    rw [Block.byteSize] at small
    rw [Block.byteSize, UInt32.size] at number
    omega

/-- The blocks of a log lie apart also where they overflow, as a log is smaller than the address space. -/
theorem Covers.same_index (accepted : partition.geometry.check pageSize = .ok ())
    (covers : partition.Covers log index byte) (covers' : partition.Covers log position byte) : index = position := by
  have size : partition.geometry.size.toNat = 32 * partition.blocks := (Geometry.check_ok accepted).size
  have space := partition.geometry.size.toNat_lt
  obtain ⟨bound, offset, small, number⟩ := covers.toNat
  obtain ⟨bound', offset', small', number'⟩ := covers'.toNat
  rw [Block.byteSize] at small small'
  rw [Block.byteSize, UInt32.size] at number number'
  omega

theorem Covers.same_log (accepted : partition.geometry.check pageSize = .ok ())
    (inSpace : partition.EndsInSpace log index) (inSpace' : partition.EndsInSpace other position)
    (covers : partition.Covers log index byte) (covers' : partition.Covers other position byte) : log = other := by
  have apart := (Geometry.check_ok accepted).apart
  obtain ⟨start, located, -⟩ := id covers
  obtain ⟨start', located', -⟩ := id covers'
  have inside := (placed accepted located inSpace).inside byte covers
  have inside' := (placed accepted located' inSpace').inside byte covers'
  cases log <;> cases other <;> simp only [Geometry.base] at inside inside' <;> first | rfl | omega

/-- The last byte of a log that runs past the top of the address space is the one before some lower address. -/
theorem SoundAddresses.ends (sound : partition.SoundAddresses)
    (accepted : partition.geometry.check pageSize = .ok ()) (log : Log) :
    (partition.geometry.base log).toNat + partition.geometry.size.toNat ≤ UInt32.size := by
  have size : partition.geometry.size.toNat = 32 * partition.blocks := (Geometry.check_ok accepted).size
  have two : 2 ≤ partition.blocks := (Geometry.check_ok accepted).two
  have space := partition.geometry.size.toNat_lt
  obtain ⟨start, located, -, placed⟩ := sound.placed log (partition.blocks - 1) (by omega)
  have last : partition.Covers log (partition.blocks - 1) (start + 31) := ⟨start, located, 31, by decide, rfl⟩
  have inside := placed.inside _ last
  have number := placed.number
  have low := start.toNat_lt
  rw [Block.byteSize] at number
  rw [UInt32.toNat_add, show (31 : UInt32).toNat = 31 from rfl] at inside
  rw [UInt32.size]
  omega

/-- The check of a layout compares the ends of the logs as numbers of any size and leaves out how their bases are
aligned to the blocks, whereas an address is a word. A layout that it accepts has sound addresses exactly if both logs
are aligned and end within the address space. In any case a block is aligned if its log is, the blocks of one log share
no bytes, and the blocks that end within the address space lie inside of their logs and share none with other blocks
that do. -/
theorem accepted_addresses (accepted : partition.geometry.check pageSize = .ok ()) :
    (partition.SoundAddresses ↔ ∀ log, (partition.geometry.base log).toNat % 4 = 0 ∧
      (partition.geometry.base log).toNat + partition.geometry.size.toNat ≤ UInt32.size) ∧
    (∀ log index, index < partition.blocks → ∃ start, partition.address log index = .ok start ∧
      (start.toNat % 4 = 0 ↔ (partition.geometry.base log).toNat % 4 = 0) ∧
      (pageSize.toNat % 4 = 0 → start.toNat % 4 = 0) ∧
      (partition.EndsInSpace log index → partition.Placed log index start)) ∧
    (∀ log index position byte, index ≠ position →
      ¬ (partition.Covers log index byte ∧ partition.Covers log position byte)) ∧
    ∀ log index other position, partition.EndsInSpace log index → partition.EndsInSpace other position →
      (log, index) ≠ (other, position) →
        ∀ byte, ¬ (partition.Covers log index byte ∧ partition.Covers other position byte) := by
  have distinct : ∀ log index other position, partition.EndsInSpace log index → partition.EndsInSpace other position →
      (log, index) ≠ (other, position) →
        ∀ byte, ¬ (partition.Covers log index byte ∧ partition.Covers other position byte) := by
    rintro log index other position inSpace inSpace' apart byte ⟨covers, covers'⟩
    have same := covers.same_log accepted inSpace inSpace' covers'
    subst same
    exact apart (by rw [covers.same_index accepted covers'])
  refine ⟨⟨?_, ?_⟩, ?_, ?_, distinct⟩
  · intro sound log
    have two : 2 ≤ partition.blocks := (Geometry.check_ok accepted).two
    obtain ⟨start, located, aligned, -⟩ := sound.placed log 0 (by omega)
    exact ⟨(aligned_iff located).mp aligned, sound.ends accepted log⟩
  · intro bases
    have size : partition.geometry.size.toNat = 32 * partition.blocks := (Geometry.check_ok accepted).size
    have inSpace : ∀ log index, index < partition.blocks → partition.EndsInSpace log index := by
      intro log index inside
      have ends := (bases log).2
      rw [EndsInSpace, Block.byteSize]
      omega
    constructor
    · intro log index inside
      exact ⟨_, if_pos inside, (aligned_iff (if_pos inside)).mpr (bases log).1,
        placed accepted (if_pos inside) (inSpace log index inside)⟩
    · rintro log index other position apart byte ⟨covers, covers'⟩
      exact distinct log index other position (inSpace log index covers.toNat.1)
        (inSpace other position covers'.toNat.1) apart byte ⟨covers, covers'⟩
  · intro log index inside
    have located : partition.address log index =
        .ok (partition.geometry.base log + UInt32.ofNat (Block.byteSize * index)) := if_pos inside
    exact ⟨_, located, aligned_iff located,
      fun words => (aligned_iff located).mpr (aligned_page accepted words log), placed accepted located⟩
  · rintro log index position byte different ⟨covers, covers'⟩
    exact different (covers.same_index accepted covers')

def topmost : Partition where
  polarity := .ones
  geometry := ⟨4294959104, 4294963200, 4096⟩

theorem accepted_addresses_topmost : topmost.geometry.check 4096 = .ok () ∧ topmost.SoundAddresses := by
  have accepted : topmost.geometry.check 4096 = .ok () := rfl
  refine ⟨accepted, (accepted_addresses accepted).1.mpr ?_⟩
  intro log
  cases log <;> decide

/-- The second block of a log that runs past the top of the address space is the first block of the other log, and pages
that are no whole words leave no block aligned. Both layouts are accepted. -/
theorem accepted_unsound :
    (let past : Partition := ⟨.ones, ⟨4294967264, 0, 64⟩⟩
     past.geometry.check 32 = .ok () ∧ past.address .a 1 = .ok 0 ∧ past.address .b 0 = .ok 0 ∧
      ¬ past.SoundAddresses) ∧
    (let halves : Partition := ⟨.ones, ⟨2, 66, 64⟩⟩
     halves.geometry.check 2 = .ok () ∧ halves.address .a 1 = .ok 34 ∧ ¬ halves.SoundAddresses) := by
  refine ⟨⟨rfl, rfl, rfl, ?_⟩, rfl, rfl, ?_⟩
  · intro sound
    exact sound.apart .a 1 .b 0 (by decide) 0 ⟨⟨0, rfl, 0, by decide, rfl⟩, ⟨0, rfl, 0, by decide, rfl⟩⟩
  · intro sound
    obtain ⟨start, located, aligned, -⟩ := sound.placed .a 1 (by decide)
    cases located
    exact absurd aligned (by decide)

end Partition

end TwinLog
