import TwinLog.Info

set_option autoImplicit false

namespace TwinLog.Polarity

variable (polarity : Polarity)

/-- A word starts a chain exactly if it is the one that is made from what it declares. -/
theorem kind_eq_start_iff (word : Word) (start : Start) :
    polarity.kind word = .start start ↔ polarity.startWord start = word := by
  constructor
  · intro starts
    unfold kind at starts
    simp only at starts
    split at starts
    · cases starts
    · split at starts
      · cases starts
        have bound := word.toNat_lt
        -- the fields are digits of the word's number, and the restore bits are all that is left above the others
        apply UInt32.toNat_inj.mp
        simp only [startWord, UInt32.toNat_ofNat', Fin.val_ofNat, BitVec.toNat_ofNat]
        omega
      · cases starts
  · rintro rfl
    exact polarity.kind_startWord start

theorem startWord?_fields (start : Start) :
    polarity.startWord? start.id start.size.val start.restore.toNat = .ok (polarity.startWord start) := by
  have bound := start.size.isLt
  have whole : start.size.val % 4294967296 = start.size.val := by omega
  simp only [startWord?, whole, bound, dite_true, BitVec.ofNat_toNat, BitVec.setWidth_eq]

section Sizes

variable (id : FileId) (size restore : Nat)

theorem startWord?_accepted (small : size % 4294967296 ≤ 511) :
    polarity.startWord? id size restore =
      .ok (polarity.startWord ⟨id, Fin.ofNat 512 size, BitVec.ofNat 15 restore⟩) := by
  have inside : size % 4294967296 < 512 := by omega
  have field : (⟨size % 4294967296, inside⟩ : Fin 512) = Fin.ofNat 512 size := by
    apply Fin.ext
    simp only [Fin.val_ofNat]
    omega
  simp only [startWord?, inside, dite_true, field]

/-- A size is refused for the number that its lowest thirty-two bits stand for. -/
theorem startWord?_refused_iff :
    polarity.startWord? id size restore = .error (.sizeOutOfRange size) ↔ 511 < size % 4294967296 := by
  unfold startWord?
  split
  · simp only [reduceCtorEq, false_iff]
    omega
  · simp only [true_iff]
    omega

/-- Whether these values make the word of a chain's first block that declares the id, the size `held`, and the lowest
fifteen of the restore bits. -/
def Declares (held : Nat) : Prop :=
  ∃ word start, polarity.startWord? id size restore = .ok word ∧ polarity.kind word = .start start ∧
    start.id = id ∧ start.size.val = held ∧ start.restore.toNat = restore % 32768

/-- The size that is declared is the number that the lowest thirty-two bits stand for. -/
theorem declares_iff (held : Nat) :
    polarity.Declares id size restore held ↔ held ≤ 511 ∧ size % 4294967296 = held := by
  unfold Declares
  by_cases small : size % 4294967296 ≤ 511
  · have accepted := polarity.startWord?_accepted id size restore small
    constructor
    · rintro ⟨word, start, made, starts, -, rfl, -⟩
      rw [accepted, Except.ok.injEq, ← kind_eq_start_iff, starts, Kind.start.injEq] at made
      simp only [made, Fin.val_ofNat]
      omega
    · rintro ⟨inside, rfl⟩
      refine ⟨_, _, accepted, polarity.kind_startWord _, rfl, ?_, BitVec.toNat_ofNat _ _⟩
      simp only [Fin.val_ofNat]
      omega
  · have refused := (polarity.startWord?_refused_iff id size restore).mpr (by omega)
    simp only [refused, reduceCtorEq, false_and, exists_false, false_iff]
    omega

/-- Whether no field is lost: a size is refused exactly if it exceeds what its field can hold, and every other size makes a
word that declares it. -/
structure KeepsFields : Prop where
  refused : polarity.startWord? id size restore = .error (.sizeOutOfRange size) ↔ 511 < size
  declared : polarity.Declares id size restore size ↔ size ≤ 511

/-- The fields are kept unless the lowest thirty-two bits of a larger size have a place in the field. -/
theorem keepsFields_iff :
    polarity.KeepsFields id size restore ↔ size < 4294967296 ∨ 511 < size % 4294967296 := by
  have refused := polarity.startWord?_refused_iff id size restore
  have declared := polarity.declares_iff id size restore size
  constructor
  · intro keeps
    have large := refused.symm.trans keeps.refused
    omega
  · intro whole
    refine ⟨?_, ?_⟩
    · rw [refused]
      omega
    · rw [declared]
      omega

end Sizes

/-- The word of a chain's first block keeps what it is made from, unless the size needs more than thirty-two bits and the
lowest thirty-two of them stand for a number of at most 511. It keeps it if a size above 511 is refused, and if every other
size makes a word that reads back as that of a chain's first block with the same id, the same size, and the lowest fifteen
of the restore bits. Where this fails, it fails without notice: a word is made, and it declares another size. In the other
direction nothing is lost: a word reads as that of a chain's first block exactly if what it declares makes this word. -/
theorem startWord_keepsFields :
    (∀ id size restore, polarity.KeepsFields id size restore ↔ size < 4294967296 ∨ 511 < size % 4294967296) ∧
      (∀ id size restore, ¬ polarity.KeepsFields id size restore ↔
        ∃ held, held ≠ size ∧ polarity.Declares id size restore held) ∧
      ∀ word start, polarity.kind word = .start start ↔
        polarity.startWord? start.id start.size.val start.restore.toNat = .ok word := by
  refine ⟨polarity.keepsFields_iff, ?_, ?_⟩
  · intro id size restore
    simp only [keepsFields_iff, declares_iff]
    constructor
    · intro lost
      exact ⟨size % 4294967296, by omega, by omega, rfl⟩
    · rintro ⟨held, other, small, rfl⟩
      omega
  · intro word start
    rw [startWord?_fields, Except.ok.injEq, kind_eq_start_iff]

/-- The least size of more than thirty-two bits is taken for an empty content. -/
theorem startWord_loses_size :
    Polarity.ones.startWord? 7 4294967296 5 = .ok 655389 ∧ Polarity.ones.kind 655389 = .start ⟨7, 0, 5⟩ ∧
      ¬ Polarity.ones.KeepsFields 7 4294967296 5 := by
  have made : Polarity.ones.startWord? 7 4294967296 5 = .ok 655389 := rfl
  refine ⟨made, by decide, ?_⟩
  intro keeps
  have refused := keeps.refused.mpr (by decide)
  rw [made] at refused
  cases refused

end TwinLog.Polarity
