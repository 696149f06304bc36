set_option autoImplicit false

namespace TwinLog

/-- A finite map whose keys are in the order of their places, which are compared as lists are. Two maps with the same
bindings have the same entries, so a map has one written form. -/
structure Dictionary {κ : Type} (place : κ → List Nat) (α : Type) where
  entries : List (κ × α)
  ordered : entries.Pairwise fun before after => place before.1 < place after.1

abbrev Table (bits : Nat) (α : Type) : Type :=
  Dictionary (fun key : BitVec bits => [key.toNat]) α

namespace Dictionary

variable {κ : Type} {place : κ → List Nat} {α : Type}

def insertInto (place : κ → List Nat) (key : κ) (value : α) : List (κ × α) → List (κ × α)
  | [] => [(key, value)]
  | entry :: rest =>
      if place key < place entry.1 then
        (key, value) :: entry :: rest
      else if place key = place entry.1 then
        (key, value) :: rest
      else
        entry :: insertInto place key value rest

theorem mem_insertInto {key : κ} {value : α} {entries : List (κ × α)} {entry : κ × α}
    (member : entry ∈ insertInto place key value entries) : entry = (key, value) ∨ entry ∈ entries := by
  induction entries with
  | nil => exact Or.inl (List.mem_singleton.mp member)
  | cons first rest ih =>
      simp only [insertInto] at member
      split at member
      · simpa using member
      · split at member
        · rcases List.mem_cons.mp member with same | inside
          · exact Or.inl same
          · exact Or.inr (List.mem_cons_of_mem _ inside)
        · rcases List.mem_cons.mp member with same | inside
          · exact Or.inr (by simp [same])
          · rcases ih inside with same | inside
            · exact Or.inl same
            · exact Or.inr (List.mem_cons_of_mem _ inside)

theorem lt_of_not_lt_of_ne {one other : List Nat} (notLess : ¬ one < other) (different : one ≠ other) :
    other < one := by
  by_cases less : other < one
  · exact less
  · exact absurd (List.le_antisymm (List.not_lt.mp less) (List.not_lt.mp notLess)) different

theorem ordered_insertInto (key : κ) (value : α) {entries : List (κ × α)}
    (ordered : entries.Pairwise fun before after => place before.1 < place after.1) :
    (insertInto place key value entries).Pairwise fun before after => place before.1 < place after.1 := by
  induction entries with
  | nil => simp [insertInto]
  | cons first rest ih =>
      obtain ⟨below, tail⟩ := List.pairwise_cons.mp ordered
      simp only [insertInto]
      split
      · rename_i less
        refine List.pairwise_cons.mpr ⟨?_, ordered⟩
        intro entry member
        rcases List.mem_cons.mp member with same | inside
        · simpa [same] using less
        · exact List.lt_trans less (below entry inside)
      · rename_i notLess
        split
        · rename_i same
          refine List.pairwise_cons.mpr ⟨?_, tail⟩
          intro entry member
          simpa [same] using below entry member
        · rename_i different
          refine List.pairwise_cons.mpr ⟨?_, ih tail⟩
          intro entry member
          rcases mem_insertInto member with same | inside
          · subst same
            exact lt_of_not_lt_of_ne notLess different
          · exact below entry inside

def empty : Dictionary place α :=
  ⟨[], List.Pairwise.nil⟩

def insert (table : Dictionary place α) (key : κ) (value : α) : Dictionary place α :=
  ⟨insertInto place key value table.entries, ordered_insertInto key value table.ordered⟩

/-- The map of these bindings; for a key that is bound twice the later one counts. -/
def ofList (bindings : List (κ × α)) : Dictionary place α :=
  bindings.foldl (fun table binding => table.insert binding.1 binding.2) empty

end Dictionary

def Table.ofList {bits : Nat} {α : Type} (bindings : List (BitVec bits × α)) : Table bits α :=
  Dictionary.ofList bindings

end TwinLog
