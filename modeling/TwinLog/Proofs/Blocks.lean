import Mathlib.Data.List.GetD
import TwinLog.Block

set_option autoImplicit false

namespace TwinLog

namespace Block

def blank (polarity : Polarity) : Block :=
  ⟨Vector.replicate 8 polarity.erased⟩

def overlay (block : Block) (words : List Word) : Block :=
  ofList (words ++ block.toList.drop words.length)

theorem getD_toList_ofList (words : List Word) (position : Nat) (inside : position < 8) :
    (ofList words).toList.getD position 0 = words.getD position 0 := by
  simp [ofList, toList, List.getD_eq_getElem?_getD, inside]

theorem ext_getD {first second : Block}
    (same : ∀ position < 8, first.toList.getD position 0 = second.toList.getD position 0) : first = second := by
  obtain ⟨first⟩ := first
  obtain ⟨second⟩ := second
  congr 1
  apply Vector.ext
  intro position inside
  simpa [toList, List.getD_eq_getElem?_getD, inside] using same position inside

@[simp] theorem getD_blank (polarity : Polarity) (position : Nat) (inside : position < 8) :
    (blank polarity).toList.getD position 0 = polarity.erased := by
  simp only [blank, toList, Vector.toList_replicate, List.getD_eq_getElem?_getD, List.getElem?_replicate, inside,
    ↓reduceIte, Option.getD_some]

/-- Whether the words of `after` can be programmed over those of `before`. -/
def Takes (polarity : Polarity) (before after : Block) : Prop :=
  ∀ position < 8, polarity.canProgram (before.toList.getD position 0) (after.toList.getD position 0) = true

theorem takes_of_blank {polarity : Polarity} {before : Block} (erased : before = blank polarity) (after : Block) :
    Takes polarity before after := by
  intro position inside
  rw [erased, getD_blank _ _ inside]
  exact polarity.canProgram_erased _

theorem isErased_iff {block : Block} {polarity : Polarity} :
    block.isErased polarity = true ↔ block = blank polarity := by
  simp only [isErased, List.all_eq_true, beq_iff_eq]
  constructor
  · intro all
    apply ext_getD
    intro position inside
    rw [getD_blank _ _ inside, List.getD_eq_getElem _ _ (by rw [length_toList]; exact inside)]
    exact all _ (List.getElem_mem _)
  · rintro rfl word member
    simpa [blank, toList] using member

@[simp] theorem overlay_nil (block : Block) : block.overlay [] = block := by
  simp only [overlay, List.nil_append, List.length_nil, List.drop_zero, ofList_toList]

@[simp] theorem overlay_toList (before block : Block) : before.overlay block.toList = block := by
  rw [overlay, length_toList, List.drop_of_length_le (Nat.le_of_eq (length_toList before)), List.append_nil,
    ofList_toList]

theorem getD_overlay (block : Block) (words : List Word) (position : Nat) (inside : position < 8) :
    (block.overlay words).toList.getD position 0 =
      if position < words.length then words.getD position 0 else block.toList.getD position 0 := by
  rw [overlay, getD_toList_ofList _ _ inside]
  split
  · rename_i early
    rw [List.getD_append _ _ _ _ early]
  · rename_i late
    rw [List.getD_append_right _ _ _ _ (by omega)]
    simp only [List.getD_eq_getElem?_getD, List.getElem?_drop]
    congr 3
    omega

theorem overlay_overlay (block : Block) {first second : List Word} (same : first.length = second.length) :
    (block.overlay first).overlay second = block.overlay second := by
  apply ext_getD
  intro position inside
  rw [getD_overlay _ _ _ inside, getD_overlay _ _ _ inside, getD_overlay _ _ _ inside, same]
  split <;> rfl

@[simp] theorem info_overlay (block : Block) (word : Word) (rest : List Word) :
    (block.overlay (word :: rest)).info = word := by
  simp [overlay, info, ofList]

theorem info_eq (block : Block) : block.info = block.toList.getD 0 0 := by
  simp [info, toList, List.getD_eq_getElem?_getD]

theorem info_of_toList {block : Block} {word : Word} {rest : List Word} (first : block.toList = word :: rest) :
    block.info = word := by
  rw [info_eq, first, List.getD_cons_zero]

end Block

end TwinLog
