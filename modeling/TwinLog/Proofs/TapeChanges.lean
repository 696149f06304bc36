import TwinLog.Proofs.Tape

set_option autoImplicit false

namespace TwinLog.Tape

variable {tape tape' : Tape} {scars scars' : List Nat} {records : List Record}

theorem recordAt_same (polarity : tape'.polarity = tape.polarity) {index : Nat}
    (first : tape'.blocks index = tape.blocks index)
    (chains : ∀ head, tape.polarity.kind (tape.blocks index).info = .start head →
      tape.chainAt? index = some ⟨index, head⟩ ∧ tape'.chainAt? index = some ⟨index, head⟩ ∧
        (Chain.mk index head).content tape'.blocks = (Chain.mk index head).content tape.blocks) :
    tape'.recordAt index = tape.recordAt index := by
  cases kind : tape.polarity.kind (tape.blocks index).info with
  | start head =>
      obtain ⟨before, after, content⟩ := chains head kind
      rw [recordAt_chain before, recordAt_chain after, content]
  | entry id =>
      have before : tape.chainAt? index = none := chainAt?_none (by rw [kind]; intro head same; cases same)
      have after : tape'.chainAt? index = none :=
        chainAt?_none (by rw [polarity, first, kind]; intro head same; cases same)
      rw [recordAt, recordAt, polarity, first, before, after]
      rfl
  | cont =>
      rw [recordAt_cont kind, recordAt_cont (by rw [polarity, first, kind])]

/-- A tape that grows keeps its records, as long as no unsound chain starts in what is new. -/
theorem Keeps.extend (keeps : tape.Keeps scars records) (polarity : tape'.polarity = tape.polarity)
    (grown : tape.stop ≤ tape'.stop) (same : ∀ index < tape.stop, tape'.blocks index = tape.blocks index)
    (scarred : ∀ index, 1 ≤ index → index < tape.stop → (index ∈ scars' ↔ index ∈ scars))
    (below : ∀ index ∈ scars', index < tape'.stop)
    (started : ∀ index head, tape.stop ≤ index → index < tape'.stop → index ∉ scars' →
      tape.polarity.kind (tape'.blocks index).info = .start head → tape'.chainAt? index = some ⟨index, head⟩) :
    tape'.Keeps scars' (records ++ tape'.records scars' tape.stop) := by
  have positive := keeps.positive
  have kept (index : Nat) (head : Start) (late : 1 ≤ index) (inside : index < tape.stop) (clear : index ∉ scars)
      (kind : tape.polarity.kind (tape.blocks index).info = .start head) :
      tape.chainAt? index = some ⟨index, head⟩ ∧ tape'.chainAt? index = some ⟨index, head⟩ ∧
        (Chain.mk index head).content tape'.blocks = (Chain.mk index head).content tape.blocks := by
    have chained := keeps.started index head late inside clear kind
    obtain ⟨-, -, room, -⟩ := chainAt?_some.mp chained
    exact ⟨chained, chainAt?_congr polarity chained (by omega) (fun position _ before => same position (by omega))⟩
  refine ⟨by omega, below, ?_, ?_⟩
  · intro index head late inside clear kind
    rw [polarity] at kind
    by_cases old : index < tape.stop
    · rw [same index old] at kind
      exact (kept index head late old (fun scar => clear ((scarred index late old).mpr scar)) kind).2.1
    · exact started index head (by omega) inside clear kind
  · rw [records_split scars' positive grown]
    congr 1
    rw [← keeps.listed, Tape.records]
    apply List.filterMap_congr
    intro index member
    rw [List.mem_range'_1] at member
    have inside : index < tape.stop := by omega
    have scar := scarred index member.1 inside
    rw [visible, visible]
    by_cases clear : index ∈ scars
    · rw [if_pos clear, if_pos (scar.mpr clear)]
    · rw [if_neg clear, if_neg (fun listed => clear (scar.mp listed))]
      exact recordAt_same polarity (same index inside) (fun head kind => kept index head member.1 inside clear kind)

theorem Keeps.append_entry (keeps : tape.Keeps scars records) (polarity : tape'.polarity = tape.polarity)
    (grown : tape'.stop = tape.stop + 1) (same : ∀ index < tape.stop, tape'.blocks index = tape.blocks index)
    {id : FileId} {ufid : Ufid} (bound : (tape'.blocks tape.stop).binding? tape.polarity = some (id, ufid)) :
    tape'.Keeps scars (records ++ [.entry id ufid]) := by
  have clear : tape.stop ∉ scars := fun scar => Nat.lt_irrefl _ (keeps.below _ scar)
  have added : tape'.records scars tape.stop = [.entry id ufid] := by
    rw [records_step _ scars (by omega), visible, if_neg clear, recordAt_entry (by rw [polarity, bound]),
      records_done scars (by omega)]
    rfl
  rw [← added]
  refine keeps.extend polarity (by omega) same (fun _ _ _ => Iff.rfl) ?_ ?_
  · intro index scar
    have before := keeps.below index scar
    omega
  · intro index head late inside _ kind
    have last : index = tape.stop := by omega
    subst last
    rw [Block.kind_of_binding bound] at kind
    cases kind

theorem Keeps.append_chain (keeps : tape.Keeps scars records) (polarity : tape'.polarity = tape.polarity)
    {head : Start} (grown : tape'.stop = (Chain.mk tape.stop head).stop)
    (same : ∀ index < tape.stop, tape'.blocks index = tape.blocks index)
    (kind : tape.polarity.kind (tape'.blocks tape.stop).info = .start head)
    (passed : Chain.sound tape.polarity head ((Chain.mk tape.stop head).extent tape'.blocks) = true) :
    tape'.Keeps scars (records ++ [.content head.id ((Chain.mk tape.stop head).content tape'.blocks)]) := by
  have counted := (Chain.mk tape.stop head).one_le_count
  have longer : tape.stop < tape'.stop := by
    rw [grown]
    simp only [Chain.stop]
    omega
  have clear : tape.stop ∉ scars := fun scar => Nat.lt_irrefl _ (keeps.below _ scar)
  have chained : tape'.chainAt? tape.stop = some ⟨tape.stop, head⟩ :=
    chainAt?_some.mpr ⟨rfl, by rw [polarity, kind], Nat.le_of_eq grown.symm, by rw [polarity, passed]⟩
  have added : tape'.records scars tape.stop =
      [.content head.id ((Chain.mk tape.stop head).content tape'.blocks)] := by
    rw [records_step _ scars longer, visible, if_neg clear, recordAt_chain chained, records_skip scars chained,
      records_done scars (Nat.le_of_eq grown)]
    rfl
  rw [← added]
  refine keeps.extend polarity (by omega) same (fun _ _ _ => Iff.rfl) ?_ ?_
  · intro index scar
    have before := keeps.below index scar
    omega
  · intro index declared late inside _ started
    by_cases first : index = tape.stop
    · subst first
      rw [kind, Kind.start.injEq] at started
      rw [← started]
      exact chained
    · have further : tape.polarity.kind (tape'.blocks index).info = .cont :=
        Chain.sound_further passed (by simp only; omega) (by omega)
      rw [further] at started
      cases started

/-- Making the first block of a record void takes out that record and no other. -/
theorem Keeps.void (keeps : tape.Keeps scars records) {index : Nat} {record : Record} (late : 1 ≤ index)
    (inside : index < tape.stop) (clear : index ∉ scars) (found : tape.recordAt index = some record)
    (polarity : tape'.polarity = tape.polarity) (stop : tape'.stop = tape.stop)
    (same : ∀ position, position ≠ index → tape'.blocks position = tape.blocks position)
    (voided : tape.polarity.kind (tape'.blocks index).info = .cont) :
    ∃ before, records = before ++ record :: tape.records scars (index + 1) ∧
      tape'.Keeps scars (before ++ tape.records scars (index + 1)) := by
  have kept (position : Nat) (head : Start) (late : 1 ≤ position) (inside : position < tape.stop)
      (clear : position ∉ scars) (kind : tape.polarity.kind (tape.blocks position).info = .start head)
      (apart : position ≠ index) :
      tape.chainAt? position = some ⟨position, head⟩ ∧ tape'.chainAt? position = some ⟨position, head⟩ ∧
        (Chain.mk position head).content tape'.blocks = (Chain.mk position head).content tape.blocks := by
    have chained := keeps.started position head late inside clear kind
    obtain ⟨-, -, room, passed⟩ := chainAt?_some.mp chained
    refine ⟨chained, chainAt?_congr polarity chained (by omega) ?_⟩
    intro further from_start before
    -- the block that is made void is the first of its record, so it is inside of no other chain
    apply same
    rintro rfl
    exact kind_of_record found (Chain.sound_further passed (by simp only; omega) before)
  have shown (position : Nat) (late : 1 ≤ position) (inside : position < tape.stop) (apart : position ≠ index) :
      tape'.visible scars position = tape.visible scars position := by
    rw [visible, visible]
    split
    · rfl
    · rename_i clear
      exact recordAt_same polarity (same position apart)
        (fun head kind => kept position head late inside clear kind apart)
  have gone : tape'.visible scars index = none := by
    rw [visible, if_neg clear, recordAt_cont (by rw [polarity, voided])]
  have after : tape'.records scars (index + 1) = tape.records scars (index + 1) := by
    rw [Tape.records, Tape.records, stop]
    apply List.filterMap_congr
    intro position member
    rw [List.mem_range'_1] at member
    exact shown position (by omega) (by omega) (by omega)
  have before : (List.range' 1 (index - 1)).filterMap (tape'.visible scars) =
      (List.range' 1 (index - 1)).filterMap (tape.visible scars) := by
    apply List.filterMap_congr
    intro position member
    rw [List.mem_range'_1] at member
    exact shown position (by omega) (by omega) (by omega)
  have whole : records = (List.range' 1 (index - 1)).filterMap (tape.visible scars) ++
      record :: tape.records scars (index + 1) := by
    rw [← keeps.listed, records_split scars late (by omega), records_step _ scars inside, visible, if_neg clear, found]
    rfl
  have less : tape'.records scars 1 = (List.range' 1 (index - 1)).filterMap (tape.visible scars) ++
      tape.records scars (index + 1) := by
    rw [records_split scars late (by omega), records_step _ scars (by omega), gone, after, before]
    rfl
  refine ⟨_, whole, ?_, ?_, ?_, less⟩
  · rw [stop]
    exact keeps.positive
  · rw [stop]
    exact keeps.below
  · intro position head late inside clear kind
    rw [polarity] at kind
    rw [stop] at inside
    by_cases here : position = index
    · subst here
      rw [voided] at kind
      cases kind
    · rw [same position here] at kind
      exact (kept position head late inside clear kind here).2.1

theorem Settled.void (settled : tape.Settled scars records) {index : Nat} {record : Record} (late : 1 ≤ index)
    (inside : index < tape.stop) (clear : index ∉ scars) (found : tape.recordAt index = some record)
    (polarity : tape'.polarity = tape.polarity) (stop : tape'.stop = tape.stop)
    (same : ∀ position, position ≠ index → tape'.blocks position = tape.blocks position)
    (voided : tape.polarity.kind (tape'.blocks index).info = .cont) :
    ∃ before, records = before ++ record :: tape.records scars (index + 1) ∧
      tape'.Settled scars (before ++ tape.records scars (index + 1)) := by
  obtain ⟨before, split, keeps⟩ := settled.toKeeps.void late inside clear found polarity stop same voided
  refine ⟨before, split, keeps, ?_, ?_⟩
  · intro position from_stop
    rw [polarity, same position (by omega)]
    exact settled.clear position (by omega)
  · rw [stop, polarity]
    by_cases last : tape.stop - 1 = index
    · right
      rw [last]
      apply Block.ne_blank_of_kind
      intro id entry
      rw [voided] at entry
      cases entry
    · rw [same _ last]
      exact settled.ends

end TwinLog.Tape
