import Mathlib.Data.List.Perm.Subperm
import TwinLog.Proofs.UniqueNames

set_option autoImplicit false

namespace TwinLog

namespace Record

variable {records fewer : List Record} {id : FileId} {ufid : Ufid} {spare : Nat}

/-- Whether all but `spare` of the entries are those of different files that have content. -/
def BackedBut (spare : Nat) (records : List Record) : Prop :=
  ∃ names : List Ufid, names.Nodup ∧ (∀ name ∈ names, (files records name).isSome = true) ∧
    (entries records).length ≤ names.length + spare

/-- Whether an identifier has an entry but no content. -/
def Orphan (records : List Record) (ufid : Ufid) : Prop :=
  ufid ∈ (entries records).map Prod.snd ∧ files records ufid = none

/-- Whether an id is that of an entry, but not that of any file with content. -/
def LeftOver (records : List Record) (id : FileId) : Prop :=
  id ∈ (entries records).map Prod.fst ∧ ∀ ufid, owner? records ufid = some id → files records ufid = none

section Sublists

theorem entries_sublist (more : fewer.Sublist records) : (entries fewer).Sublist (entries records) := by
  induction more with
  | slnil => exact List.Sublist.refl _
  | cons record _ ih =>
      cases record with
      | entry id ufid => exact ih.cons _
      | content _ _ => exact ih
  | cons_cons record _ ih =>
      cases record with
      | entry id ufid => exact ih.cons_cons _
      | content _ _ => exact ih

theorem latest_sublist (more : fewer.Sublist records) (present : (latest id fewer).isSome = true) :
    (latest id records).isSome = true := by
  induction more with
  | slnil => exact present
  | cons record _ ih =>
      cases record with
      | entry _ _ => exact ih present
      | content _ _ => rw [latest, Option.isSome_or, ih present, Bool.true_or]
  | cons_cons record _ ih =>
      cases record with
      | entry _ _ => exact ih present
      | content owner data =>
          rw [latest, Option.isSome_or, Bool.or_eq_true] at present ⊢
          exact present.imp_left ih

/-- A file that has content has some where there is more content, and no other entry. -/
theorem files_sublist (more : fewer.Sublist records) (same : entries records = entries fewer)
    (present : (files fewer ufid).isSome = true) : (files records ufid).isSome = true := by
  induction more with
  | slnil => exact present
  | cons record more ih =>
      cases record with
      | content _ _ => exact ih same present
      | entry id owner =>
          have shorter := (entries_sublist more).length_le
          have longer := congrArg List.length same
          rw [entries, List.length_cons] at longer
          omega
  | cons_cons record more ih =>
      cases record with
      | content _ _ => exact ih same present
      | entry id owner =>
          rw [entries, entries, List.cons.injEq] at same
          rw [files] at present ⊢
          split
          · rename_i here
            rw [if_pos here] at present
            exact latest_sublist more present
          · rename_i apart
            rw [if_neg apart] at present
            exact ih same.2 present

theorem files_append (more : List Record) (present : (files records ufid).isSome = true) :
    (files (records ++ more) ufid).isSome = true := by
  induction records with
  | nil => cases present
  | cons record rest ih =>
      cases record with
      | content _ _ => exact ih present
      | entry id owner =>
          rw [List.cons_append, files]
          rw [files] at present
          split
          · rename_i here
            rw [if_pos here] at present
            exact latest_sublist (List.sublist_append_left rest more) present
          · rename_i apart
            rw [if_neg apart] at present
            exact ih present

theorem files_apart {before after : List Record} {other : Ufid} (apart : ufid ≠ other) :
    files (before ++ entry id ufid :: after) other = files (before ++ after) other := by
  induction before with
  | nil => rw [List.nil_append, List.nil_append, files, if_neg apart]
  | cons record rest ih =>
      cases record with
      | content _ _ => exact ih
      | entry owner name =>
          rw [List.cons_append, List.cons_append, files, files, ih, latest_append, latest_append, latest]

theorem files_live_isSome (present : (files records ufid).isSome = true) :
    (files (live records) ufid).isSome = true := by
  induction records with
  | nil => cases present
  | cons record rest ih =>
      cases record with
      | content _ _ => exact ih present
      | entry id owner =>
          rw [files] at present
          rw [live]
          by_cases here : owner = ufid
          · rw [if_pos here] at present
            obtain ⟨data, found⟩ := Option.isSome_iff_exists.mp present
            rw [found, files, if_pos here, latest, if_pos rfl, Option.isSome_or, Option.isSome_some, Bool.or_true]
          · rw [if_neg here] at present
            split
            · exact ih present
            · rw [files, if_neg here]
              exact ih present

end Sublists

section Backed

theorem backedBut_nil : BackedBut 0 [] :=
  ⟨[], List.nodup_nil, fun _ member => absurd member List.not_mem_nil, Nat.le_refl _⟩

theorem BackedBut.mono {more : Nat} (backed : BackedBut spare records) (enough : spare ≤ more) :
    BackedBut more records := by
  obtain ⟨names, nodup, present, short⟩ := backed
  exact ⟨names, nodup, present, by omega⟩

theorem BackedBut.widen (backed : BackedBut spare fewer) (more : fewer.Sublist records)
    (same : entries records = entries fewer) : BackedBut spare records := by
  obtain ⟨names, nodup, present, short⟩ := backed
  exact ⟨names, nodup, fun name member => files_sublist more same (present name member), same ▸ short⟩

/-- Each entry at the end may be one that no content belongs to. -/
theorem BackedBut.append (backed : BackedBut spare records) (more : List Record) :
    BackedBut (spare + (entries more).length) (records ++ more) := by
  obtain ⟨names, nodup, present, short⟩ := backed
  refine ⟨names, nodup, fun name member => files_append more (present name member), ?_⟩
  rw [entries_append, List.length_append]
  omega

/-- An entry at the end of a file that had no content and has now does not count. -/
theorem BackedBut.append_file (backed : BackedBut spare records) {more : List Record}
    (one : (entries more).length ≤ 1) (absent : files records ufid = none)
    (present : (files (records ++ more) ufid).isSome = true) : BackedBut spare (records ++ more) := by
  obtain ⟨names, nodup, others, short⟩ := backed
  refine ⟨ufid :: names, List.nodup_cons.mpr ⟨?_, nodup⟩, ?_, ?_⟩
  · intro member
    have there := others ufid member
    rw [absent] at there
    cases there
  · intro name member
    rcases List.mem_cons.mp member with rfl | old
    · exact present
    · exact files_append more (others name old)
  · rw [entries_append, List.length_append, List.length_cons]
    omega

theorem BackedBut.remove {before after : List Record} (backed : BackedBut spare (before ++ entry id ufid :: after)) :
    BackedBut spare (before ++ after) := by
  obtain ⟨names, nodup, present, short⟩ := backed
  refine ⟨names.erase ufid, nodup.erase ufid, ?_, ?_⟩
  · intro name member
    have apart : ufid ≠ name := by
      rintro rfl
      exact nodup.not_mem_erase member
    rw [← files_apart apart]
    exact present name (List.mem_of_mem_erase member)
  · have fewer : names.length ≤ (names.erase ufid).length + 1 := by
      rw [List.length_erase]
      split <;> omega
    rw [entries_append, entries, List.length_append, List.length_cons] at short
    rw [entries_append, List.length_append]
    omega

theorem BackedBut.supersede {before after : List Record} {data : List UInt8}
    (backed : BackedBut spare (before ++ content id data :: after)) (later : (latest id after).isSome = true) :
    BackedBut spare (before ++ after) := by
  obtain ⟨names, nodup, present, short⟩ := backed
  rw [files_supersede before after later] at present
  rw [entries_append, entries, ← entries_append] at short
  exact ⟨names, nodup, present, short⟩

theorem BackedBut.live (backed : BackedBut spare records) : BackedBut spare (live records) := by
  obtain ⟨names, nodup, present, short⟩ := backed
  have fewer := (entries_live records).length_le
  exact ⟨names, nodup, fun name member => files_live_isSome (present name member), by omega⟩

theorem ufid_of_file (present : (files records ufid).isSome = true) : ufid ∈ (entries records).map Prod.snd := by
  by_contra absent
  rw [files_absent absent] at present
  cases present

/-- There are no more identifiers with an entry and no content than entries that no content belongs to. -/
theorem BackedBut.orphans (backed : BackedBut spare records) {orphans : List Ufid} (distinct : orphans.Nodup)
    (each : ∀ ufid ∈ orphans, Orphan records ufid) : orphans.length ≤ spare := by
  obtain ⟨names, nodup, present, short⟩ := backed
  have apart : (names ++ orphans).Nodup := by
    refine List.nodup_append.mpr ⟨nodup, distinct, ?_⟩
    rintro name member _ orphan rfl
    have there := present name member
    rw [(each name orphan).2] at there
    cases there
  have inside : names ++ orphans ⊆ (entries records).map Prod.snd := by
    intro name member
    rcases List.mem_append.mp member with backed | orphan
    · exact ufid_of_file (present name backed)
    · exact (each name orphan).1
  have bound := apart.length_le_of_subset inside
  rw [List.length_append, List.length_map] at bound
  omega

theorem owner_of_file (present : (files records ufid).isSome = true) : ∃ id, owner? records ufid = some id := by
  apply Option.ne_none_iff_exists'.mp
  intro absent
  exact owner?_none absent (ufid_of_file present)

theorem BackedBut.leftOver_length (backed : BackedBut spare records) {ids : List FileId} (distinct : ids.Nodup)
    (each : ∀ id ∈ ids, LeftOver records id) : ids.length ≤ spare := by
  obtain ⟨names, nodup, present, short⟩ := backed
  let found (binding : FileId × Ufid) : Bool :=
    owner? records binding.2 = some binding.1 ∧ (files records binding.2).isSome = true
  have backing : names ⊆ ((entries records).filter found).map Prod.snd := by
    intro name member
    obtain ⟨id, owned⟩ := owner_of_file (present name member)
    have passes : found (id, name) = true := decide_eq_true ⟨owned, present name member⟩
    exact List.mem_map.mpr ⟨_, List.mem_filter.mpr ⟨owner?_some owned, passes⟩, rfl⟩
  have idle : ids ⊆ ((entries records).filter fun binding => !found binding).map Prod.fst := by
    intro id member
    obtain ⟨held, without⟩ := each id member
    obtain ⟨binding, bound, rfl⟩ := List.mem_map.mp held
    refine List.mem_map.mpr ⟨binding, List.mem_filter.mpr ⟨bound, ?_⟩, rfl⟩
    rw [Bool.not_eq_true', decide_eq_false_iff_not]
    rintro ⟨owned, there⟩
    rw [without _ owned] at there
    cases there
  have many := nodup.length_le_of_subset backing
  have few := distinct.length_le_of_subset idle
  have whole := List.length_eq_length_filter_add (l := entries records) found
  rw [List.length_map] at many few
  omega

/-- Where names are unique, the ids that are left over are those of the entries without content. -/
theorem leftOver_iff_orphan (unique : Unique records) :
    LeftOver records id ↔ ∃ ufid, (id, ufid) ∈ entries records ∧ Orphan records ufid := by
  constructor
  · rintro ⟨held, without⟩
    obtain ⟨⟨_, ufid⟩, bound, rfl⟩ := List.mem_map.mp held
    have named : ufid ∈ (entries records).map Prod.snd := List.mem_map_of_mem bound
    cases owned : owner? records ufid with
    | none => exact absurd named (owner?_none owned)
    | some other =>
        have same := List.inj_on_of_nodup_map unique.ufids (owner?_some owned) bound rfl
        cases same
        exact ⟨ufid, bound, named, without ufid owned⟩
  · rintro ⟨ufid, bound, -, none⟩
    refine ⟨List.mem_map_of_mem bound, ?_⟩
    intro other owned
    have same := List.inj_on_of_nodup_map unique.ids (owner?_some owned) bound rfl
    cases same
    exact none

end Backed

end Record

namespace Tape

variable {tape tape' : Tape} {index : Nat}

theorem recordAt_kept (polarity : tape'.polarity = tape.polarity) (grown : tape.stop ≤ tape'.stop)
    (inside : index < tape.stop)
    (same : ∀ position < tape.stop, position = index ∨ tape.polarity.kind (tape.blocks position).info = .cont →
      tape'.blocks position = tape.blocks position) :
    tape.recordAt index = none ∨ tape.recordAt index = tape'.recordAt index := by
  cases found : tape.recordAt index with
  | none => exact .inl rfl
  | some record =>
      right
      rcases recordAt_some found with ⟨id, ufid, bound, rfl⟩ | ⟨chain, chained, rfl⟩
      · rw [← same index inside (.inl rfl), ← polarity] at bound
        rw [recordAt_entry bound]
      · obtain ⟨first, -, room, passed⟩ := chainAt?_some.mp chained
        obtain ⟨chained', content⟩ := chainAt?_congr polarity chained (Nat.le_trans room grown) (by
          intro position late early
          apply same position (by omega)
          by_cases here : position = index
          · exact .inl here
          · exact .inr (Chain.sound_further passed (by omega) early))
        rw [recordAt_chain chained', content]

theorem entries_congr (polarity : tape'.polarity = tape.polarity) {positions : List Nat}
    (same : ∀ position ∈ positions, tape'.blocks position = tape.blocks position) :
    Record.entries (positions.filterMap (tape'.visible [])) =
      Record.entries (positions.filterMap (tape.visible [])) := by
  rw [entries_visible, entries_visible]
  apply List.filterMap_congr
  intro position member
  rw [polarity, same position member]

/-- Where a log grows, its records are among the first ones, and the entries are the same. -/
theorem records_grow (polarity : tape'.polarity = tape.polarity) (positive : 1 ≤ tape.stop)
    (grown : tape.stop ≤ tape'.stop) (same : ∀ position < tape.stop, tape'.blocks position = tape.blocks position) :
    ∃ early, tape'.records [] 1 = early ++ tape'.records [] tape.stop ∧ (tape.records [] 1).Sublist early ∧
      Record.entries early = Record.entries (tape.records [] 1) := by
  refine ⟨_, records_split [] positive grown, ?_, ?_⟩
  · apply filterMap_sublist
    intro index member
    rw [List.mem_range'_1] at member
    rw [visible_nil, visible_nil]
    exact recordAt_kept polarity grown (by omega) (fun position inside _ => same position inside)
  · apply entries_congr polarity
    intro index member
    rw [List.mem_range'_1] at member
    exact same index (by omega)

theorem entries_one {start : Nat}
    (unbound : ∀ position, start < position → (tape.blocks position).binding? tape.polarity = none) :
    (Record.entries (tape.records [] start)).length ≤ 1 := by
  rw [entries_records]
  cases tape.stop - start with
  | zero => exact Nat.zero_le 1
  | succ more =>
      have none : (List.range' (start + 1) more).filterMap
          (fun position => (tape.blocks position).binding? tape.polarity) = [] := by
        rw [List.filterMap_eq_nil_iff]
        intro position member
        rw [List.mem_range'_1] at member
        exact unbound position member.1
      rw [List.range'_succ, List.filterMap_cons, none]
      split
      · exact Nat.zero_le 1
      · exact Nat.le_refl 1

/-- Where the first block of a record is made void, the other records are among those of the log, and the entries are
the same but for the one that may be gone. -/
theorem records_void {record : Record} (late : 1 ≤ index) (inside : index < tape.stop)
    (found : tape.recordAt index = some record) (polarity : tape'.polarity = tape.polarity)
    (stop : tape'.stop = tape.stop) (same : ∀ position, position ≠ index → tape'.blocks position = tape.blocks position)
    (voided : tape.polarity.kind (tape'.blocks index).info = .cont) :
    ∃ before, tape.records [] 1 = before ++ record :: tape.records [] (index + 1) ∧
      (before ++ tape.records [] (index + 1)).Sublist (tape'.records [] 1) ∧
      Record.entries (tape'.records [] 1) = Record.entries (before ++ tape.records [] (index + 1)) := by
  have gone : tape'.visible [] index = none := by
    rw [visible_nil, recordAt_cont (by rw [polarity, voided])]
  have split : tape'.records [] 1 =
      (List.range' 1 (index - 1)).filterMap (tape'.visible []) ++ tape'.records [] (index + 1) := by
    rw [records_split [] late (by omega), records_step _ [] (by omega), gone]
    rfl
  -- A void block passes as a further block of a chain, so a chain may appear in front of it, but none is lost.
  have kept (position : Nat) (early : position < tape.stop) (apart : position ≠ index) :
      tape.visible [] position = none ∨ tape.visible [] position = tape'.visible [] position := by
    rw [visible_nil, visible_nil]
    apply recordAt_kept polarity (Nat.le_of_eq stop.symm) early
    rintro other - (here | further)
    · exact same other (by omega)
    · apply same
      rintro rfl
      exact kind_of_record found further
  have later : tape'.records [] (index + 1) =
      (List.range' (index + 1) (tape.stop - (index + 1))).filterMap (tape'.visible []) := by
    rw [records, stop]
  refine ⟨(List.range' 1 (index - 1)).filterMap (tape.visible []), ?_, ?_, ?_⟩
  · rw [records_split [] late (by omega), records_step _ [] inside, visible_nil, found]
    rfl
  · rw [split, later]
    apply List.Sublist.append
    · apply filterMap_sublist
      intro position member
      rw [List.mem_range'_1] at member
      exact kept position (by omega) (by omega)
    · apply filterMap_sublist
      intro position member
      rw [List.mem_range'_1] at member
      exact kept position (by omega) (by omega)
  · rw [split, later, Record.entries_append, Record.entries_append]
    apply congrArg₂
    · apply entries_congr polarity
      intro position member
      rw [List.mem_range'_1] at member
      exact same position (by omega)
    · apply entries_congr polarity
      intro position member
      rw [List.mem_range'_1] at member
      exact same position (by omega)

end Tape

end TwinLog
