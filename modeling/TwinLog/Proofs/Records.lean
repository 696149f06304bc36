import Mathlib.Data.List.Nodup
import TwinLog.Journal

set_option autoImplicit false

namespace TwinLog

/-- What a block or a run of blocks says. -/
inductive Record where
  /-- The file `ufid` goes by the id `id`. -/
  | entry (id : FileId) (ufid : Ufid)
  /-- The file that goes by `id` has this content. -/
  | content (id : FileId) (data : List UInt8)
  deriving DecidableEq

/-- The content of each file that has any. -/
abbrev Files := Ufid → Option (List UInt8)

namespace Files

def empty : Files := fun _ => none

def set (files : Files) (ufid : Ufid) (data : List UInt8) : Files :=
  fun other => if other = ufid then some data else files other

def erase (files : Files) (ufid : Ufid) : Files :=
  fun other => if other = ufid then none else files other

end Files

theorem FileId.lowestUnused_not_mem {used : List FileId} {id : FileId} (found : lowestUnused used = some id) :
    id ∉ used := by
  have unused := List.find?_some found
  simpa using unused

theorem FileId.lowestUnused_le {used : List FileId} {id other : FileId} (found : lowestUnused used = some id)
    (unused : other ∉ used) : id ≤ other := by
  obtain ⟨-, before, after, split, taken⟩ := List.find?_eq_some_iff_append.mp found
  have sorted := List.pairwise_lt_finRange 64
  have member := List.mem_finRange other
  rw [split] at sorted member
  rcases List.mem_append.mp member with early | late
  · have inUse := taken other early
    simp [unused] at inUse
  · rcases List.mem_cons.mp late with rfl | later
    · exact Fin.le_refl _
    · exact Fin.le_of_lt ((List.pairwise_cons.mp (List.pairwise_append.mp sorted).2.1).1 other later)

theorem FileId.lowestUnused_eq_none_iff {used : List FileId} : lowestUnused used = none ↔ ∀ id, id ∈ used := by
  rw [lowestUnused, List.find?_eq_none]
  simp

theorem FileId.lowestUnused_reverse (used : List FileId) : lowestUnused used.reverse = lowestUnused used := by
  simp only [lowestUnused, List.contains_reverse]

namespace Record

def latest (id : FileId) : List Record → Option (List UInt8)
  | [] => none
  | entry _ _ :: rest => latest id rest
  | content owner data :: rest => (latest id rest).or (if owner = id then some data else none)

/-- The files that a list of records stands for. -/
def files : List Record → Files
  | [], _ => none
  | entry id owner :: rest, ufid => if owner = ufid then latest id rest else files rest ufid
  | content _ _ :: rest, ufid => files rest ufid

def entries : List Record → List (FileId × Ufid)
  | [] => []
  | entry id ufid :: rest => (id, ufid) :: entries rest
  | content _ _ :: rest => entries rest

def owner? (records : List Record) (ufid : Ufid) : Option FileId :=
  ((entries records).find? fun binding => binding.2 = ufid).map Prod.fst

def weight : Record → Nat
  | entry _ _ => 1
  | content _ data => blocksNeeded data.length

def weights : List Record → Nat
  | [] => 0
  | record :: rest => record.weight + weights rest

/-- What compaction copies: each entry whose file has content, and that content. -/
def live : List Record → List Record
  | [] => []
  | content _ _ :: rest => live rest
  | entry id ufid :: rest =>
      match latest id rest with
      | none => live rest
      | some data => entry id ufid :: content id data :: live rest

/-- No id and no identifier is in two entries. -/
structure Unique (records : List Record) : Prop where
  ids : ((entries records).map Prod.fst).Nodup
  ufids : ((entries records).map Prod.snd).Nodup

/-- Every file that has an entry has content. -/
def Backed (records : List Record) : Prop :=
  ∀ binding ∈ entries records, (files records binding.2).isSome = true

section Latest

theorem latest_append (id : FileId) (before after : List Record) :
    latest id (before ++ after) = (latest id after).or (latest id before) := by
  induction before with
  | nil => rw [List.nil_append, latest, Option.or_none]
  | cons record rest ih =>
      cases record with
      | entry _ _ => exact ih
      | content owner data => rw [List.cons_append, latest, latest, ih, Option.or_assoc]

theorem latest_append_entry (id : FileId) (records : List Record) (owner : FileId) (ufid : Ufid) :
    latest id (records ++ [entry owner ufid]) = latest id records := by
  rw [latest_append]
  rfl

/-- A content that a later one takes the place of does not count. -/
theorem latest_supersede (id : FileId) (before after : List Record) {owner : FileId} {data : List UInt8}
    (later : (latest owner after).isSome = true) :
    latest id (before ++ content owner data :: after) = latest id (before ++ after) := by
  rw [latest_append, latest_append, latest]
  by_cases same : owner = id
  · subst same
    obtain ⟨newer, found⟩ := Option.isSome_iff_exists.mp later
    rw [found]
    rfl
  · rw [if_neg same, Option.or_none]

end Latest

section Entries

theorem entries_append (before after : List Record) : entries (before ++ after) = entries before ++ entries after := by
  induction before with
  | nil => rfl
  | cons record rest ih =>
      cases record with
      | entry id ufid => rw [List.cons_append, entries, entries, ih, List.cons_append]
      | content _ _ => exact ih

theorem Unique.sublist {records fewer : List Record} (unique : Unique records)
    (fewer_entries : List.Sublist (entries fewer) (entries records)) : Unique fewer :=
  ⟨unique.ids.sublist (fewer_entries.map _), unique.ufids.sublist (fewer_entries.map _)⟩

theorem Unique.tail {record : Record} {rest : List Record} (unique : Unique (record :: rest)) : Unique rest := by
  apply unique.sublist
  cases record with
  | entry id ufid => exact List.sublist_cons_self _ _
  | content _ _ => exact List.Sublist.refl _

theorem Unique.others {before after : List Record} {id : FileId} {ufid : Ufid}
    (unique : Unique (before ++ entry id ufid :: after)) :
    ∀ binding ∈ entries (before ++ after),
      binding ∈ entries (before ++ entry id ufid :: after) ∧ binding.2 ≠ ufid := by
  intro binding member
  have ufids := unique.ufids
  rw [entries_append, entries, List.map_append, List.map_cons, List.nodup_middle, List.nodup_cons, ← List.map_append,
    ← entries_append] at ufids
  refine ⟨?_, ?_⟩
  · rw [entries_append, entries]
    rw [entries_append] at member
    exact (List.Sublist.append_left (List.sublist_cons_self _ _) _).subset member
  · rintro rfl
    exact ufids.1 (List.mem_map.mpr ⟨binding, member, rfl⟩)

theorem Unique.remove {before after : List Record} {record : Record} (unique : Unique (before ++ record :: after)) :
    Unique (before ++ after) := by
  apply unique.sublist
  rw [entries_append, entries_append]
  apply List.Sublist.append_left
  cases record with
  | entry id ufid => exact List.sublist_cons_self _ _
  | content _ _ => exact List.Sublist.refl _

theorem Unique.append_content {records : List Record} (unique : Unique records) (id : FileId) (data : List UInt8) :
    Unique (records ++ [content id data]) := by
  apply unique.sublist
  rw [entries_append, entries, entries, List.append_nil]

theorem Unique.append_entry {records : List Record} (unique : Unique records) {id : FileId} {ufid : Ufid}
    (freshId : id ∉ (entries records).map Prod.fst) (freshUfid : ufid ∉ (entries records).map Prod.snd) :
    Unique (records ++ [entry id ufid]) := by
  constructor
  · rw [entries_append, List.map_append]
    exact (List.concat_eq_append ▸ unique.ids.concat freshId)
  · rw [entries_append, List.map_append]
    exact (List.concat_eq_append ▸ unique.ufids.concat freshUfid)

theorem owner?_none {records : List Record} {ufid : Ufid} (absent : owner? records ufid = none) :
    ufid ∉ (entries records).map Prod.snd := by
  rw [owner?, Option.map_eq_none_iff, List.find?_eq_none] at absent
  intro member
  obtain ⟨binding, present, same⟩ := List.mem_map.mp member
  exact absent binding present (by simpa using same)

theorem owner?_some {records : List Record} {ufid : Ufid} {id : FileId} (found : owner? records ufid = some id) :
    (id, ufid) ∈ entries records := by
  rw [owner?, Option.map_eq_some_iff] at found
  obtain ⟨⟨first, second⟩, present, rfl⟩ := found
  have same : second = ufid := by simpa using List.find?_some present
  subst same
  exact List.mem_of_find?_eq_some present

end Entries

section Changes

theorem files_absent {records : List Record} {ufid : Ufid} (absent : ufid ∉ (entries records).map Prod.snd) :
    files records ufid = none := by
  induction records with
  | nil => rfl
  | cons record rest ih =>
      cases record with
      | content _ _ => exact ih absent
      | entry id owner =>
          rw [entries, List.map_cons, List.mem_cons, not_or] at absent
          rw [files, if_neg (fun same => absent.1 same.symm), ih absent.2]

theorem files_skip {before after : List Record} {ufid : Ufid} (absent : ufid ∉ (entries before).map Prod.snd) :
    files (before ++ after) ufid = files after ufid := by
  induction before with
  | nil => rfl
  | cons record rest ih =>
      cases record with
      | content _ _ => exact ih absent
      | entry id owner =>
          rw [entries, List.map_cons, List.mem_cons, not_or] at absent
          rw [List.cons_append, files, if_neg (fun same => absent.1 same.symm), ih absent.2]

theorem files_append_entry (records : List Record) (id : FileId) (ufid : Ufid) :
    files (records ++ [entry id ufid]) = files records := by
  funext other
  induction records with
  | nil =>
      rw [List.nil_append, files, files]
      split <;> rfl
  | cons record rest ih =>
      cases record with
      | content _ _ => exact ih
      | entry owner name => rw [List.cons_append, files, files, latest_append_entry, ih]

theorem files_append_stray {records : List Record} {id : FileId} (absent : id ∉ (entries records).map Prod.fst)
    (data : List UInt8) : files (records ++ [content id data]) = files records := by
  funext other
  induction records with
  | nil => rfl
  | cons record rest ih =>
      cases record with
      | content _ _ => exact ih absent
      | entry owner name =>
          rw [entries, List.map_cons, List.mem_cons, not_or] at absent
          rw [List.cons_append, files, files, latest_append, latest, if_neg absent.1, ih absent.2]
          rfl

/-- A new content becomes that of the file which its id belongs to. -/
theorem files_append_content {records : List Record} (unique : Unique records) {id : FileId} {ufid : Ufid}
    (present : (id, ufid) ∈ entries records) (data : List UInt8) :
    files (records ++ [content id data]) = (files records).set ufid data := by
  funext other
  induction records with
  | nil => cases present
  | cons record rest ih =>
      have later := ih unique.tail
      cases record with
      | content _ _ => exact later present
      | entry owner name =>
          obtain ⟨ids, ufids⟩ := unique
          rw [entries, List.map_cons, List.nodup_cons] at ids ufids
          rw [List.cons_append, files, latest_append, latest, latest, Option.none_or, Files.set, files]
          rcases List.mem_cons.mp present with same | further
          · obtain ⟨rfl, rfl⟩ := Prod.mk.inj same
            by_cases here : ufid = other
            · rw [if_pos here, if_pos here.symm, if_pos rfl, Option.some_or]
            · rw [if_neg here, if_neg (fun same => here same.symm), if_neg here, files_append_stray ids.1]
          · have apart : name ≠ ufid := by
              rintro rfl
              exact ufids.1 (List.mem_map.mpr ⟨_, further, rfl⟩)
            have apartId : id ≠ owner := by
              rintro rfl
              exact ids.1 (List.mem_map.mpr ⟨_, further, rfl⟩)
            by_cases here : name = other
            · subst here
              rw [if_pos rfl, if_pos rfl, if_neg apartId, Option.none_or, if_neg apart]
            · rw [if_neg here, if_neg here, later further, Files.set]

/-- A new content of the id that a file goes by is that of the file, whatever other entries there are. -/
theorem files_append_own {records : List Record} {id : FileId} {ufid : Ufid} (owned : owner? records ufid = some id)
    (data : List UInt8) : files (records ++ [content id data]) ufid = some data := by
  induction records with
  | nil => cases owned
  | cons record rest ih =>
      cases record with
      | content _ _ => exact ih owned
      | entry owner name =>
          rw [List.cons_append, files]
          by_cases here : name = ufid
          · rw [owner?, entries, List.find?_cons_of_pos (by simpa using here), Option.map_some, Option.some.injEq]
              at owned
            rw [if_pos here, latest_append, latest, if_pos owned.symm]
            rfl
          · rw [owner?, entries, List.find?_cons_of_neg (by simpa using here)] at owned
            rw [if_neg here]
            exact ih owned

theorem files_remove {before after : List Record} {id : FileId} {ufid : Ufid}
    (unique : Unique (before ++ entry id ufid :: after)) :
    files (before ++ after) = (files (before ++ entry id ufid :: after)).erase ufid := by
  funext other
  induction before with
  | nil =>
      have absent := unique.ufids
      rw [List.nil_append, entries, List.map_cons, List.nodup_cons] at absent
      rw [List.nil_append, List.nil_append, Files.erase, files]
      by_cases here : ufid = other
      · subst here
        rw [if_pos rfl, files_absent absent.1]
      · rw [if_neg here, if_neg (fun same => here same.symm)]
  | cons record rest ih =>
      have later := ih unique.tail
      cases record with
      | content _ _ => exact later
      | entry owner name =>
          have absent := unique.ufids
          rw [List.cons_append, entries, List.map_cons, List.nodup_cons, entries_append, entries] at absent
          have apart : name ≠ ufid := by
            rintro rfl
            exact absent.1 (by simp)
          rw [List.cons_append, List.cons_append, Files.erase, files, files, later, Files.erase, latest_append,
            latest_append, latest]
          by_cases here : name = other
          · subst here
            rw [if_pos rfl, if_pos rfl, if_neg apart]
          · rw [if_neg here, if_neg here]

theorem files_supersede (before after : List Record) {id : FileId} {data : List UInt8}
    (later : (latest id after).isSome = true) :
    files (before ++ content id data :: after) = files (before ++ after) := by
  funext other
  induction before with
  | nil => rfl
  | cons record rest ih =>
      cases record with
      | content _ _ => exact ih
      | entry owner name =>
          rw [List.cons_append, List.cons_append, files, files, latest_supersede _ _ _ later, ih]

end Changes

section Compaction

theorem entries_live (records : List Record) : List.Sublist (entries (live records)) (entries records) := by
  induction records with
  | nil => exact List.Sublist.refl _
  | cons record rest ih =>
      cases record with
      | content _ _ => exact ih
      | entry id ufid =>
          rw [live]
          split
          · exact List.Sublist.cons _ ih
          · exact List.Sublist.cons_cons _ ih

theorem Unique.live {records : List Record} (unique : Unique records) : Unique (live records) :=
  unique.sublist (entries_live records)

/-- The last content of an id that compaction leaves, if it leaves one, is the last that there was. -/
theorem latest_live (id : FileId) (records : List Record) :
    latest id (live records) = none ∨ latest id (live records) = latest id records := by
  induction records with
  | nil => exact .inl rfl
  | cons record rest ih =>
      cases record with
      | content owner data =>
          rw [live, latest]
          rcases ih with none | same
          · exact .inl none
          · cases found : latest id rest with
            | none => exact .inl (same.trans found)
            | some newer => exact .inr (same.trans found)
      | entry owner name =>
          rw [live, latest]
          split
          · exact ih
          · rename_i data found
            rw [latest, latest]
            by_cases here : owner = id
            · subst here
              rw [if_pos rfl, found]
              rcases ih with none | same
              · exact .inr (by rw [none, Option.none_or])
              · exact .inr (by rw [same, found, Option.some_or])
            · rw [if_neg here, Option.or_none]
              exact ih

/-- Compaction keeps the content of every file, also where files share an id, if no identifier is in two entries. -/
theorem files_live {records : List Record} (ufids : ((entries records).map Prod.snd).Nodup) :
    files (live records) = files records := by
  funext other
  induction records with
  | nil => rfl
  | cons record rest ih =>
      cases record with
      | content _ _ => exact ih ufids
      | entry id name =>
          rw [entries, List.map_cons, List.nodup_cons] at ufids
          have later := ih ufids.2
          rw [live, files]
          split
          · rename_i none
            rw [later, none]
            split
            · rename_i here
              rw [← here, files_absent ufids.1]
            · rfl
          · rename_i data found
            have content : latest id (content id data :: live rest) = some data := by
              rw [latest, if_pos rfl]
              rcases latest_live id rest with none | same
              · rw [none, Option.none_or]
              · rw [same, found, Option.some_or]
            rw [files, files, content, later, found]

theorem backed_live {records : List Record} (unique : Unique records) : Backed (live records) := by
  intro binding member
  rw [files_live unique.ufids]
  induction records with
  | nil => cases member
  | cons record rest ih =>
      have later := ih unique.tail
      cases record with
      | content _ _ => exact later member
      | entry id name =>
          obtain ⟨ids, ufids⟩ := unique
          rw [entries, List.map_cons, List.nodup_cons] at ids ufids
          have apart (inside : binding ∈ entries (live rest)) : name ≠ binding.2 := by
            rintro rfl
            exact ufids.1 (List.mem_map.mpr ⟨_, (entries_live rest).subset inside, rfl⟩)
          rw [live] at member
          rw [files]
          split at member
          · rw [if_neg (apart member)]
            exact later member
          · rename_i data found
            rcases List.mem_cons.mp member with rfl | further
            · rw [if_pos rfl, found]
              rfl
            · rw [if_neg (apart further)]
              exact later further

def counted (ids : List FileId) : List Record → Nat
  | [] => 0
  | entry _ _ :: rest => 1 + counted ids rest
  | content id data :: rest => (if id ∈ ids then blocksNeeded data.length else 0) + counted ids rest

theorem counted_le (ids : List FileId) (records : List Record) : counted ids records ≤ weights records := by
  induction records with
  | nil => exact Nat.le_refl _
  | cons record rest ih =>
      simp only [weights] at ih ⊢
      cases record with
      | entry _ _ => simp only [counted, weight]; omega
      | content id data =>
          simp only [counted, weight]
          split <;> omega

theorem counted_cons (id : FileId) (ids : List FileId) (records : List Record) :
    counted ids records ≤ counted (id :: ids) records := by
  induction records with
  | nil => exact Nat.le_refl _
  | cons record rest ih =>
      cases record with
      | entry _ _ => simp only [counted]; omega
      | content owner data =>
          simp only [counted]
          by_cases listed : owner ∈ ids
          · rw [if_pos listed, if_pos (List.mem_cons_of_mem _ listed)]
            omega
          · rw [if_neg listed]
            omega

theorem counted_latest {id : FileId} {ids : List FileId} (absent : id ∉ ids) {records : List Record}
    {data : List UInt8} (found : latest id records = some data) :
    blocksNeeded data.length + counted ids records ≤ counted (id :: ids) records := by
  -- on the records from the last one up; only the last content of `id` makes the difference
  induction records with
  | nil => cases found
  | cons record rest ih =>
      cases record with
      | entry _ _ =>
          have later := ih found
          simp only [counted]
          omega
      | content owner given =>
          rw [latest] at found
          simp only [counted]
          cases further : latest id rest with
          | some newer =>
              rw [further, Option.some_or, Option.some.injEq] at found
              subst found
              have later := ih further
              by_cases listed : owner ∈ ids
              · rw [if_pos listed, if_pos (List.mem_cons_of_mem _ listed)]
                omega
              · rw [if_neg listed]
                omega
          | none =>
              have more := counted_cons id ids rest
              rw [further, Option.none_or] at found
              split at found
              · rename_i same
                subst same
                rw [Option.some.injEq] at found
                subst found
                rw [if_neg absent, if_pos List.mem_cons_self]
                omega
              · cases found

/-- Compaction takes no more blocks than there were, unless two of the entries that it keeps share an id. -/
theorem weights_live {records : List Record} (distinct : ((entries (live records)).map Prod.fst).Nodup) :
    weights (live records) ≤ weights records := by
  have counted_live : weights (live records) ≤ counted ((entries (live records)).map Prod.fst) records := by
    induction records with
    | nil => exact Nat.le_refl _
    | cons record rest ih =>
        cases record with
        | content id data =>
            have later := ih distinct
            simp only [live, counted]
            omega
        | entry id ufid =>
            cases found : latest id rest with
            | none =>
                simp only [live, found] at distinct ⊢
                have later := ih distinct
                simp only [counted]
                omega
            | some data =>
                simp only [live, found, entries, List.map_cons, List.nodup_cons] at distinct ⊢
                have later := ih distinct.2
                have more := counted_latest distinct.1 found
                simp only [weights, weight, counted]
                omega
  exact Nat.le_trans counted_live (counted_le _ _)

end Compaction

end Record

end TwinLog
