import TwinLog.Proofs.Pruning
import TwinLog.Proofs.TapeChanges

set_option autoImplicit false

namespace TwinLog

namespace Tape

/-- Where the entry of `ufid` is from the index `start` on, `used` being the ids of the entries before. -/
def Locates (tape : Tape) (ufid : Ufid) (start : Nat) (used : List FileId) : Lookup → Prop
  | .found id index =>
      start ≤ index ∧ index < tape.stop ∧ (tape.blocks index).binding? tape.polarity = some (id, ufid) ∧
        ∃ before, tape.records [] start = before ++ .entry id ufid :: tape.records [] (index + 1) ∧
          ufid ∉ (Record.entries before).map Prod.snd
  | .vacant id =>
      ufid ∉ (Record.entries (tape.records [] start)).map Prod.snd ∧
        id = FileId.lowestUnused
          (((Record.entries (tape.records [] start)).map Prod.fst).reverse ++ used)

theorem Locates.owner_found {tape : Tape} {ufid : Ufid} {id : FileId} {index : Nat}
    (located : tape.Locates ufid 1 [] (.found id index)) : Record.owner? (tape.records [] 1) ufid = some id := by
  obtain ⟨-, -, -, before, split, absent⟩ := located
  have none : (Record.entries before).find? (fun binding => binding.2 = ufid) = none := by
    rw [List.find?_eq_none]
    intro binding member same
    exact absent (List.mem_map.mpr ⟨binding, member, by simpa using same⟩)
  rw [Record.owner?, split, Record.entries_append, List.find?_append, none, Record.entries, Option.none_or,
    List.find?_cons_of_pos (by simp)]
  rfl

theorem Locates.owner_vacant {tape : Tape} {ufid : Ufid} {id : Option FileId}
    (located : tape.Locates ufid 1 [] (.vacant id)) :
    Record.owner? (tape.records [] 1) ufid = none ∧
      id = FileId.lowestUnused ((Record.entries (tape.records [] 1)).map Prod.fst) := by
  obtain ⟨absent, lowest⟩ := located
  rw [List.append_nil, FileId.lowestUnused_reverse] at lowest
  refine ⟨?_, lowest⟩
  rw [Record.owner?, Option.map_eq_none_iff, List.find?_eq_none]
  intro binding member same
  exact absent (List.mem_map.mpr ⟨binding, member, by simpa using same⟩)

/-- The content of a file is the last one that its id has behind its first entry. -/
theorem Locates.files_found {tape : Tape} {ufid : Ufid} {id : FileId} {index : Nat}
    (located : tape.Locates ufid 1 [] (.found id index)) :
    Record.files (tape.records [] 1) ufid = Record.latest id (tape.records [] (index + 1)) := by
  obtain ⟨-, -, -, before, split, absent⟩ := located
  rw [split, Record.files_skip absent, Record.files, if_pos rfl]

theorem Locates.files_vacant {tape : Tape} {ufid : Ufid} {id : Option FileId}
    (located : tape.Locates ufid 1 [] (.vacant id)) : Record.files (tape.records [] 1) ufid = none :=
  Record.files_absent located.1

theorem Holds.unscarred {tape : Tape} {scars : List Nat} {id : FileId} {start : Nat} {chain : Chain}
    (holds : tape.Holds id start chain) (harmless : tape.Harmless scars) (positive : 1 ≤ start) :
    chain.start ∉ scars := by
  intro scar
  have silent := harmless _ scar (Nat.le_trans positive holds.from_start)
  rw [holds.record] at silent
  cases silent

theorem locates_lookupIn (tape : Tape) (ufid : Ufid) (start : Nat) (used : List FileId) :
    tape.Locates ufid start used (tape.lookupIn ufid (List.range' start (tape.stop - start)) used) := by
  -- along the blocks from `start` on; what is found behind the first of them has its record in front
  by_cases early : start < tape.stop
  · have step := tape.records_step [] early
    rw [visible, if_neg List.not_mem_nil] at step
    rw [show tape.stop - start = tape.stop - (start + 1) + 1 by omega, List.range'_succ, lookupIn]
    cases bound : (tape.blocks start).binding? tape.polarity with
    | some binding =>
        obtain ⟨id, owner⟩ := binding
        rw [recordAt_entry bound, Option.toList_some, List.singleton_append] at step
        simp only
        split
        · rename_i same
          subst same
          exact ⟨Nat.le_refl _, early, bound, [], step, List.not_mem_nil⟩
        · rename_i apart
          have later := locates_lookupIn tape ufid (start + 1) (id :: used)
          cases answer : tape.lookupIn ufid (List.range' (start + 1) (tape.stop - (start + 1))) (id :: used) with
          | found other position =>
              rw [answer] at later
              obtain ⟨late, inside, there, skipped, split, absent⟩ := later
              refine ⟨by omega, inside, there, .entry id owner :: skipped, ?_, ?_⟩
              · rw [step, split, List.cons_append]
              · rw [Record.entries, List.map_cons, List.mem_cons, not_or]
                exact ⟨fun same => apart same.symm, absent⟩
          | vacant unused =>
              rw [answer] at later
              obtain ⟨absent, lowest⟩ := later
              rw [Locates, step, Record.entries, List.map_cons, List.mem_cons, not_or, List.map_cons,
                List.reverse_cons, List.append_assoc]
              exact ⟨⟨fun same => apart same.symm, absent⟩, lowest⟩
    | none =>
        have silent : Record.entries (tape.recordAt start).toList = [] := by
          cases shown : tape.recordAt start with
          | none => rfl
          | some record =>
              obtain ⟨id, data, rfl⟩ := recordAt_unbound bound shown
              rfl
        have later := locates_lookupIn tape ufid (start + 1) used
        simp only
        cases answer : tape.lookupIn ufid (List.range' (start + 1) (tape.stop - (start + 1))) used with
        | found other position =>
            rw [answer] at later
            obtain ⟨late, inside, there, skipped, split, absent⟩ := later
            refine ⟨by omega, inside, there, (tape.recordAt start).toList ++ skipped, ?_, ?_⟩
            · rw [step, split, List.append_assoc]
            · rw [Record.entries_append, silent, List.nil_append]
              exact absent
        | vacant unused =>
            rw [answer] at later
            rw [Locates, step, Record.entries_append, silent, List.nil_append]
            exact later
  · have none : tape.records [] start = [] := records_done _ (by omega)
    rw [Nat.sub_eq_zero_of_le (by omega), List.range'_zero, lookupIn, Locates, none]
    exact ⟨List.not_mem_nil, rfl⟩
termination_by tape.stop - start

/-- What a lookup finds is the first entry of the identifier. -/
theorem locates_lookup (tape : Tape) (ufid : Ufid) : tape.Locates ufid 1 [] (tape.lookup ufid) :=
  tape.locates_lookupIn ufid 1 []

end Tape

namespace Partition

variable {σ : Type} {cut : Bool → σ → Contents → Prop} {state : σ} {contents : Contents}

theorem achieves_lookup {journal : Journal} {result : Except StoreError Lookup → σ → Contents → Prop} {ufid : Ufid}
    (inside : journal.stop ≤ journal.partition.blocks) (here : cut false state contents)
    (next : ∀ answer, (journal.tape contents).Locates ufid 1 [] answer → result (.ok answer) state contents) :
    journal.partition.Achieves result cut (journal.lookup ufid) state contents :=
  (observes_lookup inside).achieves here (next _ (Tape.locates_lookup _ _))

section Latest

variable {journal : Journal} {result : Except StoreError (Option Chain) → σ → Contents → Prop} {id : FileId}
  {prune : Bool} {start : Nat} {origin : Contents}

/-- What is kept by making a chain void that a later one takes the place of is kept by each step of the walk. -/
theorem superseded_keeps (rest : Contents → Prop)
    (pruned : prune = true → ∀ current older newer, rest current →
      (∀ position, older.start ≤ position → current journal.log position = origin journal.log position) →
      (journal.tape origin).Holds id start older → (journal.tape origin).Holds id start newer →
      older.start < newer.start → rest (current.put journal.log older.start [journal.polarity.voidWord]))
    (now : rest origin) (count : Nat) :
    rest (origin.voided journal.polarity journal.log
      ((Chain.superseded prune ((journal.tape origin).chains id start)).take count)) := by
  induction count with
  | zero => rwa [List.take_zero, Contents.voided_nil]
  | succ count ih =>
      by_cases more : count < (Chain.superseded prune ((journal.tape origin).chains id start)).length
      · have sorted := (Tape.superseded_sorted (journal.tape origin) id start prune).sublist
          (List.take_sublist (count + 1) _)
        rw [List.take_succ_eq_append_getElem more] at sorted ⊢
        obtain ⟨older, last, holds, first, found, before⟩ := Tape.superseded_chains (List.getElem_mem more)
        rw [← first] at sorted before ⊢
        have behind (index : Nat) (member : index ∈ List.take count _) : index < older.start :=
          (List.pairwise_append.mp sorted).2.2 index member older.start (List.mem_singleton_self _)
        rw [← Contents.voided_concat (fun member => Nat.lt_irrefl _ (behind _ member))]
        refine pruned ?_ _ older last ih ?_ holds (Tape.getLast?_chains.mp found).1 before
        · cases prune
          · cases more
          · rfl
        · intro position late
          refine Contents.voided_apart (fun member => ?_) _
          have earlier := behind position member
          omega
      · rw [List.take_of_length_le (by omega)] at ih ⊢
        exact ih

/-- Looking for the last chain of a file from the index `start` on. The walk only ever changes what is behind it, so
`rest` needs to be kept by making a chain void that a later one takes the place of. -/
theorem achieves_latest (rest : Contents → Prop) (inside : journal.stop ≤ journal.partition.blocks)
    (cuts : ∀ torn current, rest current → cut torn state current)
    (pruned : prune = true → ∀ current older newer, rest current →
      (∀ position, older.start ≤ position → current journal.log position = origin journal.log position) →
      (journal.tape origin).Holds id start older → (journal.tape origin).Holds id start newer →
      older.start < newer.start → rest (current.put journal.log older.start [journal.polarity.voidWord]))
    (now : rest origin)
    (next : ∀ answer after, rest after →
      (∀ chain, answer = some chain → (journal.tape origin).Holds id start chain ∧
        ∀ position, chain.start ≤ position → after journal.log position = origin journal.log position) →
      answer.map (fun chain => chain.content (origin journal.log)) =
        Record.latest id ((journal.tape origin).records [] start) → result (.ok answer) state after) :
    journal.partition.Achieves result cut (journal.latest id start prune) state origin := by
  rintro μ _ _ medium fits rfl
  have shown {count : Nat} {after : μ} (voided : journal.partition.Voided journal.log ((Chain.superseded prune
      ((journal.tape (journal.partition.contents medium)).chains id start)).take count) medium after) :
      rest (journal.partition.contents after) := by
    rw [voided.contents fits ?_]
    · exact superseded_keeps rest pruned now count
    · intro index member
      have early := Tape.superseded_inside (List.mem_of_mem_take member)
      exact Nat.lt_of_lt_of_le early inside
  refine ensures_latest inside fits _ rfl ?_ ?_
  · intro torn count after voided
    exact ⟨voided.fits, cuts torn _ (shown voided)⟩
  · intro after voided _
    have whole := voided
    rw [← List.take_length (l := Chain.superseded prune _)] at whole
    refine ⟨voided.fits, next _ _ (shown whole) ?_ ?_⟩
    · intro chain last
      refine ⟨(Tape.getLast?_chains.mp last).1, ?_⟩
      intro position late
      rw [voided.contents fits (fun index member => Nat.lt_of_lt_of_le (Tape.superseded_inside member) inside)]
      refine Contents.voided_apart ?_ _
      intro member
      have before := Tape.superseded_behind last member
      omega
    · rw [Tape.latest_records]
      rfl

theorem achieves_last (inside : journal.stop ≤ journal.partition.blocks) (here : ∀ torn, cut torn state contents)
    (next : result (.ok ((journal.tape contents).chains id start).getLast?) state contents) :
    journal.partition.Achieves result cut (journal.latest id start false) state contents := by
  rintro μ _ _ medium fits rfl
  have same {after : μ} (voided : journal.partition.Voided journal.log [] medium after) :
      journal.partition.contents after = journal.partition.contents medium := by
    rw [voided.contents fits (fun start member => absurd member List.not_mem_nil), Contents.voided_nil]
  refine ensures_latest inside fits _ rfl ?_ ?_
  · intro torn count after voided
    rw [Chain.superseded_false, List.take_nil] at voided
    rw [same voided]
    exact ⟨voided.fits, here torn⟩
  · intro after voided _
    rw [same voided]
    exact ⟨voided.fits, next⟩

end Latest

section Content

variable {journal : Journal} {chain : Chain} {note : List UInt8 → Script σ Unit} {states : List UInt8 → σ}

/-- Content that is cut off at `limit` can be cut off block by block. -/
theorem take_limit (copied bytes later : List UInt8) (limit : Nat) (short : copied.length ≤ limit) :
    (copied ++ bytes.take (limit - copied.length) ++ later).take limit = (copied ++ (bytes ++ later)).take limit := by
  rw [List.append_assoc, List.take_append, List.take_append, List.take_append, List.take_append, List.take_take,
    Nat.min_self, List.length_take]
  by_cases fits : bytes.length ≤ limit - copied.length
  · rw [Nat.min_eq_right fits]
  · rw [Nat.min_eq_left (by omega), Nat.sub_self, show limit - copied.length - bytes.length = 0 by omega]

/-- Reading a chain delivers its content up to `limit` bytes, where each block hands what was read so far to `note`. -/
theorem achieves_readLast {result : Except StoreError (List UInt8) → σ → Contents → Prop} {limit : Nat}
    (inside : chain.stop ≤ journal.partition.blocks) (here : ∀ copied, cut false (states copied) contents)
    (noted : ∀ (result : Except StoreError Unit → σ → Contents → Prop) (before copied : List UInt8),
      result (.ok ()) (states copied) contents →
      journal.partition.Achieves result cut (note copied) (states before) contents)
    (remaining : Nat) (enough : remaining ≤ chain.count) (copied : List UInt8) (short : copied.length ≤ limit)
    (next : ∀ content, content = (copied ++ Chain.gather chain.head chain.count (chain.count - remaining)
        ((List.range' (chain.stop - remaining) remaining).map (contents journal.log))).take limit →
      result (.ok content) (states content) contents) :
    journal.partition.Achieves result cut (journal.readLast chain limit note remaining copied) (states copied)
      contents := by
  induction remaining generalizing copied with
  | zero =>
      refine achieves_pure (here _) (next copied ?_)
      rw [List.range'_zero, List.map_nil, Chain.gather, List.append_nil, List.take_of_length_le short]
  | succ remaining ih =>
      rw [Journal.readLast]
      split
      · refine achieves_pure (here _) (next copied ?_)
        rw [List.take_append_of_le_length (by omega), List.take_of_length_le short]
      · rename_i more
        have stop : chain.stop = chain.start + chain.count := rfl
        have first : chain.start + (chain.count - (remaining + 1)) = chain.stop - (remaining + 1) := by omega
        refine Achieves.bind (achieves_load (by omega) (here _) ?_)
        refine Achieves.bind (noted _ copied _ ?_)
        refine ih (by omega) _ (by rw [List.length_append, List.length_take]; omega) ?_
        intro content taken
        apply next
        rw [taken, take_limit _ _ _ _ short, List.range'_succ, List.map_cons, Chain.gather, first,
          show chain.stop - (remaining + 1) + 1 = chain.stop - remaining by omega,
          show chain.count - (remaining + 1) + 1 = chain.count - remaining by omega]
        rfl

theorem achieves_read (journal : Journal) (states : List UInt8 → σ)
    {result : Except StoreError (List UInt8) → σ → Contents → Prop} {limit : Nat}
    (inside : chain.stop ≤ journal.partition.blocks) (here : ∀ copied, cut false (states copied) contents)
    (noted : ∀ (result : Except StoreError Unit → σ → Contents → Prop) (before copied : List UInt8),
      result (.ok ()) (states copied) contents →
      journal.partition.Achieves result cut (note copied) (states before) contents)
    (next : ∀ content, content = (chain.content (contents journal.log)).take limit →
      result (.ok content) (states content) contents) :
    journal.partition.Achieves result cut (journal.read chain limit note) (states []) contents := by
  refine achieves_readLast inside here noted chain.count (Nat.le_refl _) [] (Nat.zero_le _) ?_
  intro content taken
  apply next
  rw [taken, List.nil_append, Nat.sub_self, Chain.content, Chain.data, List.take_take, Chain.extent,
    show chain.stop - chain.count = chain.start by simp only [Chain.stop]; omega]
  rfl

/-- Reading a chain into a buffer fills it from the front with the content as far as it goes. -/
theorem achieves_copy (journal : Journal) (buffer : List UInt8)
    {result : Except StoreError (List UInt8) → List UInt8 → Contents → Prop}
    {cut : Bool → List UInt8 → Contents → Prop} (inside : chain.stop ≤ journal.partition.blocks)
    (here : ∀ left, cut false left contents)
    (next : result (.ok ((chain.content (contents journal.log)).take buffer.length))
      ((chain.content (contents journal.log)).take buffer.length ++
        buffer.drop (chain.content (contents journal.log)).length) contents) :
    journal.partition.Achieves result cut
      (journal.read chain buffer.length fun copied => Script.leave (copied ++ buffer.drop copied.length)) buffer
      contents := by
  change journal.partition.Achieves result cut _ ((fun copied => copied ++ buffer.drop copied.length) []) contents
  refine achieves_read journal (fun copied => copied ++ buffer.drop copied.length) inside (fun _ => here _) ?_ ?_
  · intro result before copied noted
    exact achieves_leave (here _) (here _) noted
  · rintro content rfl
    have untouched : buffer.drop ((chain.content (contents journal.log)).take buffer.length).length =
        buffer.drop (chain.content (contents journal.log)).length := by
      rw [List.length_take]
      by_cases short : buffer.length ≤ (chain.content (contents journal.log)).length
      · rw [Nat.min_eq_left short, List.drop_length, List.drop_of_length_le short]
      · rw [Nat.min_eq_right (by omega)]
    simp only [untouched]
    exact next

end Content

section End

theorem exists_end (partition : Partition) (contents : Contents) (log : Log) {free : Nat} (positive : 1 ≤ free) :
    ∃ last, 1 ≤ last ∧ last ≤ free ∧
      (∀ index, last ≤ index → index < free → contents log index = Block.blank partition.polarity) ∧
      (last = 1 ∨ contents log (last - 1) ≠ Block.blank partition.polarity) := by
  induction free with
  | zero => omega
  | succ free ih =>
      by_cases first : free = 0
      · exact ⟨1, Nat.le_refl _, positive, by omega, .inl rfl⟩
      by_cases blank : contents log free = Block.blank partition.polarity
      · obtain ⟨last, late, early, erased, ends⟩ := ih (by omega)
        refine ⟨last, late, by omega, ?_, ends⟩
        intro index from_last before
        by_cases same : index = free
        · rw [same, blank]
        · exact erased index from_last (by omega)
      · exact ⟨free + 1, positive, Nat.le_refl _, by omega, .inr blank⟩

/-- Looking for the end of a log finds the index after its last block that is not erased. -/
theorem achieves_freeBelow {partition : Partition} {log : Log} {result : Except StoreError Nat → σ → Contents → Prop}
    (here : cut false state contents) (free : Nat) (positive : 1 ≤ free) (inside : free ≤ partition.blocks)
    (next : ∀ last, 1 ≤ last → last ≤ free →
      (∀ index, last ≤ index → index < free → contents log index = Block.blank partition.polarity) →
      (last = 1 ∨ contents log (last - 1) ≠ Block.blank partition.polarity) → result (.ok last) state contents) :
    partition.Achieves result cut (partition.freeBelow log free) state contents := by
  obtain ⟨last, late, early, blank, ends⟩ := exists_end partition contents log positive
  exact (observes_freeBelow late early inside blank ends).achieves here (next last late early blank ends)

end End

end Partition

end TwinLog
