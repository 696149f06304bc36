import TwinLog.Proofs.MapRefinement
import TwinLog.Proofs.Scars
import TwinLog.Proofs.SingleFault

set_option autoImplicit false

namespace TwinLog

namespace Store

variable {store left : Store} {contents current : Contents} {records : List Record} {ufid : Ufid} {data : List UInt8}
  {torn : Bool}

/-- A store that finds `records` in its log, after the end of which at most one block is not erased. -/
structure Usable (store : Store) (contents : Contents) (records : List Record) : Prop where
  keeps : (store.tape contents).Keeps
    (Tape.unfinished store.partition.polarity (contents store.active) store.free) records
  room : store.free ≤ store.partition.blocks
  clear : ∀ position, store.free < position → contents store.active position = Block.blank store.partition.polarity
  unique : Record.Unique records

theorem Usable.harmless (_ : store.Usable contents records) :
    (store.tape contents).Harmless
      (Tape.unfinished store.partition.polarity (contents store.active) store.free) :=
  Tape.harmless_unfinished

theorem Usable.listed (usable : store.Usable contents records) : (store.tape contents).records [] 1 = records := by
  rw [usable.harmless.records (Nat.le_refl 1), usable.keeps.listed]

theorem InOrder.usable (inOrder : store.InOrder [] contents records) : store.Usable contents records := by
  refine ⟨?_, inOrder.room, fun position late => inOrder.settled.clear position (Nat.le_of_lt late), inOrder.unique⟩
  have keeps := inOrder.settled.toKeeps.leave_unfinished (Nat.le_refl _) (fun _ _ => rfl)
    (fun index late early => absurd early (Nat.not_lt.mpr late))
  rw [List.nil_append] at keeps
  exact keeps

/-- A store that knows of some of the blocks that were to be appended for a file, and of nothing after the next one, is
usable; unless it knows of all of them, no file has changed. -/
theorem InOrder.usable_part (inOrder : store.InOrder [] contents records) (small : data.length ≤ maxFileSize)
    {before after : List Block} (added : store.additions contents ufid data = some (before ++ after))
    (room : store.free + before.length ≤ store.partition.blocks)
    (same : ∀ index < store.free + before.length,
      current store.active index = contents.lay store.active store.free before store.active index)
    (clear : ∀ index, store.free + before.length < index →
      current store.active index = Block.blank store.partition.polarity) :
    ∃ kept, (store.grown before.length).Usable current kept ∧
      (after ≠ [] → Record.files kept = Record.files records) := by
  rw [additions, inOrder.listed (Tape.harmless_nil _)] at added
  obtain ⟨kept, keeps, unique, files⟩ := inOrder.settled.part_additions inOrder.unique small added same
  rw [List.nil_append] at keeps
  refine ⟨kept, ⟨keeps, room, clear, unique⟩, ?_⟩
  intro more
  exact files.resolve_right (fun all => more all.1)

/-- Where the appending of blocks for a file stopped, the store is usable, whatever was left of the next block. -/
theorem InOrder.usable_appending (inOrder : store.InOrder [] contents records) (small : data.length ≤ maxFileSize)
    {blocks : List Block} (added : store.additions contents ufid data = some blocks)
    (room : store.free + blocks.length ≤ store.partition.blocks)
    (appending : Appending store contents blocks torn left current) : ∃ kept, left.Usable current kept := by
  -- the blocks that the store knows of, and what there is after the next one
  have known : ∃ before after, blocks = before ++ after ∧ left = store.grown before.length ∧
      (∀ index < store.free + before.length,
        current store.active index = contents.lay store.active store.free before store.active index) ∧
      ∀ index, store.free + before.length < index →
        current store.active index = Block.blank store.partition.polarity := by
    cases appending with
    | whole before after split kept near =>
        rcases near with rfl | ⟨some_blocks, last⟩
        · refine ⟨before, after, split, rfl, fun _ _ => rfl, fun index late => ?_⟩
          rw [Contents.lay_apart _ _ (.inr (.inr (Nat.le_of_lt late)))]
          exact inOrder.settled.clear index (by change store.free ≤ index; omega)
        · obtain ⟨init, block, rfl⟩ : ∃ init block, before = init ++ [block] :=
            ⟨_, _, (List.dropLast_append_getLast some_blocks).symm⟩
          rw [List.length_append, List.length_singleton] at last
          have same : kept = store.free + init.length := by omega
          refine ⟨init, [block] ++ after, by rw [split, List.append_assoc], by rw [same, Store.grown], ?_, ?_⟩
          · intro index early
            rw [Contents.lay_append]
            exact Contents.lay_apart _ _ (.inr (.inl early))
          · intro index late
            rw [Contents.lay_apart _ _ (.inr (.inr (by rw [List.length_append, List.length_singleton]; omega)))]
            exact inOrder.settled.clear index (by change store.free ≤ index; omega)
    | torn before block after split count short =>
        refine ⟨before, block :: after, split, rfl, ?_, ?_⟩
        · intro index early
          exact Contents.put_apart _ _ (by rintro ⟨-, rfl⟩; omega)
        · intro index late
          rw [Contents.put_apart _ _ (by rintro ⟨-, rfl⟩; omega),
            Contents.lay_apart _ _ (.inr (.inr (Nat.le_of_lt late)))]
          exact inOrder.settled.clear index (by change store.free ≤ index; omega)
  obtain ⟨before, after, rfl, rfl, same, clear⟩ := known
  rw [List.length_append] at room
  obtain ⟨kept, usable, -⟩ := inOrder.usable_part small added (by omega) same clear
  exact ⟨kept, usable⟩

theorem Saving.usable (inOrder : store.InOrder [] contents records)
    (saving : store.Saving contents ufid data torn left current) : ∃ kept, left.Usable current kept := by
  have unique := inOrder.unique
  rw [← inOrder.listed (Tape.harmless_nil _)] at unique
  cases saving with
  | placing small blocks added room appending => exact inOrder.usable_appending small added room appending
  | turning torn rotating => exact ⟨records, (inOrder.congr (fun position late => rotating.kept late)).usable⟩
  | turned turn => exact ⟨_, (turn.inOrder unique).usable⟩
  | placingTurned small turn blocks added room appending =>
      exact (turn.inOrder unique).usable_appending small added room appending

theorem additions_first {block : Block} {rest : List Block}
    (added : store.additions contents ufid data = some (block :: rest)) :
    store.partition.polarity.kind block.info ≠ .cont := by
  rw [additions, Record.additions] at added
  split at added
  · rename_i id owner
    rw [Option.some.injEq] at added
    have some_blocks : 1 ≤ blocksNeeded data.length := by
      rw [← Chain.length_fresh store.partition.polarity id data, added, List.length_cons]
      exact Nat.le_add_left _ _
    obtain ⟨first, further, laid, info, -⟩ := Chain.encode_cons store.partition.polarity
      (store.partition.polarity.startWord (Chain.headOf id data)) some_blocks
    rw [Chain.fresh, laid, List.cons.injEq] at added
    rw [← added.1, info, Polarity.kind_startWord]
    intro same
    cases same
  · rw [Option.map_eq_some_iff] at added
    obtain ⟨id, -, laid⟩ := added
    rw [List.cons.injEq] at laid
    rw [← laid.1, Block.kind_of_binding (Block.binding?_entry store.partition.polarity id ufid)]
    intro same
    cases same

theorem additions_ne_nil (small : data.length ≤ maxFileSize) (added : store.additions contents ufid data = some []) :
    False := by
  rw [additions, Record.additions] at added
  split at added
  · rename_i id owner
    obtain ⟨first, further, laid, -⟩ := Chain.encode_cons store.partition.polarity
      (store.partition.polarity.startWord (Chain.headOf id data)) (Chain.one_le_of_small small)
    rw [Option.some.injEq, Chain.fresh, laid] at added
    cases added
  · rw [Option.map_eq_some_iff] at added
    obtain ⟨id, -, laid⟩ := added
    cases laid

/-- A save that a usable store acknowledges leaves it in order, with the file set. -/
theorem Usable.saved (usable : store.Usable contents records) {after : Contents}
    (saved : store.Saved contents ufid data (.ok ()) left after) :
    ∃ scars kept, left.partition = store.partition ∧ left.InOrder scars after kept ∧
      (left.tape after).Harmless scars ∧ Record.files kept ufid = some data := by
  have listed := usable.listed
  cases saved with
  | atOnce small placed enough =>
      cases placed with
      | @fits blocks added room =>
          have chosen := added
          rw [additions, listed] at chosen
          obtain ⟨kept, settled, unique, files, -⟩ := usable.keeps.lay_additions usable.unique usable.clear small chosen
          refine ⟨_, kept, rfl, ⟨settled, room, unique⟩, ?_, ?_⟩
          · cases blocks with
            | nil => exact (additions_ne_nil small added).elim
            | cons block rest =>
                refine Tape.harmless_covered ?_ ?_
                · intro index early
                  exact Contents.lay_apart _ _ (.inr (.inl early))
                · have first : contents.lay store.active store.free (block :: rest) store.active store.free = block :=
                    Contents.lay_first _ _ _
                  have kind := additions_first added
                  rw [← first] at kind
                  exact kind
          · rw [files, Files.set, if_pos rfl]
  | turned small added short turn placed =>
      rw [listed] at turn
      rcases placed.becomes (turn.inOrder usable.unique) (Tape.harmless_nil _) small with ⟨-, becomes⟩ | ⟨failed, -⟩
      · obtain ⟨scars, kept, moved, inOrder, files, -⟩ := becomes
        have clean : scars = [] := by cases moved <;> rfl
        subst clean
        have same : left.partition = store.partition := by
          cases moved with
          | stays same => exact same.trans turn.partition
          | turns same => exact same.trans turn.partition
        refine ⟨[], kept, same, inOrder, Tape.harmless_nil _, ?_⟩
        rw [files, Files.set, if_pos rfl]
      · rcases failed with failed | failed <;> cases failed

theorem Usable.achieves_save (usable : store.Usable contents records)
    (taken : store.TakesFirst contents ufid data) :
    store.partition.Achieves (fun value left after => store.Saved contents ufid data value left after)
      (fun _ _ _ => True) (store.save ufid data) store contents := by
  have unique := usable.unique
  rw [← usable.listed] at unique
  exact Partition.achieves_save usable.keeps.positive usable.room unique usable.clear taken (fun _ _ _ _ => trivial)
    (fun _ _ _ saved => saved)

section Legal

variable {μ : Type} [Medium μ] [LawfulMedium μ] {medium : μ}

open LawfulMedium

/-- To append a block legally, it must be possible to program it where it goes. -/
theorem taken_of_legal {block : Block} (fits : store.partition.Fits medium)
    (inside : store.free < store.partition.blocks) (legal : (store.append block).Legal medium) :
    Block.Takes store.partition.polarity (store.partition.contents medium store.active store.free) block := by
  intro position within
  obtain ⟨address, located, aligned, first, room⟩ := fits.address store.active inside
  have length := block.length_toList
  have script : (store.partition.append store.active store.free block : Script Store Nat) =
      .write address block.toList (.done (store.free + 1)) := by
    rw [Partition.append, located]
    rfl
  rw [append, script] at legal
  have taken := legal.1 position (by rw [length]; exact within)
  rw [read_inside fits.sound aligned (by omega), first, fits.polarity] at taken
  rw [Partition.contents_inside _ inside within, List.getD_eq_getElem _ _ (by rw [length]; exact within)]
  simpa only [length, List.getD_eq_getElem?_getD, List.getElem?_map, List.getElem?_range within, Option.map_some,
    Option.getD_some] using taken

theorem takesFirst_of_legal (fits : store.partition.Fits medium) (room : store.free ≤ store.partition.blocks)
    (small : data.length ≤ maxFileSize) (legal : (store.save ufid data).Legal medium) :
    store.TakesFirst (store.partition.contents medium) ufid data := by
  intro block rest added enough
  rw [save, if_neg (Nat.not_lt.mpr small)] at legal
  have placing := Script.legal_bind_first legal
  have observed : store.journal.partition.Observes (store.partition.contents medium)
      (store.journal.lookup ufid : Script Store Lookup) ((store.tape (store.partition.contents medium)).lookup ufid) :=
    Partition.observes_lookup room
  have ran := (observed μ medium fits rfl).run store
  have located := Tape.locates_lookup (store.tape (store.partition.contents medium)) ufid
  rw [place_eq store ufid small] at placing
  have chosen := Script.legal_bind placing ran
  have called := (additions_located located data).symm.trans added
  have left_over : store.usage.free = store.partition.blocks - store.free := rfl
  simp only [called] at chosen
  rw [if_pos (by rw [List.length_cons]; omega)] at chosen
  -- the block whose append comes first is the one in question
  have first : (store.append block).Legal medium := Script.legal_bind_first (Script.legal_bind_first chosen)
  exact taken_of_legal fits (by omega) first

end Legal

theorem Saving.partition (saving : store.Saving contents ufid data torn left current) :
    left.partition = store.partition := by
  cases saving with
  | placing small blocks added room appending => exact appending.partition
  | turning torn rotating => rfl
  | turned turn => exact turn.partition
  | placingTurned small turn blocks added room appending => exact appending.partition.trans turn.partition

end Store

namespace Session

variable {μ : Type} [Medium μ]

/-- Whether a save moves no bit back toward the erased state and breaks no precondition, and is read back if it is
acknowledged. -/
def SavesSoundly (session : Session μ) (store : Store) (ufid : Ufid) (data : List UInt8) : Prop :=
  (store.save ufid data).Legal session.medium ∧ ∃ answer last,
    session.perform (.save ufid data) = (.ok answer, last) ∧
      (answer = .done → (last.perform (.readAll ufid)).1 = .ok (.content data))

variable [LawfulMedium μ]

/-- A usable store saves soundly if and only if it can program the first block where it goes. -/
theorem savesSoundly_iff {store : Store} {medium : μ} {records : List Record} (fits : store.partition.Fits medium)
    (usable : store.Usable (store.partition.contents medium) records) {ufid : Ufid} {data : List UInt8}
    (small : data.length ≤ maxFileSize) :
    SavesSoundly ⟨medium, some store⟩ store ufid data ↔
      store.TakesFirst (store.partition.contents medium) ufid data := by
  constructor
  · rintro ⟨legal, -⟩
    exact Store.takesFirst_of_legal fits usable.room small legal
  · intro taken
    have achieved := usable.achieves_save taken
    obtain ⟨value, left, after, fits', saved, performed⟩ :=
      @change_of_achieves μ _ _ store.partition ⟨medium, some store⟩ store _ _ _ _ fits achieved (fun () => .done)
    refine ⟨(achieved μ medium fits rfl).legal, _, _, performed, ?_⟩
    intro acknowledged
    cases value with
    | error error => cases acknowledged
    | ok value =>
        obtain ⟨scars, kept, same, inOrder, harmless, found⟩ := usable.saved saved
        have serving : Serving store.partition ⟨after, some left⟩ left scars kept := ⟨rfl, same, fits', inOrder⟩
        obtain ⟨answer, _, _, _, read, -, -, step⟩ :=
          serving.perform harmless (.readAll ufid) (fun geometry mount => by cases mount)
        rw [read, step.reading, Files.reading, found]

/-- What a failed save leaves. After any history in which nothing had failed, one call of a save fails; a save that
follows is sound if and only if its first block, if it needs no rotation, can be programmed over what the failed write
left at the end of the log. -/
theorem failedSave_savesSoundly_iff {medium : μ} {geometry : Geometry}
    (fits : Partition.Fits ⟨Medium.polarity medium, geometry⟩ medium)
    (unmarked : ∀ log, (Partition.contents ⟨Medium.polarity medium, geometry⟩ medium).marked log = false)
    (earlier : List Request) (same : ∀ other, .mount other ∈ earlier → other = geometry) {answers : List Answer}
    {session : Session μ} (reached : performAll ⟨medium, none⟩ (.mount geometry :: earlier) = (answers, none, session))
    {store left : Store} (mounted : session.store = some store) {ufid : Ufid} {data : List UInt8}
    {error : MediumError} {kept index : Nat} {after : μ}
    (failed : (store.save ufid data).runFailing error kept index store session.medium =
      ⟨.error (.error (.medium error)), left, after⟩)
    (next : Ufid) (content : List UInt8) (small : content.length ≤ maxFileSize) :
    SavesSoundly ⟨after, some left⟩ left next content ↔
      left.TakesFirst (Partition.contents ⟨Medium.polarity medium, geometry⟩ after) next content := by
  obtain ⟨_, _, known, records, performed, current, -⟩ := performAll_unmarked fits unmarked earlier same
  rw [reached] at performed
  obtain ⟨rfl, -, rfl⟩ : _ ∧ _ ∧ _ := by simpa only [Prod.mk.injEq] using performed
  obtain ⟨knows, together, room, inOrder⟩ := current.serving
  rw [mounted, Option.some.injEq] at knows
  subst knows
  rw [← together] at room inOrder ⊢
  have achieved : store.partition.Achieves (fun _ _ _ => True)
      (store.Saving (store.partition.contents session.medium) ufid data) (store.save ufid data) store
      (store.partition.contents session.medium) :=
    Partition.achieves_save_inOrder inOrder (Tape.harmless_nil _) (fun _ _ _ saving => saving)
      (fun _ _ _ _ => trivial)
  obtain ⟨torn, fits', saving⟩ := (achieved μ session.medium room rfl).failing error kept index
  rw [failed] at fits' saving
  obtain ⟨kept, usable⟩ := saving.usable inOrder
  rw [← saving.partition] at fits' usable ⊢
  exact savesSoundly_iff fits' usable small

section TornBlock

set_option maxRecDepth 8192

def oneFile : Session Simulated :=
  (performAll ⟨unwritten, none⟩ [.mount ⟨0, 128, 128⟩, .save (Vector.replicate 12 7) [1]]).2.2

theorem performAll_oneFile :
    performAll ⟨unwritten, none⟩ [.mount ⟨0, 128, 128⟩, .save (Vector.replicate 12 7) [1]] =
      ([.done, .done], none, oneFile) := by
  rfl

def tornSave : Outcome Store Simulated Unit :=
  Script.runFailing .device 3 (Store.save ⟨⟨.ones, ⟨0, 128, 128⟩⟩, .a, 3⟩ (Vector.replicate 12 7) [2]) 1
    ⟨⟨.ones, ⟨0, 128, 128⟩⟩, .a, 3⟩ oneFile.medium

theorem tornSave_fails : tornSave = ⟨.error (.error (.medium .device)), tornSave.state, tornSave.medium⟩ := by
  have ended : tornSave.result = .error (.error (.medium .device)) := by decide +kernel
  rw [← ended]

/-- After such a failure the next save moves a bit back toward the erased state. -/
theorem failedSave_moves_bit_back :
    performAll ⟨unwritten, none⟩ [.mount ⟨0, 128, 128⟩, .save (Vector.replicate 12 7) [1]] =
        ([.done, .done], none, oneFile) ∧
      Script.runFailing .device 3 (Store.save ⟨⟨.ones, ⟨0, 128, 128⟩⟩, .a, 3⟩ (Vector.replicate 12 7) [2]) 1
        ⟨⟨.ones, ⟨0, 128, 128⟩⟩, .a, 3⟩ oneFile.medium =
          ⟨.error (.error (.medium .device)), tornSave.state, tornSave.medium⟩ ∧
      (Session.perform ⟨tornSave.medium, some tornSave.state⟩ (.save (Vector.replicate 12 7) [3])).1 =
        .error (.illegalWrite 25 2 3) :=
  ⟨performAll_oneFile, tornSave_fails, by rfl⟩

/-- What that failed save leaves, for the next one of the same file. -/
theorem failedSave_savesSoundly_iff_tornSave :
    SavesSoundly ⟨tornSave.medium, some tornSave.state⟩ tornSave.state (Vector.replicate 12 7) [3] ↔
      tornSave.state.TakesFirst (Partition.contents ⟨.ones, ⟨0, 128, 128⟩⟩ tornSave.medium) (Vector.replicate 12 7)
        [3] := by
  refine @failedSave_savesSoundly_iff Simulated _ _ unwritten ⟨0, 128, 128⟩ unwritten_fits ?_
    [.save (Vector.replicate 12 7) [1]] ?_ _ _ performAll_oneFile ⟨⟨.ones, ⟨0, 128, 128⟩⟩, .a, 3⟩ _ (by rfl)
    (Vector.replicate 12 7) [2] .device 3 1 _ tornSave_fails _ _ (by decide)
  · intro log
    cases log <;> decide
  · intro other member
    simp at member

end TornBlock

end Session

end TwinLog
