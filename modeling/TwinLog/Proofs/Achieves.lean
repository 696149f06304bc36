import TwinLog.Proofs.Observing

set_option autoImplicit false

namespace TwinLog.Partition

open LawfulMedium

variable {σ α β : Type}

/-- On every medium in working order that holds `contents`, the operation ends with a result or an error of its own
that satisfies `result`, is legal, and leaves behind what satisfies `cut` wherever it is interrupted. -/
def Achieves (partition : Partition) (result : Except StoreError α → σ → Contents → Prop)
    (cut : Bool → σ → Contents → Prop) (script : Script σ α) (state : σ) (contents : Contents) : Prop :=
  ∀ (μ : Type) [Medium μ] [LawfulMedium μ] (medium : μ), partition.Fits medium →
    partition.contents medium = contents →
    Script.Ensures (fun value left after => partition.Fits after ∧ result value left (partition.contents after))
      (fun torn left after => partition.Fits after ∧ cut torn left (partition.contents after)) script state medium

variable {partition : Partition} {cut : Bool → σ → Contents → Prop} {state : σ} {contents : Contents}

theorem Achieves.mono {result result' : Except StoreError α → σ → Contents → Prop} {cut' : Bool → σ → Contents → Prop}
    {script : Script σ α} (achieved : partition.Achieves result cut script state contents)
    (weaker : ∀ value state contents, result value state contents → result' value state contents)
    (cutWeaker : ∀ torn state contents, cut torn state contents → cut' torn state contents) :
    partition.Achieves result' cut' script state contents := by
  intro μ _ _ medium fits same
  exact (achieved μ medium fits same).mono (fun _ _ _ holds => ⟨holds.1, weaker _ _ _ holds.2⟩)
    (fun _ _ _ holds => ⟨holds.1, cutWeaker _ _ _ holds.2⟩)

theorem Achieves.bind {result : Except StoreError β → σ → Contents → Prop} {script : Script σ α}
    {next : α → Script σ β}
    (achieved : partition.Achieves (fun value state contents =>
      match value with
      | .ok value => partition.Achieves result cut (next value) state contents
      | .error error => result (.error error) state contents) cut script state contents) :
    partition.Achieves result cut (script >>= next) state contents := by
  intro μ _ _ medium fits same
  rw [Script.ensures_bind]
  refine (achieved μ medium fits same).mono ?_ (fun _ _ _ holds => holds)
  rintro (error | value) left after ⟨fits', holds⟩
  · exact ⟨fits', holds⟩
  · exact holds μ after fits' rfl

theorem Achieves.ran {μ : Type} [Medium μ] [LawfulMedium μ] {medium : μ} (fits : partition.Fits medium)
    {script : Script σ α} {value : α} {left : σ}
    (achieved : partition.Achieves (fun result last current => result = .ok value ∧ last = left ∧ current = contents)
      (fun _ _ _ => True) script state (partition.contents medium)) :
    ∃ after, script.run state medium = ⟨.ok value, left, after⟩ ∧ partition.Fits after ∧
      partition.contents after = contents := by
  refine Script.Ensures.ran ((achieved μ medium fits rfl).mono ?_ (fun _ _ _ holds => holds))
  rintro result last after ⟨fits', delivers, same, holds⟩
  exact ⟨delivers, same, fits', holds⟩

variable {result : Except StoreError α → σ → Contents → Prop}

theorem achieves_done {value : α} (here : cut false state contents) (next : result (.ok value) state contents) :
    partition.Achieves result cut (.done value) state contents := by
  rintro μ _ _ medium fits rfl
  exact ⟨⟨fits, here⟩, fits, next⟩

theorem achieves_pure {value : α} (here : cut false state contents) (next : result (.ok value) state contents) :
    partition.Achieves result cut (pure value) state contents :=
  achieves_done here next

theorem achieves_fail {error : StoreError} (here : cut false state contents)
    (next : result (.error error) state contents) :
    partition.Achieves result cut (Script.fail error) state contents := by
  rintro μ _ _ medium fits rfl
  exact ⟨⟨fits, here⟩, fits, next⟩

theorem achieves_leave {kept : σ} {result : Except StoreError Unit → σ → Contents → Prop}
    (here : cut false state contents) (kept_here : cut false kept contents) (next : result (.ok ()) kept contents) :
    partition.Achieves result cut (Script.leave kept) state contents := by
  rintro μ _ _ medium fits rfl
  exact ⟨⟨fits, here⟩, ⟨fits, kept_here⟩, fits, next⟩

theorem achieves_discard {script : Script σ α} {result : Except StoreError Unit → σ → Contents → Prop}
    (achieved : partition.Achieves (fun value state contents =>
      match value with
      | .ok _ => partition.Achieves result cut (pure ()) state contents
      | .error error => result (.error error) state contents) cut script state contents) :
    partition.Achieves result cut (discard script) state contents :=
  Achieves.bind achieved

/-- What an operation that only reads comes to is achieved wherever it holds of the blocks as they are. -/
theorem Observes.achieves {script : Script σ α} {value : α} (observes : partition.Observes contents script value)
    (here : cut false state contents) (next : result (.ok value) state contents) :
    partition.Achieves result cut script state contents := by
  rintro μ _ _ medium fits rfl
  exact (observes μ medium fits rfl).ensures ⟨fits, here⟩ ⟨fits, next⟩

theorem achieves_load {log : Log} {index : Nat} {result : Except StoreError Block → σ → Contents → Prop}
    (inside : index < partition.blocks) (here : cut false state contents)
    (next : result (.ok (contents log index)) state contents) :
    partition.Achieves result cut (partition.load log index) state contents :=
  (observes_load inside).achieves here next

/-- Programming words at the start of a block overlays that block and leaves the others as they are. -/
theorem contents_programmed {μ : Type} [Medium μ] [LawfulMedium μ] {medium after : μ} (fits : partition.Fits medium)
    {log : Log} {index : Nat} (inside : index < partition.blocks) {words : List Word} (short : words.length ≤ 8)
    (cells : ∀ position, cell after position =
      if partition.cellOf log index ≤ position ∧ position < partition.cellOf log index + words.length then
        words.getD (position - partition.cellOf log index) 0
      else cell medium position) :
    partition.contents after = (partition.contents medium).put log index words := by
  funext other position
  by_cases within : position < partition.blocks
  · apply Block.ext_getD
    intro offset small
    rw [contents_inside other within small, cells]
    by_cases same : other = log ∧ position = index
    · obtain ⟨rfl, rfl⟩ := same
      rw [Contents.put_same, Block.getD_overlay _ _ _ small, contents_inside other within small,
        Nat.add_sub_cancel_left]
      by_cases early : offset < words.length
      · rw [if_pos early, if_pos (by omega)]
      · rw [if_neg early, if_neg (by omega)]
    · have apart := fits.cells_apart inside within same
      rw [Contents.put_apart _ _ same, contents_inside other within small, if_neg (by omega)]
  · rw [contents_outside other (by omega), Contents.put_apart _ _ (by rintro ⟨-, rfl⟩; exact within inside),
      contents_outside other (by omega)]

theorem Fits.preserved {μ : Type} [Medium μ] [LawfulMedium μ] {medium after : μ} (fits : partition.Fits medium)
    (sound : Sound after) (polarity : Medium.polarity after = Medium.polarity medium)
    (pageSize : Medium.pageSize after = Medium.pageSize medium) (count : cellCount after = cellCount medium) :
    partition.Fits after :=
  ⟨sound, polarity.trans fits.polarity, pageSize ▸ fits.checked, fits.addressable, count ▸ fits.inside⟩

theorem Fits.programmed {μ : Type} [Medium μ] [LawfulMedium μ] {medium : μ} (fits : partition.Fits medium) {log : Log}
    {index : Nat} {address : Address} (located : partition.address log index = .ok address)
    (words : List Word) (short : words.length ≤ 8)
    (taken : ∀ position (within : position < words.length),
      partition.polarity.canProgram ((partition.contents medium log index).toList.getD position 0)
        words[position] = true) :
    ∃ after, Medium.write medium address words false = (.ok (), after) ∧ partition.Fits after ∧
      partition.contents after = (partition.contents medium).put log index words := by
  obtain ⟨inside, aligned, first, room⟩ := fits.located located
  obtain ⟨after, ran, sound, polarity, pageSize, count, cells⟩ :=
    @write_inside μ _ _ medium address words fits.sound aligned (by omega) (by
      intro position within
      rw [first, fits.polarity, ← contents_inside log inside (by omega)]
      exact taken position within)
  rw [first] at cells
  exact ⟨after, ran, fits.preserved sound polarity pageSize count, contents_programmed fits inside short cells⟩

/-- Words are programmed over the start of a block, provided that they can be; an interruption leaves some of them. -/
theorem achieves_program {log : Log} {index : Nat} {words : List Word}
    {result : Except StoreError Unit → σ → Contents → Prop} (inside : index < partition.blocks)
    (short : words.length ≤ 8)
    (taken : ∀ position (within : position < words.length),
      partition.polarity.canProgram ((contents log index).toList.getD position 0) words[position] = true)
    (here : cut false state contents)
    (torn : ∀ count < words.length, cut true state (contents.put log index (words.take count)))
    (whole : cut false state (contents.put log index words))
    (next : result (.ok ()) state (contents.put log index words)) :
    partition.Achieves result cut
      (do Script.program (← Script.require (partition.address log index)) words) state contents := by
  rintro μ _ _ medium fits rfl
  obtain ⟨address, located, aligned, first, room⟩ := fits.address log inside
  have script : (do Script.program (← Script.require (partition.address log index)) words : Script σ Unit) =
      .write address words (.done ()) := by
    rw [located]
    rfl
  obtain ⟨after, ran, fits', shown⟩ := fits.programmed located words short taken
  simp only [script, Script.Ensures, ran, shown]
  refine ⟨⟨fits, here⟩, ?_, ?_, ⟨fits', whole⟩, fits', next⟩
  · intro position within
    rw [read_inside fits.sound aligned (by omega), first, fits.polarity]
    have cellHere := taken position within
    rw [contents_inside log inside (by omega)] at cellHere
    simpa [List.getD_eq_getElem?_getD, within] using cellHere
  · intro count fewer
    obtain ⟨after', ran', fits', shown'⟩ := fits.programmed located (words.take count)
      (by rw [List.length_take]; omega) (by
        intro position within
        rw [List.getElem_take]
        exact taken position (by rw [List.length_take] at within; omega))
    refine ⟨after', ran', fits', ?_⟩
    rw [shown']
    exact torn count fewer

theorem achieves_append {log : Log} {free : Nat} {block : Block} {result : Except StoreError Nat → σ → Contents → Prop}
    (inside : free < partition.blocks)
    (taken : Block.Takes partition.polarity (contents log free) block)
    (here : cut false state contents)
    (torn : ∀ count < 8, cut true state (contents.put log free (block.toList.take count)))
    (whole : cut false state (contents.put log free block.toList))
    (next : result (.ok (free + 1)) state (contents.put log free block.toList)) :
    partition.Achieves result cut (partition.append log free block) state contents := by
  have length := block.length_toList
  have script : (partition.append log free block : Script σ Nat) =
      ((do Script.program (← Script.require (partition.address log free)) block.toList) >>= fun _ =>
        pure (free + 1)) := by
    rw [append]
    cases partition.address log free <;> rfl
  rw [script]
  refine Achieves.bind (achieves_program inside (by omega) ?_ here (fun count small => torn count (by omega)) whole
    (achieves_pure whole next))
  intro position within
  rw [← List.getD_eq_getElem block.toList 0 within]
  exact taken position (by omega)

theorem achieves_void {log : Log} {index : Nat} {result : Except StoreError Unit → σ → Contents → Prop}
    (inside : index < partition.blocks) (here : ∀ torn, cut torn state contents)
    (after : cut false state (contents.put log index [partition.polarity.voidWord]))
    (next : result (.ok ()) state (contents.put log index [partition.polarity.voidWord])) :
    partition.Achieves result cut (partition.void log index) state contents := by
  refine achieves_program inside (by simp) ?_ (here false) ?_ after next
  · intro position within
    have first : position = 0 := by simpa using within
    subst first
    exact partition.polarity.canProgram_programmed _
  · intro count small
    have none : count = 0 := by simp only [List.length_singleton] at small; omega
    subst none
    simpa only [List.take_zero, Contents.put_nil] using here true

theorem achieves_isMarked {log : Log} {result : Except StoreError Bool → σ → Contents → Prop}
    (inside : 0 < partition.blocks) (here : cut false state contents)
    (next : result (.ok ((contents log 0).info == marker)) state contents) :
    partition.Achieves result cut (partition.isMarked log) state contents :=
  (observes_isMarked inside).achieves here next

theorem achieves_mark {log : Log} {result : Except StoreError Unit → σ → Contents → Prop}
    (inside : 0 < partition.blocks)
    (taken : partition.polarity.canProgram (contents log 0).info marker = true)
    (here : ∀ torn, cut torn state contents) (after : cut false state (contents.put log 0 [marker]))
    (next : result (.ok ()) state (contents.put log 0 [marker])) :
    partition.Achieves result cut (partition.mark log) state contents := by
  refine achieves_program inside (by simp) ?_ (here false) ?_ after next
  · intro position within
    have first : position = 0 := by simpa using within
    subst first
    rw [← Block.info_eq]
    exact taken
  · intro count small
    have none : count = 0 := by simp only [List.length_singleton] at small; omega
    subst none
    simpa only [List.take_zero, Contents.put_nil] using here true

/-- Erasing a log erases its blocks, and no other cell changes. -/
theorem Fits.erased {μ : Type} [Medium μ] [LawfulMedium μ] {medium : μ} (fits : partition.Fits medium) (log : Log) :
    ∃ address after, partition.address log 0 = .ok address ∧
      Medium.erase medium address (UInt32.ofNat (Block.wordCount * partition.blocks)) = (.ok (), after) ∧
      partition.Fits after ∧ partition.contents after = (partition.contents medium).wiped partition.polarity log ∧
      ∀ position, position < partition.cellOf log 0 ∨ partition.cellOf log 0 + 8 * partition.blocks ≤ position →
        cell after position = cell medium position := by
  have checked := Geometry.check_ok fits.checked
  have size := checked.size
  have small := partition.geometry.size.toNat_lt
  have inside : 0 < partition.blocks := by
    have two := checked.two
    change 0 < partition.geometry.blocks
    omega
  obtain ⟨address, located, aligned, first, room⟩ := fits.address log inside
  have base : address.toNat = (partition.geometry.base log).toNat := by
    have aligned' := fits.aligned log
    simp only [cellOf] at first
    omega
  have blocks : partition.blocks = partition.geometry.blocks := rfl
  have count : (UInt32.ofNat (Block.wordCount * partition.blocks)).toNat = 8 * partition.geometry.blocks := by
    simp only [UInt32.toNat_ofNat', Block.wordCount, blocks]
    omega
  have bytes : 4 * (8 * partition.geometry.blocks) = partition.geometry.size.toNat := by omega
  have insideLog := fits.inside log
  obtain ⟨after, ran, sound, polarity, pageSize, total, cells⟩ :=
    @erase_inside μ _ _ medium address (UInt32.ofNat (Block.wordCount * partition.blocks)) fits.sound
      checked.page (by rw [base]; exact checked.basePage log) (by rw [count, bytes]; exact checked.sizePage)
      (by rw [count]; omega) (by rw [count]; omega)
  rw [count, first, fits.polarity] at cells
  refine ⟨address, after, located, ran, fits.preserved sound polarity pageSize total, ?_, ?_⟩
  · funext other position
    unfold Contents.wiped
    by_cases within : position < partition.blocks
    · apply Block.ext_getD
      intro offset early
      rw [contents_inside other within early, cells]
      by_cases same : other = log
      · subst same
        rw [if_pos rfl, Block.getD_blank _ _ early, if_pos]
        simp only [cellOf]
        omega
      · have logs := checked.apart
        have aligned₁ := fits.aligned log
        have aligned₂ := fits.aligned other
        rw [if_neg same, contents_inside other within early, if_neg]
        simp only [cellOf]
        cases log <;> cases other <;> simp only [Geometry.base, reduceCtorEq, not_false_eq_true,
          not_true_eq_false] at same aligned₁ aligned₂ ⊢ <;> omega
    · rw [contents_outside other (by omega)]
      split
      · rfl
      · rw [contents_outside other (by omega)]
  · intro position apart
    rw [cells, if_neg (by omega)]

theorem achieves_wipe {log : Log} {result : Except StoreError Unit → σ → Contents → Prop}
    (here : cut false state contents) (after : cut false state (contents.wiped partition.polarity log))
    (next : result (.ok ()) state (contents.wiped partition.polarity log)) :
    partition.Achieves result cut (partition.wipe log) state contents := by
  rintro μ _ _ medium fits rfl
  obtain ⟨address, after', located, ran, fits', shown, -⟩ := fits.erased log
  have script : (partition.wipe log : Script σ Unit) =
      .erase address (UInt32.ofNat (Block.wordCount * partition.blocks)) (.done ()) := by
    rw [wipe, located]
    rfl
  simp only [script, Script.Ensures, ran, shown]
  exact ⟨⟨fits, here⟩, ⟨fits', after⟩, fits', next⟩

end TwinLog.Partition
