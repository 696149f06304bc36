import TwinLog.Proofs.Scanning

set_option autoImplicit false

namespace TwinLog

open LawfulMedium

namespace Contents

def voided (contents : Contents) (polarity : Polarity) (log : Log) (starts : List Nat) : Contents :=
  fun other index =>
    if other = log ∧ index ∈ starts then (contents log index).overlay [polarity.voidWord] else contents other index

variable {contents : Contents} {polarity : Polarity} {log : Log} {starts : List Nat}

@[simp] theorem voided_nil : contents.voided polarity log [] = contents := by
  funext other index
  simp [voided]

theorem voided_apart {index : Nat} (apart : index ∉ starts) (other : Log) :
    contents.voided polarity log starts other index = contents other index :=
  if_neg fun both => apart both.2

theorem voided_concat {index : Nat} (apart : index ∉ starts) :
    (contents.voided polarity log starts).put log index [polarity.voidWord] =
      contents.voided polarity log (starts ++ [index]) := by
  funext other position
  unfold put
  split
  · rename_i here
    obtain ⟨rfl, rfl⟩ := here
    rw [voided_apart apart, voided, if_pos (by simp)]
  · rename_i elsewhere
    unfold voided
    congr 1
    simp only [List.mem_append, List.mem_singleton, eq_iff_iff]
    tauto

end Contents

namespace Chain

/-- The starts of those among the chains of a file that a walk makes void: with `prune`, all but the last. -/
def superseded (prune : Bool) (chains : List Chain) : List Nat :=
  if prune then chains.dropLast.map Chain.start else []

@[simp] theorem superseded_false (chains : List Chain) : superseded false chains = [] := rfl

@[simp] theorem superseded_toList (prune : Bool) (chain : Option Chain) : superseded prune chain.toList = [] := by
  cases prune <;> cases chain <;> rfl

theorem superseded_cons (older newer : Chain) (later : List Chain) :
    superseded true (older :: newer :: later) = older.start :: superseded true (newer :: later) := rfl

end Chain

namespace Tape

variable {tape : Tape} {id : FileId} {start index : Nat} {prune : Bool} {chain : Chain}

/-- What is superseded is the start of a chain that is followed by the last one. -/
theorem superseded_chains (member : index ∈ Chain.superseded prune (tape.chains id start)) :
    ∃ older last, tape.Holds id start older ∧ older.start = index ∧
      (tape.chains id start).getLast? = some last ∧ index < last.start := by
  cases prune with
  | false => cases member
  | true =>
      obtain ⟨older, listed, rfl⟩ := List.mem_map.mp member
      have there : older ∈ tape.chains id start := List.dropLast_subset _ listed
      obtain ⟨last, found, -⟩ := (mem_chains.mp there).exists_last
      have sorted := tape.chains_sorted id start
      rw [← List.dropLast_append_getLast? last found, List.pairwise_append] at sorted
      exact ⟨older, last, mem_chains.mp there, rfl, found, sorted.2.2 older listed last (List.mem_singleton_self last)⟩

theorem superseded_sorted (tape : Tape) (id : FileId) (start : Nat) (prune : Bool) :
    (Chain.superseded prune (tape.chains id start)).Pairwise (· < ·) := by
  cases prune with
  | false => exact List.Pairwise.nil
  | true =>
      have sorted := (tape.chains_sorted id start).sublist (List.dropLast_sublist _)
      exact sorted.map Chain.start fun _ _ before => before

theorem superseded_inside (member : index ∈ Chain.superseded prune (tape.chains id start)) : index < tape.stop := by
  obtain ⟨older, -, holds, rfl, -⟩ := superseded_chains member
  exact holds.inside

/-- With the last chain of a file all is as it was from its first block on. -/
theorem superseded_behind (last : (tape.chains id start).getLast? = some chain)
    (member : index ∈ Chain.superseded prune (tape.chains id start)) : index < chain.start := by
  obtain ⟨older, other, -, -, found, before⟩ := superseded_chains member
  rw [last, Option.some.injEq] at found
  rwa [found]

end Tape

namespace Partition

variable {μ : Type} [Medium μ] [LawfulMedium μ] {partition : Partition} {log : Log} {medium between after : μ}
  {starts further : List Nat}

/-- What is left of a medium when the blocks at `starts` are made void: the first word of each is the void word, and
every other word is as it was. -/
structure Voided (partition : Partition) (log : Log) (starts : List Nat) (medium after : μ) : Prop where
  fits : partition.Fits after
  cells : ∀ position, cell after position =
    if position ∈ starts.map (partition.cellOf log) then partition.polarity.voidWord else cell medium position

theorem Voided.refl (fits : partition.Fits medium) : partition.Voided log [] medium medium :=
  ⟨fits, fun _ => by simp⟩

theorem Voided.trans (first : partition.Voided log starts medium between)
    (second : partition.Voided log further between after) : partition.Voided log (starts ++ further) medium after := by
  refine ⟨second.fits, ?_⟩
  intro position
  rw [second.cells, first.cells, List.map_append]
  simp only [List.mem_append]
  by_cases here : position ∈ further.map (partition.cellOf log)
  · rw [if_pos here, if_pos (.inr here)]
  · rw [if_neg here]
    simp only [here, or_false]

/-- The blocks that are made void, and no others, differ in their first word. -/
theorem Voided.contents (voided : partition.Voided log starts medium after) (fits : partition.Fits medium)
    (inside : ∀ start ∈ starts, start < partition.blocks) :
    partition.contents after = (partition.contents medium).voided partition.polarity log starts := by
  funext other index
  by_cases within : index < partition.blocks
  · apply Block.ext_getD
    intro offset small
    rw [contents_inside other within small, voided.cells]
    unfold Contents.voided
    split
    · rename_i member
      obtain ⟨start, listed, place⟩ := List.mem_map.mp member
      have same : other = log ∧ index = start := by
        by_contra apart
        have distant := fits.cells_apart (inside start listed) within apart
        omega
      obtain ⟨rfl, rfl⟩ := same
      have first : offset = 0 := by omega
      subst first
      rw [if_pos ⟨rfl, listed⟩, Block.getD_overlay _ _ _ small]
      rfl
    · rename_i absent
      split
      · rename_i here
        obtain ⟨rfl, listed⟩ := here
        have later : ¬ offset < [partition.polarity.voidWord].length := by
          intro first
          refine absent (List.mem_map.mpr ⟨index, listed, ?_⟩)
          simp only [List.length_singleton] at first
          omega
        rw [Block.getD_overlay _ _ _ small, if_neg later, contents_inside other within small]
      · rw [contents_inside other within small]
  · unfold Contents.voided
    rw [contents_outside other (by omega), if_neg (fun here => within (inside index here.2)),
      contents_outside other (by omega)]

/-- Behind a block that is made void nothing changes. -/
theorem Voided.behind {start position : Nat} (voided : partition.Voided log [start] medium after)
    (fits : partition.Fits medium) (inside : start < partition.blocks) (late : start < position) :
    partition.contents after log position = partition.contents medium log position := by
  have placed : ∀ index ∈ [start], index < partition.blocks := by
    intro index member
    rw [List.mem_singleton.mp member]
    exact inside
  rw [voided.contents fits placed]
  exact Contents.voided_apart (by rw [List.mem_singleton]; omega) _

section Walk

variable {σ : Type} {state : σ} {cut : Bool → σ → μ → Prop}

theorem Fits.ensures_void {result : Except StoreError Unit → σ → μ → Prop} (fits : partition.Fits medium) {index : Nat}
    (inside : index < partition.blocks) (here : cut false state medium)
    (torn : ∀ after, partition.Voided log [] medium after → cut true state after)
    (next : ∀ after, partition.Voided log [index] medium after → cut false state after ∧ result (.ok ()) state after) :
    Script.Ensures result cut (partition.void log index) state medium := by
  obtain ⟨address, located, aligned, first, room⟩ := fits.address log inside
  have taken (before : Word) : (Medium.polarity medium).canProgram before partition.polarity.voidWord = true := by
    rw [fits.polarity]
    exact partition.polarity.canProgram_programmed _
  obtain ⟨after, ran, sound, polarity, pageSize, count, cells⟩ :=
    @write_inside μ _ _ medium address [partition.polarity.voidWord] fits.sound aligned
      (by rw [List.length_singleton]; omega) (by
        intro position early
        have zero : position = 0 := by simpa using early
        subst zero
        exact taken _)
  obtain ⟨stopped, ran', sound', polarity', pageSize', count', cells'⟩ :=
    @write_inside μ _ _ medium address [] fits.sound aligned (by rw [List.length_nil]; omega)
      (by intro position early; cases early)
  have voided : partition.Voided log [index] medium after := by
    refine ⟨fits.preserved sound polarity pageSize count, ?_⟩
    intro position
    rw [cells, first]
    simp only [List.length_singleton, List.map_cons, List.map_nil, List.mem_singleton]
    by_cases same : position = partition.cellOf log index
    · rw [if_pos (by omega), if_pos same, same, Nat.sub_self]
      rfl
    · rw [if_neg (by omega), if_neg same]
  have untouched : partition.Voided log [] medium stopped := by
    refine ⟨fits.preserved sound' polarity' pageSize' count', ?_⟩
    intro position
    rw [cells', if_neg (by rw [List.length_nil]; omega)]
    simp
  unfold Partition.void
  rw [located]
  change Script.Ensures result cut (.write address [partition.polarity.voidWord] (.done ())) state medium
  simp only [Script.Ensures, ran]
  refine ⟨here, ?_, ?_, next after voided⟩
  · intro position early
    have zero : position = 0 := by simpa using early
    subst zero
    exact taken _
  · intro count short
    have none : count = 0 := by rw [List.length_singleton] at short; omega
    subst none
    exact ⟨stopped, ran', torn stopped untouched⟩

/-- Looking for the last chain of a file in the last blocks, the first of which continue the chain that was found last.
The chains are that one and those that start in these blocks. -/
theorem ensures_latestLast {journal : Journal} {id : FileId} {prune : Bool}
    {result : Except StoreError (Option Chain) → σ → μ → Prop} (inside : journal.stop ≤ journal.partition.blocks)
    (remaining : Nat) (enough : remaining ≤ journal.stop) (skipped : Nat) (latest : Option Chain) (medium : μ)
    (fits : journal.partition.Fits medium)
    (silent : ∀ index, journal.stop - remaining ≤ index → index < journal.stop - remaining + skipped →
      journal.polarity.kind (journal.partition.contents medium journal.log index).info = .cont)
    (behind : ∀ older, latest = some older → older.start < journal.stop - remaining) (chains : List Chain)
    (found : chains = latest.toList ++
      (journal.tape (journal.partition.contents medium)).chains id (journal.stop - remaining))
    (cuts : ∀ torn count after,
      journal.partition.Voided journal.log ((Chain.superseded prune chains).take count) medium after →
      cut torn state after)
    (next : ∀ after, journal.partition.Voided journal.log (Chain.superseded prune chains) medium after →
      (Chain.superseded prune chains = [] → after = medium) → result (.ok chains.getLast?) state after) :
    Script.Ensures result cut (journal.latestLast id prune remaining skipped latest) state medium := by
  have here : cut false state medium := cuts false 0 medium (.refl fits)
  induction remaining generalizing skipped latest medium chains with
  | zero =>
      have none : (journal.tape (journal.partition.contents medium)).chains id journal.stop = [] :=
        Tape.chains_done (Nat.le_refl _)
      rw [Nat.sub_zero, none, List.append_nil] at found
      subst found
      have delivered := next medium (by rw [Chain.superseded_toList]; exact .refl fits) (fun _ => rfl)
      refine ⟨here, ?_⟩
      cases latest <;> exact delivered
  | succ remaining ih =>
      have index : journal.stop - (remaining + 1) + 1 = journal.stop - remaining := by omega
      have early : journal.stop - (remaining + 1) < (journal.tape (journal.partition.contents medium)).stop := by
        change _ < journal.stop
        omega
      have passed (older : Chain) (known : latest = some older) : older.start < journal.stop - remaining := by
        have before := behind older known
        omega
      cases skipped with
      | succ skipped =>
          rw [Tape.chains_silent early (silent _ (Nat.le_refl _) (by omega)), index] at found
          exact ih (by omega) skipped latest medium fits
            (fun position late before => silent position (by omega) (by omega)) passed chains found cuts next here
      | zero =>
          rw [Tape.chains_step early, index] at found
          rw [Journal.latestLast, Script.ensures_bind]
          refine (observes_chainAt inside (by omega) μ medium fits rfl).ensures here ?_
          cases there : (journal.tape (journal.partition.contents medium)).chainFor? id
              (journal.stop - (remaining + 1)) with
          | none =>
              rw [there, Option.toList_none, List.nil_append] at found
              exact ih (by omega) 0 latest medium fits (fun position late before => by omega) passed chains found cuts
                next here
          | some chain =>
              obtain ⟨first, -, -, sound⟩ := Tape.chainAt?_some.mp (Tape.chainFor?_some.mp there).1
              rw [there, Option.toList_some, List.singleton_append] at found
              -- the walk goes on behind the chain, on a medium that is as it was from the chain's start on
              have goOn (between : μ) (fits' : journal.partition.Fits between)
                  (same : ∀ position, chain.start ≤ position → journal.partition.contents between journal.log position =
                    journal.partition.contents medium journal.log position) :=
                ih (by omega) (chain.count - 1) (some chain) between fits'
                  (fun position late before => by
                    rw [same position (by omega)]
                    exact Chain.sound_further sound (by omega) (by simp only [Chain.stop]; omega))
                  (fun older known => by
                    cases known
                    omega)
                  (chain :: (journal.tape (journal.partition.contents medium)).chains id (journal.stop - remaining))
                  (by
                    have later : (journal.tape (journal.partition.contents between)).chains id
                        (journal.stop - remaining) =
                        (journal.tape (journal.partition.contents medium)).chains id (journal.stop - remaining) :=
                      Tape.chains_same rfl rfl (fun position late => same position (by omega))
                    rw [later]
                    rfl)
              simp only
              cases prune with
              | false =>
                  subst found
                  refine goOn medium fits (fun _ _ => rfl) cuts ?_ here
                  intro after voided untouched
                  have delivered := next after voided untouched
                  rwa [List.getLast?_append_of_ne_nil _ (by simp)] at delivered
              | true =>
                  cases latest with
                  | none =>
                      subst found
                      exact goOn medium fits (fun _ _ => rfl) cuts next here
                  | some older =>
                      subst found
                      have before := behind older rfl
                      rw [Option.toList_some, List.singleton_append, Chain.superseded_cons] at cuts next
                      refine Script.ensures_bind.mpr
                        (fits.ensures_void (by omega) here (fun after => cuts true 0 after) ?_)
                      intro between voided
                      have same (position : Nat) (late : chain.start ≤ position) :
                          journal.partition.contents between journal.log position =
                            journal.partition.contents medium journal.log position :=
                        voided.behind fits (by omega) (by omega)
                      have stopped : cut false state between := cuts false 1 between voided
                      refine ⟨stopped, goOn between voided.fits same ?_ ?_ stopped⟩
                      · intro torn count after rest
                        exact cuts torn (count + 1) after (voided.trans rest)
                      · intro after rest _
                        have delivered := next after (voided.trans rest) (by simp)
                        rwa [List.getLast?_cons_cons] at delivered

theorem ensures_latest {journal : Journal} {id : FileId} {start : Nat} {prune : Bool}
    {result : Except StoreError (Option Chain) → σ → μ → Prop} (inside : journal.stop ≤ journal.partition.blocks)
    (fits : journal.partition.Fits medium) (chains : List Chain)
    (found : chains = (journal.tape (journal.partition.contents medium)).chains id start)
    (cuts : ∀ torn count after,
      journal.partition.Voided journal.log ((Chain.superseded prune chains).take count) medium after →
      cut torn state after)
    (next : ∀ after, journal.partition.Voided journal.log (Chain.superseded prune chains) medium after →
      (Chain.superseded prune chains = [] → after = medium) → result (.ok chains.getLast?) state after) :
    Script.Ensures result cut (journal.latest id start prune) state medium := by
  refine ensures_latestLast inside (journal.stop - start) (by omega) 0 none medium fits
    (fun position late before => by omega) (fun older known => by cases known) chains ?_ cuts next
  rw [found, Option.toList_none, List.nil_append]
  by_cases early : start ≤ journal.stop
  · rw [show journal.stop - (journal.stop - start) = start by omega]
  · rw [Tape.chains_done (by change journal.stop ≤ start; omega), Tape.chains_done (by change journal.stop ≤ _; omega)]

end Walk

end Partition

end TwinLog
