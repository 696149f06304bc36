import TwinLog.Proofs.ReadYourWrites
import TwinLog.Proofs.Remounting
import TwinLog.Proofs.WireRoundTrip

set_option autoImplicit false

namespace TwinLog

namespace Store

variable {store left : Store} {contents after : Contents} {ufid : Ufid} {data : List UInt8}

theorem Placed.not_tooLarge {value : Except StoreError Unit}
    (placed : store.Placed contents ufid data value left after) : value ≠ .error .tooLarge := by
  cases placed <;> simp

theorem Saved.size_large (saved : store.Saved contents ufid data (.error .tooLarge) left after) :
    maxFileSize < data.length := by
  cases saved with
  | large size => exact size
  | atOnce small placed enough => exact absurd rfl placed.not_tooLarge
  | turned small added short turn placed => exact absurd rfl placed.not_tooLarge

end Store

namespace Session

variable {μ : Type} [Medium μ] {session : Session μ} {store : Store} {ufid : Ufid} {data : List UInt8}

/-- Content that is too large is refused before the medium is accessed. -/
theorem perform_large (mounted : session.store = some store) (large : maxFileSize < data.length) :
    session.perform (.save ufid data) = (.ok (.failed .tooLarge), session) := by
  obtain ⟨medium, given⟩ := session
  simp only at mounted
  subst mounted
  have refused : store.save ufid data = Script.fail .tooLarge := if_pos large
  change change _ store (store.save ufid data) _ = _
  rw [refused]
  rfl

/-- To save a value is to save its bytes. -/
theorem perform_saveValue (session : Session μ) (ufid : Ufid) (shape : Shape) (value : shape.Value) :
    session.perform (.saveValue ufid (.value shape value)) = session.perform (.save ufid (shape.encode value)) := by
  obtain ⟨medium, given⟩ := session
  cases given <;> rfl

variable [LawfulMedium μ] {partition : Partition} {chain : Chain}

theorem large_of_refused (mounted : session.store = some store) (fits : store.partition.Fits session.medium)
    (charge : store.InCharge (store.partition.contents session.medium))
    (refused : (session.perform (.save ufid data)).1 = .ok (.failed .tooLarge)) : maxFileSize < data.length := by
  obtain ⟨medium, given⟩ := session
  simp only at mounted fits charge
  subst mounted
  obtain ⟨left, after, saved⟩ := saved_of_refused fits charge refused
  exact saved.size_large

/-- A value is loaded from the bytes that were last written. -/
theorem Remembers.loads {shape : Shape} {value : shape.Value}
    (remembers : session.Remembers partition store ufid (shape.encode value) chain) (counted : shape.Counted value) :
    (session.perform (.loadValue ufid shape)).1 = .ok (.value shape value) := by
  have whole : shape.decode (shape.encode value) = some (value, []) := by
    have recovers := shape.recovers value counted []
    rwa [List.append_nil] at recovers
  obtain ⟨answer, after, files, performed, -, present, step⟩ := remembers.read (.loadValue ufid shape) trivial
  rw [performed]
  cases step with
  | loaded there read =>
      rw [present, Option.some.injEq] at there
      rw [← there, whole] at read
      cases read
      rfl
  | notDecoded there invalid =>
      rw [present, Option.some.injEq] at there
      rw [← there, whole] at invalid
      cases invalid
  | notLoaded absent =>
      rw [present] at absent
      cases absent

/-- Typed values go through the store and come back. Whatever a medium in working order holds when it is mounted, and
whatever was asked of the store since then, a value is refused as too large, with nothing changed, exactly if its bytes
are more than a file can have; in any case saving it is saving its bytes; and if that is acknowledged, loading the file
at the same shape gives the value, at once, after any files were read, and after the medium was mounted again. -/
theorem saveValue_loadsBack {medium : μ} {geometry : Geometry}
    (fits : Partition.Fits ⟨Medium.polarity medium, geometry⟩ medium) {earlier : List Request}
    (same : ∀ other, .mount other ∈ earlier → other = geometry) {answers : List Answer}
    (ran : performAll ⟨medium, none⟩ (.mount geometry :: earlier) = (answers, none, session)) (ufid : Ufid)
    (shape : Shape) (value : shape.Value) (counted : shape.Counted value) :
    ((session.perform (.saveValue ufid (.value shape value))).1 = .ok (.failed .tooLarge) ↔
      maxFileSize < (shape.encode value).length) ∧
    (maxFileSize < (shape.encode value).length →
      (session.perform (.saveValue ufid (.value shape value))).2 = session) ∧
    session.perform (.saveValue ufid (.value shape value)) = session.perform (.save ufid (shape.encode value)) ∧
    ∀ after, session.perform (.saveValue ufid (.value shape value)) = (.ok .done, after) →
      ∀ later : List Request, (∀ request ∈ later, request.Reads ∨ request = .mount geometry) →
        ∃ answers' last, after.performAll later = (answers', none, last) ∧
          (last.perform (.loadValue ufid shape)).1 = .ok (.value shape value) := by
  obtain ⟨store, mounted, together, room, charge⟩ :=
    @performAll_inCharge μ _ _ ⟨Medium.polarity medium, geometry⟩ session medium fits earlier same answers ran
  rw [← together] at room charge
  rw [perform_saveValue]
  refine ⟨⟨large_of_refused mounted room charge, ?_⟩, ?_, rfl, ?_⟩
  · intro large
    rw [perform_large mounted large]
  · intro large
    rw [perform_large mounted large]
  · intro after saved later keep
    obtain ⟨-, steady, -⟩ := performAll_steady fits earlier same
    rw [ran] at steady
    obtain ⟨left, chain, remembers⟩ := steady.remembers saved
    obtain ⟨answers', last, finished, remembers'⟩ := remembers.performAll keep
    exact ⟨answers', last, finished, remembers'.loads counted⟩

section Nested

set_option maxRecDepth 8192

/-- A map from small numbers to byte strings that may be missing, and one from texts and signed numbers to numbers. -/
def nested : Shape :=
  .pair (.map 1 (.option .bytes)) (.dictionary (.pair .text (.integer 16)) (.natural 32))

def nestedOptions : Table 8 (Option (List UInt8)) :=
  ⟨[(3#8, some [1, 2]), (7#8, none)], by decide⟩

/-- Those of the second. The texts come first in the order of its keys, and negative numbers before the others. -/
def nestedNumbers : Dictionary (Shape.pair .text (.integer 16)).domain.place (BitVec 32) :=
  ⟨[(("a", -300#16), 70000#32), (("a", 5#16), 1#32), (("b", -1#16), 0#32)], by decide⟩

def nestedValue : nested.Value :=
  (nestedOptions, nestedNumbers)

/-- That value, saved on a medium that is not in order, and loaded after the medium was mounted again. -/
theorem saveValue_loadsBack_nested :
    nested.Counted nestedValue ∧
      ∃ session after, performAll ⟨disordered, none⟩ [.mount ⟨0, 256, 256⟩] = ([.done], none, session) ∧
        session.perform (.saveValue (Vector.replicate 12 7) (.value nested nestedValue)) = (.ok .done, after) ∧
        ∃ answers last, after.performAll [.mount ⟨0, 256, 256⟩] = (answers, none, last) ∧
          (last.perform (.loadValue (Vector.replicate 12 7) nested)).1 = .ok (.value nested nestedValue) := by
  have counted : nested.Counted nestedValue := by
    refine ⟨⟨by decide, ?_⟩, by decide, ?_⟩
    · intro entry member
      refine ⟨trivial, ?_⟩
      rcases List.mem_cons.mp member with rfl | member
      · exact (by decide : 2 < 2 ^ Wire.lengthBits)
      · rw [List.mem_singleton.mp member]
        trivial
    · intro entry member
      have short : (utf8 entry.1.1).length < 2 ^ Wire.lengthBits := by
        revert entry
        decide
      exact ⟨⟨short, trivial⟩, trivial⟩
  have ran : performAll ⟨disordered, none⟩ [.mount ⟨0, 256, 256⟩] =
      ([.done], none, (performAll ⟨disordered, none⟩ [.mount ⟨0, 256, 256⟩]).2.2) := by rfl
  have saved : (performAll ⟨disordered, none⟩ [.mount ⟨0, 256, 256⟩]).2.2.perform
      (.saveValue (Vector.replicate 12 7) (.value nested nestedValue)) =
        (.ok .done, ((performAll ⟨disordered, none⟩ [.mount ⟨0, 256, 256⟩]).2.2.perform
          (.saveValue (Vector.replicate 12 7) (.value nested nestedValue))).2) := by rfl
  obtain ⟨-, -, -, loads⟩ := @saveValue_loadsBack Simulated _ _ _ disordered ⟨0, 256, 256⟩ disordered_fits []
    (fun other member => absurd member List.not_mem_nil) _ ran (Vector.replicate 12 7) nested nestedValue counted
  exact ⟨counted, _, _, ran, saved, loads _ saved [.mount ⟨0, 256, 256⟩] (by simp)⟩

end Nested

end Session

end TwinLog
