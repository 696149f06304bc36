import TwinLog.Polarity
import TwinLog.Violation

set_option autoImplicit false

namespace TwinLog

inductive MediumError where
  | device
  | outOfBounds
  /-- An address or a length is no multiple of the word or page size. -/
  | misaligned
  /-- The device cannot be accessed word by word. -/
  | unsupported
  deriving DecidableEq, Repr

/-- Why something did not run to its end. -/
inductive Stop (ε : Type) where
  /-- An error that is reported to the caller. -/
  | error (cause : ε)
  /-- A broken precondition. -/
  | halt (violation : Violation)
  deriving DecidableEq, Repr

/-- What a read delivered: the words copied, in order, and why it stopped if it did before the last one. -/
structure Fetch where
  words : List Word
  stop : Option (Stop MediumError)
  deriving DecidableEq, Repr

/-- A medium that can be read, programmed and erased. Every access also returns the medium as it is afterwards. -/
class Medium (μ : Type) where
  /-- What erased cells read as. -/
  polarity : μ → Polarity
  /-- The erase granularity in bytes. -/
  pageSize : μ → Word
  /-- Reads a number of words from an address on. -/
  read : μ → Address → Nat → Fetch × μ
  /-- Programs words from an address on. With the flag set, every page in which a word is the first is erased before
  that word is programmed. -/
  write : μ → Address → List Word → Bool → Except (Stop MediumError) Unit × μ
  /-- Erases a number of words from the start of a page on. -/
  erase : μ → Address → Word → Except (Stop MediumError) Unit × μ

namespace Medium

variable {μ : Type} [Medium μ]

def readWord (medium : μ) (address : Address) : Except (Stop MediumError) Word × μ :=
  match Medium.read medium address 1 with
  | (⟨words, none⟩, after) => (.ok (words.headD 0), after)
  | (⟨_, some stop⟩, after) => (.error stop, after)

def writeWord (medium : μ) (address : Address) (word : Word) : Except (Stop MediumError) Unit × μ :=
  Medium.write medium address [word] false

end Medium

end TwinLog
