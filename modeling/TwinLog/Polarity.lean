import TwinLog.Word

set_option autoImplicit false

namespace TwinLog

/-- Whether erased cells read as ones or as zeros. -/
inductive Polarity where
  | ones
  | zeros
  deriving DecidableEq, Repr

namespace Polarity

def erased : Polarity → Word
  | ones => 0xFFFFFFFF
  | zeros => 0

def programmed (polarity : Polarity) : Word :=
  ~~~ polarity.erased

/-- Whether `after` can be written over `before` without an erase in between. -/
def canProgram (polarity : Polarity) (before after : Word) : Bool :=
  match polarity with
  | ones => after &&& ~~~ before == 0
  | zeros => ~~~ after &&& before == 0

theorem canProgram_erased (polarity : Polarity) (word : Word) : polarity.canProgram polarity.erased word = true := by
  cases polarity <;> simp [canProgram, erased, ← UInt32.toBitVec_inj]

theorem canProgram_programmed (polarity : Polarity) (word : Word) :
    polarity.canProgram word polarity.programmed = true := by
  cases polarity <;> simp [canProgram, programmed, erased, ← UInt32.toBitVec_inj]

end Polarity

end TwinLog
