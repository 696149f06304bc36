import TwinLog.Word

set_option autoImplicit false

namespace TwinLog.Checksum

/-- The reflected generator polynomial. -/
def polynomial : Word := 0xEDB88320

def shift (remainder : Word) : Word :=
  if remainder &&& 1 = 1 then (remainder >>> 1) ^^^ polynomial else remainder >>> 1

def shifts : Nat → Word → Word
  | 0, remainder => remainder
  | count + 1, remainder => shifts count (shift remainder)

/-- The remainder after one more word. -/
def absorb (remainder word : Word) : Word :=
  shifts 32 (remainder ^^^ word)

/-- The checksum of `words`, continuing from the checksum `seed` of what came before; a fresh one starts at zero. -/
def crc32 (seed : Word) (words : List Word) : Word :=
  ~~~ (words.foldl absorb (~~~ seed))

/-- The checksum of a joined run continues from that of its first part. -/
theorem crc32_append (seed : Word) (before after : List Word) :
    crc32 (crc32 seed before) after = crc32 seed (before ++ after) := by
  simp only [crc32, List.foldl_append, UInt32.not_not]

end TwinLog.Checksum
