/-!
# Transliteration to ASCII

Names are spelled in ASCII. What text is written for a character outside ASCII is not settled here:
names are made with any transliteration that gives texts in ASCII and leaves those alone that are.
-/

namespace KclModels.Text

/-- Whether a text is in ASCII. -/
def IsAscii (s : String) : Prop := ∀ c ∈ s.toList, c.toNat < 128

/-- A way to spell texts in ASCII. -/
class Transliteration where
  /-- A text in ASCII. -/
  toAscii : String → String
  isAscii_toAscii : ∀ s, IsAscii (toAscii s)
  toAscii_of_isAscii : ∀ s, IsAscii s → toAscii s = s

export Transliteration (toAscii)

end KclModels.Text
