import Reckoner.Text.Ranges

/-!
# Blanks

The characters that separate words, and the operations on text that go by them.
-/

namespace Reckoner.Text

/-- Code points of blanks: the separators of Unicode and the separating controls. -/
def blanks : Ranges := [
  (9, 13), (28, 32), (133, 133), (160, 160), (5760, 5760), (8192, 8202), (8232, 8233),
  (8239, 8239), (8287, 8287), (12288, 12288)]

/-- A character that separates words. -/
def isBlank (c : Char) : Bool := blanks.contains c

/-- The text without the characters of a class at both ends. -/
def trimAll (p : Char → Bool) (s : List Char) : List Char :=
  ((s.dropWhile p).reverse.dropWhile p).reverse

/-- The text without the blanks at both ends. -/
def trim (s : List Char) : List Char := trimAll isBlank s

/-- The controls that separate files, groups, records and units. -/
def isSeparator (c : Char) : Bool := 28 ≤ c.toNat && c.toNat ≤ 31

/-- The text without any blanks. -/
def squeeze (s : List Char) : List Char := s.filter (!isBlank ·)

/-- A text of blanks only, and at least one. -/
def allBlank (s : List Char) : Bool := !s.isEmpty && s.all isBlank

end Reckoner.Text
