/-!
# Blank characters

A character is blank when it has Unicode's White_Space property. Texts are trimmed of blanks at both ends and cut into
words at runs of blanks.
-/

namespace RepoSearch.Text

/-- The code points with the White_Space property, as closed ranges. -/
def blankRanges : List (Nat × Nat) :=
  [(0x09, 0x0D), (0x20, 0x20), (0x85, 0x85), (0xA0, 0xA0), (0x1680, 0x1680), (0x2000, 0x200A),
    (0x2028, 0x2029), (0x202F, 0x202F), (0x205F, 0x205F), (0x3000, 0x3000)]

def isBlank (c : Char) : Bool :=
  blankRanges.any fun r => r.1 ≤ c.toNat && c.toNat ≤ r.2

/-- A list of characters without its leading blanks. -/
def trimLeft (cs : List Char) : List Char :=
  cs.dropWhile isBlank

/-- A list of characters without its trailing blanks. -/
def trimRight (cs : List Char) : List Char :=
  (trimLeft cs.reverse).reverse

/-- A text without the blanks at its two ends. -/
def trim (s : String) : String :=
  String.ofList (trimRight (trimLeft s.toList))

/-- The maximal blank-free pieces of a text, in order. -/
def words (s : String) : List String :=
  ((s.toList.splitOnP isBlank).filter (!·.isEmpty)).map String.ofList

end RepoSearch.Text
