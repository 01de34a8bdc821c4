/-!
# White space and letter case

The characters with the Unicode property `White_Space`, and the ways a text is cut at them.
-/

namespace Offside.Text

/-- The ranges of white space, ends included. -/
def blankRanges : List (Nat × Nat) :=
  [(0x09, 0x0d), (0x20, 0x20), (0x85, 0x85), (0xa0, 0xa0), (0x1680, 0x1680), (0x2000, 0x200a),
    (0x2028, 0x2029), (0x202f, 0x202f), (0x205f, 0x205f), (0x3000, 0x3000)]

def isBlank (c : Char) : Bool :=
  blankRanges.any fun (low, high) => low ≤ c.toNat && c.toNat ≤ high

/-- Cuts white space off the end of a text. -/
def trimEnd (text : List Char) : List Char := (text.reverse.dropWhile isBlank).reverse

/-- Cuts white space off both ends of a text. -/
def trim (text : List Char) : List Char := trimEnd (text.dropWhile isBlank)

/-- The words of a text, with `word` as what was read of the first one. -/
def wordsFrom (word : List Char) : List Char → List (List Char)
  | [] => if word.isEmpty then [] else [word]
  | c :: rest =>
    if isBlank c then (if word.isEmpty then [] else [word]) ++ wordsFrom [] rest
    else wordsFrom (word ++ [c]) rest

/-- The stretches of a text between white space. -/
def words (text : String) : List String := (wordsFrom [] text.toList).map String.ofList

/-- The lower case of a character as far as it is ASCII.  Beside the ASCII capitals only the Kelvin sign has an
ASCII letter as its lower case. -/
def lower (c : Char) : Char := if c.toNat = 0x212a then 'k' else c.toLower

end Offside.Text
