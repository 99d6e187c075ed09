/-! # White space

The twenty-five characters with the Unicode property `White_Space`, and trimming by them.
-/

namespace GlyphScript.Text

/-- The first and last code point of each run of blank characters. -/
def blankRanges : List (Nat × Nat) :=
  [(0x9, 0xd), (0x20, 0x20), (0x85, 0x85), (0xa0, 0xa0), (0x1680, 0x1680), (0x2000, 0x200a),
    (0x2028, 0x2029), (0x202f, 0x202f), (0x205f, 0x205f), (0x3000, 0x3000)]

def isBlank (c : Char) : Bool :=
  blankRanges.any fun (first, last) => first ≤ c.toNat && c.toNat ≤ last

/-- Drops the characters that satisfy `p` from both ends. -/
def trimBy (p : Char → Bool) (cs : List Char) : List Char :=
  ((cs.dropWhile p).reverse.dropWhile p).reverse

def trim (cs : List Char) : List Char := trimBy isBlank cs

end GlyphScript.Text
