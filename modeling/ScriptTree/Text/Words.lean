/-!
Comparing words without regard to case or surrounding white space.

The words compared with are lower-case ASCII, so a case map only has to know the characters that it
sends to ASCII letters.
-/

namespace ScriptTree.Text

/-- White space: the characters with the Unicode property of that name. -/
def isBlank (c : Char) : Bool :=
  let n := c.toNat
  (0x09 ≤ n && n ≤ 0x0d) || n == 0x20 || n == 0x85 || n == 0xa0 || n == 0x1680 ||
    (0x2000 ≤ n && n ≤ 0x200a) || n == 0x2028 || n == 0x2029 || n == 0x202f || n == 0x205f || n == 0x3000

def trim (s : String) : String :=
  String.ofList ((s.toList.dropWhile isBlank).reverse.dropWhile isBlank).reverse

/-- The lower-case form, as far as it is ASCII: the capital letters, the dotted capital I and the
kelvin sign. -/
def lowerChar (c : Char) : Char :=
  if c.toNat = 0x130 then 'i' else if c.toNat = 0x212a then 'k' else c.toLower

def lower (s : String) : String := s.map lowerChar

/-- The representative of the characters that differ from each other by case only, as far as it is
ASCII: the long s and the kelvin sign belong to letters. -/
def foldChar (c : Char) : Char :=
  if c.toNat = 0x17f then 's' else if c.toNat = 0x212a then 'k' else c.toLower

/-- Whether two texts differ by case only. -/
def sameFolded (s t : String) : Bool := s.toList.map foldChar == t.toList.map foldChar

end ScriptTree.Text
