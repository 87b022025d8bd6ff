/-! Blank characters and the fold of letters that path tests compare. -/

namespace SelectiveEffects.Text

/-- Separators and white space of every script. -/
def isBlank (c : Char) : Bool :=
  let n := c.toNat
  (0x09 ≤ n && n ≤ 0x0d) || (0x1c ≤ n && n ≤ 0x20) || n == 0x85 || n == 0xa0 || n == 0x1680 ||
    (0x2000 ≤ n && n ≤ 0x200a) || n == 0x2028 || n == 0x2029 || n == 0x202f || n == 0x205f ||
    n == 0x3000

def trim (s : String) : String :=
  String.ofList ((s.toList.dropWhile isBlank).reverse.dropWhile isBlank).reverse

/-- The Kelvin sign is the only letter outside ASCII whose small form is an ASCII letter alone. -/
def smallLetter (c : Char) : Char :=
  if c.toNat = 0x212a then 'k' else c.toLower

def small (s : String) : String :=
  String.ofList (s.toList.map smallLetter)

def startsWith : List Char → List Char → Bool
  | [], _ => true
  | _ :: _, [] => false
  | p :: ps, c :: cs => p == c && startsWith ps cs

/-- Whether the first text occurs inside the second. -/
def occursIn (part : List Char) : List Char → Bool
  | [] => part.isEmpty
  | c :: cs => startsWith part (c :: cs) || occursIn part cs

end SelectiveEffects.Text
