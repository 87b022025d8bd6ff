/-! Text between quotes, with control characters, backslashes and the quote itself escaped. -/

namespace SelectiveEffects.Quoted

def apostrophe : Char := '\x27'

def doubleQuote : Char := '\x22'

/-- Double quotes surround only a text that holds an apostrophe and no double quote. -/
def quoteFor (cs : List Char) : Char :=
  if cs.contains apostrophe && !cs.contains doubleQuote then doubleQuote else apostrophe

def hexByte (n : Nat) : List Char :=
  [Nat.digitChar (n / 16), Nat.digitChar (n % 16)]

def escape (quote c : Char) : List Char :=
  if c = '\\' then ['\\', '\\']
  else if c = quote then ['\\', quote]
  else if c = '\n' then ['\\', 'n']
  else if c = '\r' then ['\\', 'r']
  else if c = '\t' then ['\\', 't']
  else if c.toNat < 0x20 || c.toNat = 0x7f then '\\' :: 'x' :: hexByte c.toNat
  else [c]

def encode (cs : List Char) : List Char :=
  let quote := quoteFor cs
  quote :: cs.flatMap (escape quote) ++ [quote]

def text (s : String) : String :=
  String.ofList (encode s.toList)

end SelectiveEffects.Quoted
