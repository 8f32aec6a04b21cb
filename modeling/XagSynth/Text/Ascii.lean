import XagSynth.Text.Quoted

/-!
# Quoted text in printable ASCII

Data files write a name as a double-quoted string of printable ASCII, escaping
quotes, backslashes and the usual control characters by letter and every other
character outside space to tilde by its UTF-16 code units.
-/

namespace XagSynth.Text

def unitEscape (u : Nat) : List Char := '\\' :: 'u' :: hexDigits 4 u

def asciiEscape (c : Char) : List Char :=
  if c = '"' then ['\\', '"']
  else if c = '\\' then ['\\', '\\']
  else if c = '\n' then ['\\', 'n']
  else if c = '\r' then ['\\', 'r']
  else if c = '\t' then ['\\', 't']
  else if c.toNat = 8 then ['\\', 'b']
  else if c.toNat = 12 then ['\\', 'f']
  else if 0x20 ≤ c.toNat ∧ c.toNat ≤ 0x7e then [c]
  else if c.toNat < 0x10000 then unitEscape c.toNat
  else
    let v := c.toNat - 0x10000
    unitEscape (0xd800 + v / 0x400) ++ unitEscape (0xdc00 + v % 0x400)

/-- A text as a double-quoted string of printable ASCII. -/
def quoteAscii (s : String) : String :=
  String.ofList ('"' :: s.toList.flatMap asciiEscape ++ ['"'])

end XagSynth.Text
