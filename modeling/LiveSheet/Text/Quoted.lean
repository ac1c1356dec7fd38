/-!
Strings in data files. A quoted string stands between double quotes; the quote, the
backslash and the control characters below U+0020 are escaped, everything else stands for
itself.
-/

namespace LiveSheet.Text.Quoted

def encodeChar (c : Char) : List Char :=
  if c = '"' then ['\\', '"']
  else if c = '\\' then ['\\', '\\']
  else if c = '\x08' then ['\\', 'b']
  else if c = '\x0c' then ['\\', 'f']
  else if c = '\n' then ['\\', 'n']
  else if c = '\r' then ['\\', 'r']
  else if c = '\t' then ['\\', 't']
  else if c.toNat < 0x20 then ['\\', 'u', '0', '0', (c.toNat / 16).digitChar, (c.toNat % 16).digitChar]
  else [c]

def encode (cs : List Char) : List Char := cs.flatMap encodeChar

def quote (cs : List Char) : List Char := '"' :: encode cs ++ ['"']

end LiveSheet.Text.Quoted
