import ColorGraph.Text.Hidden
/-!
Text in double quotes, as messages show a value they complain about.
-/

set_option autoImplicit false

namespace ColorGraph.Text

/-- A quote and a backslash take a backslash, the common controls a letter after one, and every
other hidden character its code point in braces. -/
def quotedChar (c : Char) : List Char :=
  if c = '"' then ['\\', '"']
  else if c = '\\' then ['\\', '\\']
  else if c = '\n' then ['\\', 'n']
  else if c = '\r' then ['\\', 'r']
  else if c = '\t' then ['\\', 't']
  else if c = '\x00' then ['\\', '0']
  else if isHidden c then
    ['\\', 'u', '\x7b'] ++ Nat.toDigits 16 c.toNat ++ ['\x7d']
  else [c]

def quoted (s : String) : String :=
  String.ofList ('"' :: s.toList.flatMap quotedChar ++ ['"'])

end ColorGraph.Text
