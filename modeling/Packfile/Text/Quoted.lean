import Packfile.Text.Hex
import Packfile.Text.Hidden

/-!
# Quoted text

Text in quotes, as it appears in outlines of values: quotes and backslashes are escaped, and so is
every character that would not show.
-/

namespace Packfile.Quoted

/-- Whether a character shows by itself. -/
def shows (c : Char) : Bool := 32 ≤ c.toNat && !Text.Hidden.mem c.toNat

/-- A character inside quotes. -/
def escape (c : Char) : List Char :=
  if c = '"' then ['\\', '"']
  else if c = '\\' then ['\\', '\\']
  else if c = '\n' then ['\\', 'n']
  else if c = '\r' then ['\\', 'r']
  else if c = '\t' then ['\\', 't']
  else if c.toNat = 0 then ['\\', '0']
  else if shows c then [c]
  else ['\\', 'u', '\x7b'] ++ Nat.toDigits 16 c.toNat ++ ['\x7d']

/-- A text in quotes. -/
def quote (text : String) : String :=
  "\"" ++ String.ofList (text.toList.flatMap escape) ++ "\""

end Packfile.Quoted
