import Stlc.Text.Extending
import Stlc.Text.Ignorable
import Stlc.Text.Unprintable

/-!
# Quoted text

Text between quotes, with an escape for every character that could not be told apart from its
neighbours there: quotes and backslashes, controls and other characters without a mark of their
own, characters that are not shown, and characters that would join the one before them.
-/

namespace Stlc

def quotedChar (c : Char) : List Char :=
  if c = '\x00' then ['\\', '0']
  else if c = '\t' then ['\\', 't']
  else if c = '\r' then ['\\', 'r']
  else if c = '\n' then ['\\', 'n']
  else if c = '"' then ['\\', '"']
  else if c = '\\' then ['\\', '\\']
  else if isExtending c || isIgnorable c || isUnprintable c then
    ['\\', 'u', '\x7b'] ++ Nat.toDigits 16 c.toNat ++ ['\x7d']
  else [c]

def quoted (s : String) : String := "\"" ++ String.ofList (s.toList.flatMap quotedChar) ++ "\""

end Stlc
