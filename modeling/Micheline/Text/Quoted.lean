import Micheline.Radix
import Micheline.Text.Printable

/-!
Texts between double quotes. The quote and the backslash get a backslash, tab, carriage return,
line feed and the null character have short escapes, and every other character that would not
be visible is written by its number in braces.
-/

namespace Micheline.Text

def hexNumber (n : Nat) : List Char :=
  if n = 0 then ['0'] else (Radix.digits 16 n).map Nat.digitChar

def quoteChar (c : Char) : List Char :=
  match c with
  | '"' => ['\\', '"']
  | '\\' => ['\\', '\\']
  | '\t' => ['\\', 't']
  | '\r' => ['\\', 'r']
  | '\n' => ['\\', 'n']
  | '\x00' => ['\\', '0']
  | c => if isShown c then [c] else ['\\', 'u', '\x7b'] ++ hexNumber c.toNat ++ ['\x7d']

def quoted (text : String) : String :=
  String.ofList ('"' :: text.toList.flatMap quoteChar ++ ['"'])

end Micheline.Text
