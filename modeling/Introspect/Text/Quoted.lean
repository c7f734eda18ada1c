import Introspect.Text.Extending
import Introspect.Text.Unshown

/-!
# Quoted text

Messages show a text between quotation marks, with everything that would be invisible or misleading
there written as an escape:

* the null character, tab, line feed and carriage return as `\0`, `\t`, `\n` and `\r`;
* a quotation mark and a backslash behind a backslash (an apostrophe stays as it is);
* characters that attach to the one before them (`Text.isExtending`) or are not shown
  (`Text.isUnshown`) by their number, as `\u` and lower-case hexadecimal digits in braces;
* every other character as itself.
-/

namespace Introspect.Text

/-- One character inside quotation marks. -/
def quotedChar (c : Char) : List Char :=
  match c with
  | '\x00' => ['\\', '0']
  | '\t' => ['\\', 't']
  | '\n' => ['\\', 'n']
  | '\r' => ['\\', 'r']
  | '"' => ['\\', '"']
  | '\\' => ['\\', '\\']
  | c =>
    if isExtending c || isUnshown c then
      ['\\', 'u', '{'] ++ Nat.toDigits 16 c.toNat ++ ['}']
    else
      [c]

/-- **A text between quotation marks**, as messages show it. -/
def quoted (s : String) : String :=
  String.ofList ('"' :: s.toList.flatMap quotedChar ++ ['"'])

end Introspect.Text
