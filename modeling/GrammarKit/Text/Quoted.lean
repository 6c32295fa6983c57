/-
Text between quotation marks for reports. Quotes and backslashes are escaped, control characters get
their letter, and whatever has no visible form of its own or attaches to the character before it is
written as a hexadecimal code in braces.
-/
import GrammarKit.Unicode.Property

namespace GrammarKit.Text

def isHidden (c : Char) : Bool :=
  c != ' ' && (Unicode.unprinted ++ Unicode.extending).any fun (a, b) => a ≤ c.toNat && c.toNat ≤ b

def hexCode (n : Nat) : List Char := Nat.toDigits 16 n

def escape (c : Char) : List Char :=
  match c with
  | '\x00' => ['\\', '0']
  | '\t' => ['\\', 't']
  | '\r' => ['\\', 'r']
  | '\n' => ['\\', 'n']
  | '"' => ['\\', '"']
  | '\\' => ['\\', '\\']
  | _ =>
    if ' ' ≤ c ∧ c ≤ '~' then [c]
    else if isHidden c then '\\' :: 'u' :: '\x7b' :: hexCode c.toNat ++ ['\x7d'] else [c]

/-- A text as it is written in a report. -/
def quoted (s : String) : String := String.ofList ('"' :: s.toList.flatMap escape ++ ['"'])

end GrammarKit.Text
