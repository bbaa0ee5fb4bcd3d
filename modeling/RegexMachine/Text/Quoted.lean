import RegexMachine.Text.Bytes
import RegexMachine.Unicode.Display

/-!
Quoted text. Quotes, backslashes, tabs, line breaks and the null character have two-character
escapes; characters that do not print on their own are written by code.
-/
namespace RegexMachine.Text

def quotedChar (c : Char) : String :=
  if c == '"' then "\\\""
  else if c == '\\' then "\\\\"
  else if c == '\t' then "\\t"
  else if c == '\r' then "\\r"
  else if c == '\n' then "\\n"
  else if c.toNat == 0 then "\\0"
  else if Unicode.isAttached c.toNat || !Unicode.isPrintable c.toNat then
    "\\u\x7b" ++ hexDigits c.toNat ++ "\x7d"
  else String.singleton c

def quoted (s : String) : String := "\"" ++ String.join (s.toList.map quotedChar) ++ "\""

end RegexMachine.Text
