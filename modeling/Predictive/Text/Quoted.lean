import Predictive.Text.Printable

/-!
# Quoted text

A text between two equal quotes, written with printable characters alone: the quote and the
backslash have a backslash in front, and characters that are not printable are written by their
code points in the fewest of two, four or eight hexadecimal digits. Quotes are single, or double
around a text that holds single ones and no double ones.
-/

namespace Predictive.Text

namespace Quoted

/-- The single quote. -/
def single : Char := '\x27'

/-- The double quote. -/
def double : Char := '\x22'

/-- The quote around a text. -/
def mark (cs : List Char) : Char := if single ∈ cs ∧ double ∉ cs then double else single

/-- A number in as many hexadecimal digits as `width` says. -/
def hexDigits : (width : Nat) → Nat → List Char
  | 0, _ => []
  | width + 1, n => hexDigits width (n / 16) ++ [Nat.digitChar (n % 16)]

/-- A code point between a backslash and the end of its digits. -/
def codePoint (n : Nat) : List Char :=
  if n < 0x100 then 'x' :: hexDigits 2 n
  else if n < 0x10000 then 'u' :: hexDigits 4 n
  else 'U' :: hexDigits 8 n

/-- The letter that stands for a control behind a backslash. -/
def letter? : Char → Option Char
  | '\t' => some 't'
  | '\n' => some 'n'
  | '\r' => some 'r'
  | _ => none

/-- The written form of a character between quotes. -/
def written (quote c : Char) : List Char :=
  if c = quote || c = '\\' then ['\\', c]
  else if isPrintable c then [c]
  else
    match letter? c with
    | some l => ['\\', l]
    | none => '\\' :: codePoint c.toNat

end Quoted

/-- The quoted form of a text. -/
def quoted (text : String) : String :=
  let cs := text.toList
  let quote := Quoted.mark cs
  String.ofList (quote :: (cs.flatMap (Quoted.written quote) ++ [quote]))

end Predictive.Text
