import Predictive.Text.Blank

/-!
# Integers written by people

An integer may be surrounded by white space, carry a sign and leading zeros, group its digits by
single underscores, and end in a decimal point with at least one zero behind it. Between and behind
leading zeros any number of underscores may stand, and the minus sign too may come after the zeros.

* `IntegerText.read`: the value of a written integer, or why there is none.
-/

namespace Predictive.Lenient

/-- White space of Unicode: a blank that is none of the four separators. -/
def isWhiteSpace (c : Char) : Bool :=
  Text.isBlank c && !(0x1C ≤ c.toNat && c.toNat ≤ 0x1F)

namespace IntegerText

/-- Why a text is no integer. -/
inductive Fault where
  /-- The text is not written as an integer. -/
  | malformed
  /-- The integer has too many digits. -/
  | tooLong
  deriving DecidableEq

/-- How many digits an integer may have; its sign does not count. -/
def maxDigits : Nat := 4300

/-- What is left of a text behind its leading zeros and underscores, of which `last` came last. The
last of them is kept in front of a point and at the end of the text; other characters than a digit
and a minus sign do not come behind zeros. -/
def afterZeros? (last : Char) : List Char → Option (List Char)
  | [] => some [last]
  | c :: cs =>
    if c = '0' || c = '_' then afterZeros? c cs
    else if c.isDigit || c = '-' then some (c :: cs)
    else if c = '.' then some (last :: c :: cs)
    else none

/-- A text that begins with a digit, without its leading zeros. -/
def withoutZeros? : List Char → Option (List Char)
  | [] => none
  | c :: cs =>
    if c = '0' then afterZeros? c cs else if c.isDigit then some (c :: cs) else none

/-- A text without a point and some zeros at its end. -/
def withoutFraction (cs : List Char) : List Char :=
  match cs.dropWhile (· ≠ '.') with
  | [] => cs
  | _ :: fraction =>
    if fraction.isEmpty || fraction.any (· ≠ '0') then cs else cs.takeWhile (· ≠ '.')

/-- A text without its underscores, if they are single ones inside it; else they all stay. -/
def ungrouped (cs : List Char) : List Char :=
  let groups := cs.splitOn '_'
  if groups.any List.isEmpty then cs else groups.flatten

/-- The bare form of an integer behind its sign. -/
def bare? (cs : List Char) : Option (List Char) :=
  (withoutZeros? cs).map fun cs => ungrouped (withoutFraction cs)

/-- The value of some decimal digits. -/
def value (cs : List Char) : Nat :=
  cs.foldl (fun n c => 10 * n + (c.toNat - '0'.toNat)) 0

/-- The value of some digits. Only zero begins with a zero. -/
def digits (cs : List Char) : Except Fault Nat :=
  if cs.isEmpty || (cs.head? = some '0' && cs.length ≠ 1) then .error .malformed
  else if maxDigits < (cs.takeWhile Char.isDigit).length then .error .tooLong
  else if cs.any (!·.isDigit) then .error .malformed
  else .ok (value cs)

/-- The value of a bare integer. -/
def signed : List Char → Except Fault Int
  | '-' :: cs => (digits cs).map fun n => -(n : Int)
  | cs => (digits cs).map fun n => (n : Int)

/-- The bare form of an integer. -/
def clean? (cs : List Char) : Option (List Char) :=
  match cs with
  | '-' :: cs => (bare? cs).map ('-' :: ·)
  | '+' :: cs => bare? cs
  | cs => bare? cs

/-- The value of a written integer. -/
def read (text : String) : Except Fault Int :=
  match clean? (Text.trim isWhiteSpace text.toList) with
  | none => .error .malformed
  | some cs => signed cs

end IntegerText

end Predictive.Lenient
