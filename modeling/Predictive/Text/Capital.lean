/-!
# Capital letters

A text in capitals, as far as they are letters of ASCII. Besides the small letters of ASCII ten
characters have such capitals, some of them two or three; every other character is left alone.
-/

namespace Predictive.Text

/-- The capitals of a character. -/
def capitals : Char → List Char
  | 'ß' => ['S', 'S']
  | 'ı' => ['I']
  | 'ſ' => ['S']
  | 'ﬀ' => ['F', 'F']
  | 'ﬁ' => ['F', 'I']
  | 'ﬂ' => ['F', 'L']
  | 'ﬃ' => ['F', 'F', 'I']
  | 'ﬄ' => ['F', 'F', 'L']
  | 'ﬅ' => ['S', 'T']
  | 'ﬆ' => ['S', 'T']
  | c => [c.toUpper]

/-- A text in capitals. -/
def capitalized (text : String) : String := String.ofList (text.toList.flatMap capitals)

end Predictive.Text
