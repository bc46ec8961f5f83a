/-!
# Request targets

A request names its target by a reference: a path, which a scheme, an authority, a query and a
fragment may accompany. The service looks at the path alone.

* `Target.decode`: percent escapes are undone once.
* `Target.withoutDots`: the segments `.` and `..` are resolved before the escapes are undone.
* `Target.path`: the path that a reference names. The sender and the service both undo percent
  escapes, so the path is decoded twice.
-/

namespace Predictive.Web.Target

/-- The number of a hexadecimal digit. -/
def hexValue? (c : Char) : Option Nat :=
  if c.isDigit then some (c.toNat - '0'.toNat)
  else if 'a' ≤ c ∧ c ≤ 'f' then some (c.toNat - 'a'.toNat + 10)
  else if 'A' ≤ c ∧ c ≤ 'F' then some (c.toNat - 'A'.toNat + 10)
  else none

/-- The ASCII character of two hexadecimal digits. -/
def asciiOfHex? (high low : Char) : Option Char :=
  match hexValue? high, hexValue? low with
  | some h, some l => if h < 8 then some (Char.ofNat (16 * h + l)) else none
  | _, _ => none

/-- Undoes the percent escapes of ASCII characters. Other escapes stay: no path of a route has a
character beyond ASCII. -/
def decode : List Char → List Char
  | '%' :: high :: low :: cs =>
    match asciiOfHex? high low with
    | some c => c :: decode cs
    | none => '%' :: decode (high :: low :: cs)
  | c :: cs => c :: decode cs
  | [] => []

/-- Some segments without those that stand for a step in the tree: `.` stays where it is and `..`
goes up by one, but not above the root. The segments so far are in `above`, last first. -/
def resolve (above : List (List Char)) : List (List Char) → List (List Char)
  | [] => above.reverse
  | segment :: segments =>
    if segment = ['.'] then resolve above segments
    else if segment = ['.', '.'] then
      resolve (if above = [[]] then above else above.drop 1) segments
    else resolve (segment :: above) segments

/-- A path without the segments `.` and `..`. -/
def withoutDots (path : List Char) : List Char :=
  List.intercalate ['/'] (resolve [] (path.splitOn '/'))

/-- A character of a scheme. -/
def isSchemeChar (c : Char) : Bool := c.isAlphanum || c = '+' || c = '-' || c = '.'

/-- The scheme in front of a colon and what is left behind it. A scheme begins with a letter; it
may be missing even if the colon is there. -/
def splitScheme (cs : List Char) : List Char × List Char :=
  let scheme := cs.takeWhile isSchemeChar
  match cs.dropWhile isSchemeChar with
  | ':' :: rest => if (scheme.take 1).all Char.isAlpha then (scheme, rest) else ([], cs)
  | _ => ([], cs)

/-- The authority behind two slashes and what is left behind it. -/
def splitAuthority : List Char → List Char × List Char
  | '/' :: '/' :: cs => (cs.takeWhile (· ≠ '/'), cs.dropWhile (· ≠ '/'))
  | cs => ([], cs)

/-- A path below the root. -/
def rooted (path : List Char) : List Char := '/' :: path.dropWhile (· = '/')

/-- The resolved path of a reference without its query and fragment. A reference with a scheme and
an authority is complete; any other is taken below the root. -/
def resolved (reference : List Char) : List Char :=
  let (scheme, rest) := splitScheme reference
  let (authority, path) := splitAuthority rest
  if scheme.isEmpty && authority.isEmpty then withoutDots (rooted path)
  else if scheme.isEmpty || authority.isEmpty then withoutDots (rooted (withoutDots path))
  else withoutDots path

/-- The path that a reference names. -/
def path (reference : String) : String :=
  let cs := resolved (reference.toList.takeWhile fun c => c ≠ '?' && c ≠ '#')
  String.ofList (decode (decode (if cs.isEmpty then ['/'] else cs)))

end Predictive.Web.Target
