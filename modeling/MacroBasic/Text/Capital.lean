/-
Upper and lower case as far as the letters A to Z are concerned. Keywords are spelled in these
letters only, so a text is one of them exactly when its capitals are; besides a to z a few single
characters stand for such letters when raised: the sharp s, the long s, the dotless i and the
Latin ligatures. Any other character stays as it is, which no keyword contains.
-/

namespace MacroBasic.Text

/-- The capitals of one character. -/
def capitals (c : Char) : List Char :=
  if c.isLower then [c.toUpper]
  else match c.toNat with
    | 0xdf => ['S', 'S']
    | 0x131 => ['I']
    | 0x17f => ['S']
    | 0xfb00 => ['F', 'F']
    | 0xfb01 => ['F', 'I']
    | 0xfb02 => ['F', 'L']
    | 0xfb03 => ['F', 'F', 'I']
    | 0xfb04 => ['F', 'F', 'L']
    | 0xfb05 => ['S', 'T']
    | 0xfb06 => ['S', 'T']
    | _ => [c]

/-- A text in capitals. -/
def toCapitals (s : String) : String := String.ofList (s.toList.flatMap capitals)

/-- A text with A to Z lowered; the sign for the unit kelvin is lowered to its letter. -/
def toSmall (s : String) : String :=
  s.map fun c => if c.toNat = 0x212a then 'k' else c.toLower

/-- A text with A to Z lowered and nothing else changed. -/
def toSmallLatin (s : String) : String := s.map Char.toLower

end MacroBasic.Text
