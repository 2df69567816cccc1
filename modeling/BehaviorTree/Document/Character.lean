/-!
# The characters of a document

Which characters a document may hold, which of them end a line, and which separate words.
-/

namespace BehaviorTree

namespace Document

/-- Whether a document may hold a character: tabs, line breaks and what is neither a control
character nor a noncharacter of the basic plane. -/
def isAllowed (c : Char) : Bool :=
  let n := c.toNat
  n == 0x9 || n == 0xA || n == 0xD || (0x20 ≤ n && n ≤ 0x7E) || n == 0x85 ||
    (0xA0 ≤ n && n != 0xFFFE && n != 0xFFFF)

/-- Whether a character is a blank. -/
def isBlank (c : Char) : Bool := c == ' ' || c == '\t'

/-- Whether a character is a line or paragraph separator. -/
def isSeparator (c : Char) : Bool := c == '\u2028' || c == '\u2029'

/-- Whether a character ends a line. -/
def isBreak (c : Char) : Bool := c == '\n' || c == '\r' || c == '\u0085' || isSeparator c

/-- The character by which a break is kept in a text: separators stay, all others become a line
feed. -/
def breakText (c : Char) : Char := if isSeparator c then c else '\n'

/-- Whether a character may stand in a name. -/
def isNameChar (c : Char) : Bool := c.isAlphanum || c == '-' || c == '_'

/-- Whether a character is none of those that end a word. -/
def isSolid (c : Char) : Bool := !isBlank c && !isBreak c

/-- Whether a word ends here: the text is over, or a blank or a break comes. -/
def endsWord : List Char → Bool
  | [] => true
  | c :: _ => !isSolid c

/-- Whether the text goes on with one of some characters. -/
def startsWith (chars : List Char) : List Char → Bool
  | [] => false
  | c :: _ => chars.contains c

/-- The characters that have a meaning of their own in brackets. -/
def flowIndicators : List Char := [',', '[', ']', '\x7b', '\x7d']

end Document

end BehaviorTree
