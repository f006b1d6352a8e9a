import ViewBridge.Text.Alphabetic
import ViewBridge.Text.Numeric

namespace ViewBridge.Text

def isNameStart (c : Char) : Bool := isAlphabetic c || c == '_'

/-- Letters and numbers of every script. -/
def isAlphanumeric (c : Char) : Bool := isAlphabetic c || isNumeric c

/-- Characters that may continue a name. -/
def isNamePart (c : Char) : Bool := isAlphanumeric c || c == '_'

theorem isNamePart_of_isNameStart {c : Char} (h : isNameStart c = true) : isNamePart c = true := by
  simp only [isNameStart, isNamePart, isAlphanumeric, Bool.or_eq_true] at h ⊢
  rcases h with h | h <;> simp [h]

/-- Digits of the decimal system in ASCII. -/
def isDigit (c : Char) : Bool := '0' ≤ c && c ≤ '9'

end ViewBridge.Text
