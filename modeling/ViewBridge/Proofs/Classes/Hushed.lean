import ViewBridge.Classes.Token

namespace ViewBridge.Classes

variable {k : Kind}

/-- A word without what a string says. -/
def Word.hushed : Word → Word
  | .string _ => .string ""
  | w => w

def hushed : Kind → Kind
  | .word w => .word w.hushed
  | k => k

theorem isText_hushed (k : Kind) : (hushed k).isText = k.isText := by
  cases k <;> rfl

theorem endsOperand_hushed (k : Kind) : endsOperand (hushed k) = endsOperand k := by
  cases k with
  | word w => cases w <;> rfl
  | _ => rfl

theorem hushed_eq_self (h : ∀ text, k ≠ .word (.string text)) : hushed k = k := by
  cases k with
  | word w =>
    cases w with
    | string text => exact absurd rfl (h text)
    | _ => rfl
  | _ => rfl

theorem eq_of_hushed {j : Kind} (h : hushed k = j) (hj : ∀ text, j ≠ .word (.string text))
    : k = j := by
  have quiet : ∀ text, k ≠ .word (.string text) := by
    rintro text rfl
    exact hj "" h.symm
  rw [← h, hushed_eq_self quiet]

theorem exists_string_of_hushed {text : String} (h : hushed k = .word (.string text)) :
    ∃ text', k = .word (.string text') := by
  cases k with
  | word w =>
    cases w with
    | string text' => exact ⟨text', rfl⟩
    | _ => cases h
  | _ => cases h

end ViewBridge.Classes
