import ViewBridge.Text.CharRange

namespace ViewBridge.Text

/-- The sizes where small letters and others take turns. -/
def byTurns (n : Nat) : List Nat := List.replicate n 1

def lowercaseRanges : List (Nat × Nat) := rangesFrom 0 (List.flatten [
  [97, 26, 47, 1, 10, 1, 4, 1, 36, 24, 1, 8], byTurns 55, [2], byTurns 15, [2], byTurns 46, [2, 1,
  1, 1, 1, 3, 2, 1, 1, 1, 2, 1, 3, 2, 4, 1, 2, 1, 3, 3, 2, 1, 2, 1, 1, 1, 1, 1, 2, 1, 1, 2, 1, 1, 2,
  1, 3, 1, 1, 1, 2, 2, 2, 3, 6, 1, 2, 1, 2], byTurns 16, [2], byTurns 17, [2, 2, 1, 1, 1, 3],
  byTurns 58, [7, 2, 1, 2, 2, 1, 1, 4, 1, 1, 1, 1, 1, 1, 1, 1, 69, 2, 35, 7, 2, 30, 5, 96, 1, 43, 1,
  1, 1, 3, 1, 2, 4, 18, 1, 27, 35, 1, 2, 3, 3], byTurns 23, [5, 1, 1, 2, 1, 2, 2, 51, 48], byTurns
  34, [9], byTurns 53, [2], byTurns 12, [2], byTurns 96, [48, 41, 2887, 43, 1, 4, 760, 6, 2178, 9,
  1, 1, 117, 192, 65], byTurns 148, [9], byTurns 97, [9, 8, 6, 10, 8, 8, 8, 8, 6, 10, 8, 8, 8, 8,
  14, 2, 8, 8, 8, 8, 8, 8, 5, 1, 2, 6, 1, 3, 3, 1, 2, 8, 4, 2, 2, 8, 8, 10, 3, 1, 2, 121, 1, 13, 1,
  16, 13, 109, 1, 3, 2, 3, 1, 27, 1, 4, 1, 4, 1, 2, 2, 8, 4, 4, 1, 33, 16, 4, 1, 843, 26, 1862, 48,
  1, 1, 3, 2, 1, 1, 1, 1, 1, 1, 4, 1, 1, 2, 1, 8, 3], byTurns 98, [2, 7, 1, 1, 1, 4, 1, 12, 38, 1,
  1, 5, 1, 30995], byTurns 45, [19], byTurns 26, [3, 133], byTurns 12, [3], byTurns 61, [10, 1, 1,
  1, 1, 2, 1, 1, 1, 1, 1, 1, 1, 1, 1, 4, 1, 1, 1, 2, 1, 1, 3], byTurns 20, [5, 1, 5], byTurns 15,
  [4, 1, 1, 1, 2], byTurns 15, [21, 4, 1, 1, 1, 3, 821, 43, 1, 14, 6, 80, 20288, 7, 12, 5, 1065, 26,
  1229, 40, 136, 36, 155, 11, 1, 15, 1, 7, 1, 2, 451, 1, 2, 3, 1, 42, 1, 9, 1285, 51, 125, 22, 2874,
  32, 21888, 32, 59, 25, 25926, 26, 26, 7, 1, 18, 26, 26, 26, 4, 1, 1, 1, 7, 1, 11, 26, 26, 26, 26,
  26, 26, 26, 26, 26, 26, 26, 26, 26, 26, 26, 26, 26, 28, 28, 25, 1, 6, 26, 25, 1, 6, 26, 25, 1, 6,
  26, 25, 1, 6, 26, 25, 1, 6, 1, 1, 1844, 10, 1, 20, 6, 6, 261, 62, 2228, 34]])

/-- Characters with the Lowercase property. -/
def isLowercase (c : Char) : Bool := inRanges c.toNat lowercaseRanges

end ViewBridge.Text
