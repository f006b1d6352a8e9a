namespace ViewBridge.Text

/-- Membership in inclusive increasing ranges; the search ends at the first range above the code. -/
def inRanges (code : Nat) : List (Nat × Nat) → Bool
  | [] => false
  | (low, high) :: rest =>
    if code < low then false else if code ≤ high then true else inRanges code rest

/-- The inclusive ranges from a code on, by how many codes stand before each of them and in it. -/
def rangesFrom (start : Nat) : List Nat → List (Nat × Nat)
  | gap :: size :: rest =>
    (start + gap, start + gap + size - 1) :: rangesFrom (start + gap + size) rest
  | _ => []

end ViewBridge.Text
