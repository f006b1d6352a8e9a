namespace ViewBridge.Text

/-- Codes from `low` to `high` in steps of `step` that share one distance to their upper case. -/
structure CaseRun where
  low : Nat
  high : Nat
  step : Nat
  shift : Int

def CaseRun.holds (run : CaseRun) (code : Nat) : Bool :=
  run.low ≤ code && code ≤ run.high && (code - run.low) % run.step == 0

/-- Runs in which capital and small letters alternate, by how many codes stand before each and how
many small letters it has. -/
def alternatingFrom (start : Nat) : List Nat → List CaseRun
  | gap :: size :: rest =>
    ⟨start + gap, start + gap + 2 * size - 2, 2, -1⟩ :: alternatingFrom (start + gap + 2 * size) rest
  | _ => []

/-- Runs of letters, by how many codes stand before each, how many are in it and their distance. -/
def shiftedFrom (start : Nat) : List Int → List CaseRun
  | gap :: size :: shift :: rest =>
    let low := start + gap.toNat
    ⟨low, low + size.toNat - 1, 1, shift⟩ :: shiftedFrom (low + size.toNat) rest
  | _ => []

/-- Letters whose upper case is one character. -/
def uppercaseRuns : List CaseRun := alternatingFrom 0 [
  257, 24, 2, 3, 1, 8, 1, 23, 1, 3, 3, 2, 1, 1, 2, 1, 4, 1, 5, 1, 6, 3, 1, 1, 3, 1, 1, 1, 2, 2, 1,
  1, 2, 1, 6, 1, 1, 1, 1, 1, 1, 8, 1, 9, 1, 1, 1, 1, 2, 20, 2, 9, 7, 1, 4, 1, 3, 5, 288, 2, 2, 1,
  96, 12, 7, 1, 1, 1, 100, 17, 8, 27, 1, 7, 1, 48, 5977, 1, 373, 75, 10, 48, 643, 1, 2779, 1, 5, 3,
  5, 1, 1, 1, 9, 50, 7, 2, 3, 1, 31052, 23, 18, 14, 134, 7, 2, 31, 9, 2, 1, 5, 3, 1, 3, 2, 2, 10,
  10, 8, 3, 2, 1, 8, 25, 1] ++ shiftedFrom 0 [
  97, 26, -32, 58, 1, 743, 42, 23, -32, 1, 7, -32, 0, 1, 121, 49, 1, -232, 77, 1, -300, 0, 1, 195,
  20, 1, 97, 4, 1, 163, 0, 1, 42561, 2, 1, 130, 32, 1, 56, 6, 1, -2, 2, 1, -2, 2, 1, -2, 16, 1, -79,
  21, 1, -2, 75, 2, 10815, 15, 1, 10783, 0, 1, 10780, 0, 1, 10782, 0, 1, -210, 0, 1, -206, 1, 2,
  -205, 1, 1, -202, 1, 1, -203, 0, 1, 42319, 3, 1, -205, 0, 1, 42315, 1, 1, -207, 0, 1, 42343, 0, 1,
  42280, 0, 1, 42308, 1, 1, -209, 0, 1, -211, 0, 1, 42308, 0, 1, 10743, 0, 1, 42305, 2, 1, -211, 1,
  1, 10749, 0, 1, -213, 2, 1, -214, 7, 1, 10727, 2, 1, -218, 1, 1, 42307, 0, 1, -218, 3, 1, 42282,
  0, 1, -218, 0, 1, -69, 0, 2, -217, 0, 1, -71, 5, 1, -219, 10, 1, 42261, 0, 1, 42258, 166, 1, 84,
  53, 3, 130, 46, 1, -38, 0, 3, -37, 1, 17, -32, 0, 1, -31, 0, 9, -32, 0, 1, -64, 0, 2, -63, 1, 1,
  -62, 0, 1, -57, 3, 1, -47, 0, 1, -54, 0, 1, -8, 24, 1, -86, 0, 1, -80, 0, 1, 7, 0, 1, -116, 1, 1,
  -96, 58, 32, -32, 0, 16, -80, 111, 1, -15, 145, 38, -48, 2889, 43, 3008, 2, 3, 3008, 760, 6, -8,
  2178, 1, -6254, 0, 1, -6253, 0, 1, -6244, 0, 2, -6242, 0, 1, -6243, 0, 1, -6236, 0, 1, -6181, 0,
  1, 35266, 240, 1, 35332, 3, 1, 3814, 16, 1, 35384, 268, 1, -59, 100, 8, 8, 8, 6, 8, 10, 8, 8, 8,
  8, 8, 8, 6, 8, 11, 1, 8, 1, 1, 8, 1, 1, 8, 1, 1, 8, 8, 8, 8, 8, 2, 74, 0, 4, 86, 0, 2, 100, 0, 2,
  128, 0, 2, 112, 0, 2, 126, 50, 2, 8, 12, 1, -7205, 17, 2, 8, 14, 2, 8, 3, 1, 7, 360, 1, -28, 33,
  16, -16, 848, 26, -26, 1862, 48, -48, 5, 1, -10795, 0, 1, -10792, 153, 38, -7264, 1, 1, -7264, 5,
  1, -7264, 31334, 1, 48, 958, 1, -928, 28, 80, -38864, 21377, 26, -32, 1229, 40, -40, 136, 36, -40,
  155, 11, -39, 1, 15, -39, 1, 7, -39, 1, 2, -39, 1795, 51, -64, 125, 22, -32, 2874, 32, -32, 21888,
  32, -32, 59, 25, -27, 31310, 34, -34]

/-- Letters whose upper case has several characters. -/
def uppercaseSequences : List (Nat × List Nat) := [
  (223, [83, 83]), (329, [700, 78]), (496, [74, 780]), (912, [921, 776, 769]),
  (944, [933, 776, 769]), (1415, [1333, 1362]), (7830, [72, 817]), (7831, [84, 776]),
  (7832, [87, 778]), (7833, [89, 778]), (7834, [65, 702]), (8016, [933, 787]),
  (8018, [933, 787, 768]), (8020, [933, 787, 769]), (8022, [933, 787, 834]), (8114, [8122, 921]),
  (8115, [913, 921]), (8116, [902, 921]), (8118, [913, 834]), (8119, [913, 834, 921]),
  (8124, [913, 921]), (8130, [8138, 921]), (8131, [919, 921]), (8132, [905, 921]),
  (8134, [919, 834]), (8135, [919, 834, 921]), (8140, [919, 921]), (8146, [921, 776, 768]),
  (8147, [921, 776, 769]), (8150, [921, 834]), (8151, [921, 776, 834]), (8162, [933, 776, 768]),
  (8163, [933, 776, 769]), (8164, [929, 787]), (8166, [933, 834]), (8167, [933, 776, 834]),
  (8178, [8186, 921]), (8179, [937, 921]), (8180, [911, 921]), (8182, [937, 834]),
  (8183, [937, 834, 921]), (8188, [937, 921]), (64256, [70, 70]), (64257, [70, 73]),
  (64258, [70, 76]), (64259, [70, 70, 73]), (64260, [70, 70, 76]), (64261, [83, 84]),
  (64262, [83, 84]), (64275, [1348, 1350]), (64276, [1348, 1333]), (64277, [1348, 1339]),
  (64278, [1358, 1350]), (64279, [1348, 1341])]

/-- The upper case of Greek vowels with an iota, for each sixteen codes from 8064 on. -/
def iotaRows : List Nat := [7944, 7976, 8040]

/-- The full upper case of a character, itself when it has none. -/
def uppercase (c : Char) : List Char :=
  match uppercaseRuns.find? (·.holds c.toNat) with
  | some run => [Char.ofNat (c.toNat + run.shift).toNat]
  | none =>
    match uppercaseSequences.find? (·.1 == c.toNat) with
    | some (_, codes) => codes.map Char.ofNat
    | none =>
      if c.toNat < 8064 then [c]
      else match iotaRows[(c.toNat - 8064) / 16]? with
        | some row => [Char.ofNat (row + c.toNat % 8), Char.ofNat 921]
        | none => [c]

/-- The text with its first character in upper case. -/
def capitalize (s : String) : String :=
  match s.toList with
  | [] => ""
  | c :: rest => String.ofList (uppercase c ++ rest)

end ViewBridge.Text
