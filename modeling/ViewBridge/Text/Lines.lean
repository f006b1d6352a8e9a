namespace ViewBridge.Text

/-- A finished line, held backwards, without one carriage return at its end. -/
def finishLine : List Char → List Char
  | '\r' :: rest => rest.reverse
  | line => line.reverse

/-- The lines of a text after the part of a line already read, which is held backwards. -/
def linesFrom (line : List Char) : List Char → List (List Char)
  | [] => if line.isEmpty then [] else [line.reverse]
  | c :: rest =>
    if c = '\n' then finishLine line :: linesFrom [] rest else linesFrom (c :: line) rest

/-- The lines of a text. A newline ends a line and is not part of it, nor is one carriage return
before it; what follows the last newline is a line unless it is empty. -/
def lines (cs : List Char) : List (List Char) := linesFrom [] cs

/-- The runs of characters that satisfy `keep`, in order, with the empty runs between others. -/
def runs (keep : Char → Bool) : List Char → List (List Char)
  | [] => [[]]
  | c :: rest =>
    if keep c then
      match runs keep rest with
      | [] => [[c]]
      | run :: others => (c :: run) :: others
    else [] :: runs keep rest

end ViewBridge.Text
