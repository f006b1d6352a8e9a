namespace ViewBridge.Literal

/-- What a character after a backslash stands for; an unknown escape keeps its backslash. -/
def unescape (c : Char) : List Char :=
  if c = 'n' then ['\n'] else if c = 't' then ['\t'] else if c = 'r' then ['\r']
  else if c = '\\' ∨ c = '\'' ∨ c = '"' then [c] else ['\\', c]

/-- An escape kept as it is written. -/
def keepEscape (c : Char) : List Char := ['\\', c]

/-- Text and how many characters it was written with, the closing quote included. -/
structure QuotedText where
  text : List Char
  length : Nat
  deriving DecidableEq

/-- The same with characters written before it. -/
def QuotedText.push (q : QuotedText) (text : List Char) (length : Nat) : QuotedText :=
  ⟨text ++ q.text, length + q.length⟩

/-- Reads a text up to its closing quote on the same line, given what an escape stands for. -/
def quotedText? (escape : Char → List Char) (quote : Char) : List Char → Option QuotedText
  | [] => none
  | [c] => if c = quote then some ⟨[], 1⟩ else none
  | c :: e :: rest =>
    if c = quote then some ⟨[], 1⟩
    else if c = '\n' then none
    else if c = '\\' then (quotedText? escape quote rest).map (·.push (escape e) 2)
    else (quotedText? escape quote (e :: rest)).map (·.push [c] 1)

/-- Reads a text that may span lines up to three closing quotes. -/
def longText? (escape : Char → List Char) (quote : Char) : List Char → Option QuotedText
  | [] => none
  | [_] => none
  | c :: e :: rest =>
    if c = quote ∧ e = quote ∧ rest.head? = some quote then some ⟨[], 3⟩
    else if c = '\\' then (longText? escape quote rest).map (·.push (escape e) 2)
    else (longText? escape quote (e :: rest)).map (·.push [c] 1)

end ViewBridge.Literal
