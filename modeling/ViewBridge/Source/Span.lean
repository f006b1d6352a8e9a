namespace ViewBridge

/-- A place in a text: characters before it, and its line and column counted from one. -/
structure Position where
  offset : Nat
  line : Nat
  column : Nat
  deriving DecidableEq, Inhabited

def Position.start : Position := ⟨0, 1, 1⟩

/-- The place after one more character. -/
def Position.step (p : Position) (c : Char) : Position :=
  if c = '\n' then ⟨p.offset + 1, p.line + 1, 1⟩ else ⟨p.offset + 1, p.line, p.column + 1⟩

def Position.after (p : Position) (text : List Char) : Position := text.foldl Position.step p

@[simp] theorem Position.after_nil (p : Position) : p.after [] = p := rfl

@[simp] theorem Position.after_cons (p : Position) (c : Char) (text : List Char) :
    p.after (c :: text) = (p.step c).after text := rfl

theorem Position.after_append (p : Position) (first second : List Char) :
    p.after (first ++ second) = (p.after first).after second :=
  List.foldl_append

@[simp] theorem Position.offset_step (p : Position) (c : Char) :
    (p.step c).offset = p.offset + 1 := by
  unfold Position.step
  split <;> rfl

theorem Position.offset_after (p : Position) (text : List Char) :
    (p.after text).offset = p.offset + text.length := by
  induction text generalizing p with
  | nil => rfl
  | cons c text ih => simp [ih]; omega

/-- A stretch of a text from `start` up to `stop`, with the line and column of its start. -/
structure Span where
  start : Nat
  stop : Nat
  line : Nat
  column : Nat
  deriving DecidableEq, Inhabited

namespace Span

/-- The empty span at the start of a text, for what no text stands behind. -/
def origin : Span := ⟨0, 0, 1, 1⟩

/-- The span of `width` characters from a place on. -/
def ofPosition (p : Position) (width : Nat) : Span := ⟨p.offset, p.offset + width, p.line, p.column⟩

def length (s : Span) : Nat := s.stop - s.start

def isEmpty (s : Span) : Bool := s.start == s.stop

/-- The characters under a span, cut off at the end of the text. -/
def text (s : Span) (source : String) : String :=
  String.ofList ((source.toList.drop s.start).take (s.stop - s.start))

/-- How a place is told to the user. -/
def shown (s : Span) : String := "line " ++ toString s.line ++ ", column " ++ toString s.column

end Span

end ViewBridge
