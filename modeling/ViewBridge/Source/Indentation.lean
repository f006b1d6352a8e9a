namespace ViewBridge

/-- What the indentation of a code line does to the open blocks. -/
inductive IndentChange where
  | same
  | indent
  | dedent (closed : Nat)
  deriving DecidableEq

/-- The widths of the open blocks, innermost first; the outermost level has width zero and is not
listed. -/
structure Indentation where
  widths : List Nat := []
  deriving DecidableEq, Inhabited

namespace Indentation

def depth (i : Indentation) : Nat := i.widths.length

/-- The width of the innermost block. -/
def top (i : Indentation) : Nat := i.widths.headD 0

/-- The blocks that a line of this width leaves open. -/
def closeTo (width : Nat) (i : Indentation) : Indentation :=
  ⟨i.widths.dropWhile (width < ·)⟩

/-- The change made by a code line of this width and the blocks open after it, or the blocks that
are left when the width matches none of them. -/
def update (i : Indentation) (width : Nat) : Except Indentation (IndentChange × Indentation) :=
  if i.top < width then .ok (.indent, ⟨width :: i.widths⟩)
  else if width = i.top then .ok (.same, i)
  else
    let rest := i.closeTo width
    if width = rest.top then .ok (.dedent (i.depth - rest.depth), rest) else .error rest

/-- How many blocks the end of a text closes, and that none is open after it. -/
def closeAll (i : Indentation) : Nat × Indentation := (i.depth, {})

@[simp] theorem closeAll_fst (i : Indentation) : i.closeAll.1 = i.depth := rfl

end Indentation

/-- The columns that a tab fills. -/
def tabWidth : Nat := 4

def isIndent (c : Char) : Bool := c == ' ' || c == '\t'

def indentColumns (c : Char) : Nat := if c == '\t' then tabWidth else 1

/-- The columns filled by blanks at the start of a line. -/
def indentWidth (blanks : List Char) : Nat := (blanks.map indentColumns).foldr (· + ·) 0

/-- The blanks that a text starts with. -/
def leadingBlanks (cs : List Char) : List Char := cs.takeWhile isIndent

end ViewBridge
