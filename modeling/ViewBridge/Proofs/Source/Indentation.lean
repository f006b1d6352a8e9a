import ViewBridge.Source.Indentation

namespace ViewBridge.Indentation

open List

/-- The widths of the open blocks behind the width of the outermost level. -/
def stack (i : Indentation) : List Nat := 0 :: i.widths.reverse

/-- The blocks that a line of this width leaves, also where it matches none of them. -/
def after (i : Indentation) (width : Nat) : Indentation :=
  match i.update width with
  | .ok (_, next) => next
  | .error left => left

/-- The blocks that lines of any widths and ends of texts can lead to. -/
inductive Reached : Indentation → Prop
  | start : Reached {}
  | line {i : Indentation} (width : Nat) : Reached i → Reached (i.after width)
  | closed {i : Indentation} : Reached i → Reached i.closeAll.2

/-- What a line of this width does to the blocks, by where the width stands among theirs. -/
structure Answers (i : Indentation) (width : Nat) : Prop where
  indent : (∃ next, i.update width = .ok (.indent, next)) ↔ i.top < width
  same : (∃ next, i.update width = .ok (.same, next)) ↔ width = i.top
  dedent (n : Nat) : (∃ next, i.update width = .ok (.dedent n, next)) ↔
    width < i.top ∧ width ∈ i.stack ∧ n = i.stack.countP (width < ·)
  mismatch : (∃ left, i.update width = .error left) ↔ width < i.top ∧ width ∉ i.stack
  top {change : IndentChange} {next : Indentation} : i.update width = .ok (change, next) →
    next.top = width
  depth {change : IndentChange} {next : Indentation} : i.update width = .ok (change, next) →
    (change = .indent → next.depth = i.depth + 1) ∧ (change = .same → next.depth = i.depth) ∧
      ∀ n, change = .dedent n → next.depth + n = i.depth
  left {left : Indentation} : i.update width = .error left →
    left.stack = i.stack.filter (· < width)

variable {i : Indentation} {width : Nat}

theorem getLast?_stack (i : Indentation) : i.stack.getLast? = some i.top := by
  obtain ⟨widths⟩ := i
  cases widths with
  | nil => rfl
  | cons w widths =>
    rw [stack, reverse_cons, ← cons_append, getLast?_concat]
    rfl

theorem length_stack (i : Indentation) : i.stack.length = i.depth + 1 := by
  simp [stack, depth]

theorem stack_closeTo (h : i.stack.Pairwise (· < ·)) (width : Nat) :
    (i.closeTo width).stack = i.stack.filter (· ≤ width) := by
  have decreasing : i.widths.Pairwise (· > ·) :=
    pairwise_reverse.mp (pairwise_cons.mp h).2
  have kept : i.widths.dropWhile (width < ·) = i.widths.filter (· ≤ width) := by
    generalize i.widths = widths at decreasing
    induction widths with
    | nil => rfl
    | cons w widths ih =>
      obtain ⟨above, below⟩ := pairwise_cons.mp decreasing
      by_cases hw : width < w
      · rw [dropWhile_cons_of_pos (by simpa using hw), ih below,
          filter_cons_of_neg (by simpa using hw)]
      · have all : ∀ v ∈ w :: widths, v ≤ width := by
          intro v hv
          rcases mem_cons.mp hv with rfl | hv
          · omega
          · have := above v hv
            omega
        rw [dropWhile_cons_of_neg (by simpa using hw),
          filter_eq_self.mpr (by simpa using all)]
  simp [stack, closeTo, kept]

theorem le_top (h : i.stack.Pairwise (· < ·)) {w : Nat} (hw : w ∈ i.stack) : w ≤ i.top := by
  obtain ⟨front, split⟩ := getLast?_eq_some_iff.mp i.getLast?_stack
  rw [split] at h hw
  rcases mem_append.mp hw with hw | hw
  · exact Nat.le_of_lt ((pairwise_append.mp h).2.2 w hw i.top mem_cons_self)
  · exact Nat.le_of_eq (mem_singleton.mp hw)

theorem top_closeTo (h : i.stack.Pairwise (· < ·)) :
    width = (i.closeTo width).top ↔ width ∈ i.stack := by
  have kept := stack_closeTo h width
  have last : (i.closeTo width).top ∈ i.stack.filter (· ≤ width) :=
    kept ▸ mem_of_getLast? (getLast?_stack _)
  obtain ⟨mem, le⟩ := mem_filter.mp last
  constructor
  · intro eq
    rwa [eq]
  · intro hw
    have top := le_top (kept ▸ h.filter _) (kept ▸ mem_filter.mpr ⟨hw, by simp⟩)
    exact Nat.le_antisymm top (of_decide_eq_true le)

theorem depth_closeTo (h : i.stack.Pairwise (· < ·)) (width : Nat) :
    (i.closeTo width).depth + i.stack.countP (width < ·) = i.depth := by
  have all := i.length_stack
  have rest := (i.closeTo width).length_stack
  have split := i.stack.length_eq_countP_add_countP (width < ·)
  rw [stack_closeTo h, ← countP_eq_length_filter] at rest
  simp only [decide_eq_true_eq, Nat.not_lt] at split
  omega

theorem update_cases (h : i.stack.Pairwise (· < ·)) (width : Nat) :
    (i.top < width ∧ i.update width = .ok (.indent, ⟨width :: i.widths⟩)) ∨
      (width = i.top ∧ i.update width = .ok (.same, i)) ∨
      (width < i.top ∧ width ∈ i.stack ∧
        i.update width = .ok (.dedent (i.stack.countP (width < ·)), i.closeTo width)) ∨
      (width < i.top ∧ width ∉ i.stack ∧ i.update width = .error (i.closeTo width)) := by
  have closed : i.depth - (i.closeTo width).depth = i.stack.countP (width < ·) := by
    have := depth_closeTo h width
    omega
  unfold update
  rcases Nat.lt_trichotomy i.top width with above | same | below
  · exact .inl ⟨above, if_pos above⟩
  · exact .inr (.inl ⟨same.symm, by rw [if_neg (by omega), if_pos same.symm]⟩)
  · refine .inr (.inr ?_)
    rw [if_neg (by omega), if_neg (by omega)]
    dsimp only
    rw [closed]
    by_cases hw : width ∈ i.stack
    · exact .inl ⟨below, hw, if_pos ((top_closeTo h).mpr hw)⟩
    · exact .inr ⟨below, hw, if_neg fun eq => hw ((top_closeTo h).mp eq)⟩

theorem answers_of_increasing (h : i.stack.Pairwise (· < ·)) (width : Nat) : i.Answers width := by
  rcases update_cases h width with ⟨hw, eq⟩ | ⟨hw, eq⟩ | ⟨hw, mem, eq⟩ | ⟨hw, mem, eq⟩
  · have top : top ⟨width :: i.widths⟩ = width := rfl
    have depth : depth ⟨width :: i.widths⟩ = i.depth + 1 := rfl
    constructor <;> grind
  · constructor <;> grind
  · have top := (top_closeTo h).mpr mem
    have depth := depth_closeTo h width
    constructor <;> grind
  · have kept : (i.closeTo width).stack = i.stack.filter (· < width) := by
      rw [stack_closeTo h]
      refine filter_congr fun w hw => ?_
      have : w ≠ width := fun eq => mem (eq ▸ hw)
      simp only [decide_eq_decide]
      omega
    constructor <;> grind

theorem Reached.increasing (h : Reached i) : i.stack.Pairwise (· < ·) := by
  induction h with
  | start => simp [stack]
  | @line i width _ ih =>
    unfold after
    have lower := stack_closeTo ih width ▸ ih.filter (· ≤ width)
    rcases update_cases ih width with ⟨hw, eq⟩ | ⟨hw, eq⟩ | ⟨hw, mem, eq⟩ | ⟨hw, mem, eq⟩
    · rw [eq]
      have split : (Indentation.mk (width :: i.widths)).stack = i.stack ++ [width] := by simp [stack]
      rw [split, pairwise_append]
      refine ⟨ih, pairwise_singleton _ _, fun w mem v hv => ?_⟩
      rw [mem_singleton.mp hv]
      exact Nat.lt_of_le_of_lt (le_top ih mem) hw
    · rwa [eq]
    · rwa [eq]
    · rwa [eq]
  | closed => simp [stack, closeAll]

/-- The blocks of a text stay in order, whatever widths its lines have: the widths start at zero and
increase, a line is answered by where its width stands among them, one that matches none leaves those
below it, and the end of a text closes all. -/
theorem reached_answers (h : Reached i) :
    i.stack.head? = some 0 ∧ i.stack.Pairwise (· < ·) ∧ i.stack.getLast? = some i.top ∧
      i.stack.length = i.depth + 1 ∧ (∀ width, i.Answers width) ∧
      i.closeAll.1 = i.depth ∧ i.closeAll.2.stack = [0] :=
  ⟨rfl, h.increasing, i.getLast?_stack, i.length_stack, answers_of_increasing h.increasing, rfl, rfl⟩

/-- Lines of the widths 4, 8 and 6, the last of which matches no block. -/
theorem reached_answers_mismatch :
    Reached ⟨[4]⟩ ∧ stack ⟨[4]⟩ = [0, 4] ∧ Answers ⟨[4]⟩ 2 ∧ Answers ⟨[4]⟩ 0 ∧
      (closeAll ⟨[4]⟩).1 = 1 := by
  have reached : Reached ⟨[4]⟩ := .line 6 (.line 8 (.line 4 .start))
  obtain ⟨_, _, _, _, answers, closed, _⟩ := reached_answers reached
  exact ⟨reached, rfl, answers 2, answers 0, closed⟩

end ViewBridge.Indentation
