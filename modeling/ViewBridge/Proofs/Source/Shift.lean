import ViewBridge.Source.Indentation

namespace ViewBridge.Indentation

open List

/-- A width that is moved from one margin to another. -/
def shifted (margin width k : Nat) : Nat := k - margin + width

variable {margin width k : Nat} {inner outer : List Nat} {change : IndentChange}
  {blocks : Indentation}

theorem shifted_lt_iff (width : Nat) {j : Nat} (hj : margin ≤ j) (hk : margin ≤ k) :
    shifted margin width k < shifted margin width j ↔ k < j := by
  unfold shifted
  omega

theorem top_inner (width : Nat) (outer : List Nat) (hi : ∀ x ∈ inner, margin < x) :
    margin ≤ (Indentation.mk (inner ++ margin :: outer)).top ∧
      (Indentation.mk (inner.map (shifted margin width) ++ [width])).top =
        shifted margin width (Indentation.mk (inner ++ margin :: outer)).top := by
  cases inner with
  | nil =>
    refine ⟨Nat.le_refl margin, ?_⟩
    show width = margin - margin + width
    omega
  | cons x inner => exact ⟨Nat.le_of_lt (hi x mem_cons_self), rfl⟩

theorem closeTo_inner (hk : margin ≤ k) :
    (Indentation.mk (inner ++ margin :: outer)).closeTo k =
      ⟨inner.dropWhile (k < ·) ++ margin :: outer⟩ := by
  have stop : (margin :: outer).dropWhile (k < ·) = margin :: outer := by
    rw [dropWhile_cons, if_neg (by simpa using hk)]
  unfold closeTo
  rw [dropWhile_append, stop]
  split
  next none => rw [List.isEmpty_iff.mp none, nil_append]
  next => rfl

theorem closeTo_shifted (hi : ∀ x ∈ inner, margin < x) (hk : margin ≤ k) :
    (Indentation.mk (inner.map (shifted margin width) ++ [width])).closeTo (shifted margin width k) =
      ⟨(inner.dropWhile (k < ·)).map (shifted margin width) ++ [width]⟩ := by
  have stop : [width].dropWhile (shifted margin width k < ·) = [width] := by
    have bound : ¬shifted margin width k < width := by
      unfold shifted
      omega
    simp [bound]
  have moved : (inner.map (shifted margin width)).dropWhile (shifted margin width k < ·) =
      (inner.dropWhile (k < ·)).map (shifted margin width) := by
    induction inner with
    | nil => rfl
    | cons x inner ih =>
      obtain ⟨hx, hi⟩ := forall_mem_cons.mp hi
      have same := shifted_lt_iff width (Nat.le_of_lt hx) hk
      simp only [map_cons, dropWhile_cons, same, ih hi]
      split <;> rfl
  unfold closeTo
  rw [dropWhile_append, moved, stop]
  split
  next none => rw [List.isEmpty_iff.mp none, nil_append]
  next => rfl

/-- A line that leaves a block open is as wide as that block. -/
theorem le_of_update (hi : ∀ x ∈ inner, margin < x)
    (h : (Indentation.mk (inner ++ margin :: outer)).update k = .ok (change, blocks))
    (hd : outer.length < blocks.depth) : margin ≤ k := by
  have top := (top_inner 0 outer hi).1
  rcases Nat.lt_or_ge k margin with hk | hk
  · have wider : ∀ x ∈ inner, decide (k < x) = true := by
      intro x hx
      have := hi x hx
      simp only [decide_eq_true_eq]
      omega
    have close : (inner ++ margin :: outer).dropWhile (k < ·) = outer.dropWhile (k < ·) := by
      rw [dropWhile_append_of_pos wider, dropWhile_cons, if_pos (by simpa using hk)]
    unfold update at h
    rw [if_neg (by omega), if_neg (by omega)] at h
    dsimp only at h
    split at h
    next =>
      cases h
      have fewer : (outer.dropWhile (k < ·)).length ≤ outer.length :=
        (dropWhile_sublist _).length_le
      have left : (closeTo k ⟨inner ++ margin :: outer⟩).depth =
          (outer.dropWhile (k < ·)).length := congrArg List.length close
      omega
    next => cases h
  · exact hk

/-- A line moved with its blocks does the same to them. -/
theorem update_shifted (width : Nat) (hi : ∀ x ∈ inner, margin < x) (hk : margin ≤ k)
    (h : (Indentation.mk (inner ++ margin :: outer)).update k = .ok (change, blocks)) :
    ∃ rest, blocks = ⟨rest ++ margin :: outer⟩ ∧ (∀ x ∈ rest, margin < x) ∧
      (Indentation.mk (inner.map (shifted margin width) ++ [width])).update
        (shifted margin width k) =
          .ok (change, ⟨rest.map (shifted margin width) ++ [width]⟩) := by
  obtain ⟨top, moved⟩ := top_inner width outer hi
  have above : (Indentation.mk (inner.map (shifted margin width) ++ [width])).top <
      shifted margin width k ↔ (Indentation.mk (inner ++ margin :: outer)).top < k := by
    rw [moved]
    exact shifted_lt_iff width hk top
  have level : shifted margin width k =
      (Indentation.mk (inner.map (shifted margin width) ++ [width])).top ↔
        k = (Indentation.mk (inner ++ margin :: outer)).top := by
    rw [moved]
    unfold shifted
    omega
  unfold update at h ⊢
  simp only [above, level]
  split at h
  next deeper =>
    cases h
    rw [if_pos deeper]
    refine ⟨k :: inner, rfl, forall_mem_cons.mpr ⟨by omega, hi⟩, rfl⟩
  next deeper =>
    rw [if_neg deeper]
    split at h
    next same =>
      cases h
      rw [if_pos same]
      exact ⟨inner, rfl, hi, rfl⟩
    next same =>
      rw [if_neg same]
      have kept : ∀ x ∈ inner.dropWhile (k < ·), margin < x :=
        fun x hx => hi x ((dropWhile_sublist _).subset hx)
      obtain ⟨top', moved'⟩ := top_inner width outer kept
      simp only [closeTo_inner hk, closeTo_shifted hi hk] at h ⊢
      have level' : shifted margin width k = (Indentation.mk
          ((inner.dropWhile (k < ·)).map (shifted margin width) ++ [width])).top ↔
            k = (Indentation.mk (inner.dropWhile (k < ·) ++ margin :: outer)).top := by
        rw [moved']
        unfold shifted
        omega
      simp only [level']
      split at h
      next found =>
        cases h
        rw [if_pos found]
        refine ⟨_, rfl, kept, ?_⟩
        have fewer : (inner.dropWhile (k < ·)).length ≤ inner.length :=
          (dropWhile_sublist _).length_le
        simp only [depth, length_append, length_map, length_cons, length_nil]
        congr 3
        omega
      next => cases h

end ViewBridge.Indentation
