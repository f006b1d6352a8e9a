import ViewBridge.Proofs.Classes.Concat
import ViewBridge.Proofs.Classes.Interface

namespace ViewBridge

open List

variable {ω : Type} {after before ks : List (TokenKind ω)} {k : TokenKind ω}

/-- The brackets of a line are closed on it. -/
theorem Matched.line {ls : List (TokenKind ω)} (h : Matched (ls ++ .newline :: ks)) :
    Matched ls := by
  rintro before b after rfl
  rw [append_assoc] at h
  obtain ⟨inner, rest, eq, enclosed⟩ := h before b (after ++ .newline :: ks) rfl
  rcases append_eq_append_iff.mp eq with ⟨more, rfl, tail⟩ | ⟨more, rfl, tail⟩
  · cases more with
    | nil => cases tail
    | cons k more =>
      obtain ⟨rfl, _⟩ := List.cons.inj tail
      cases enclosed.isText _ (mem_append_right _ mem_cons_self)
  · cases more with
    | nil => cases tail
    | cons k more =>
      obtain ⟨rfl, _⟩ := List.cons.inj tail
      exact ⟨inner, more, rfl, enclosed⟩

/-- Behind a token of a line its end comes. -/
theorem Skeleton.newline_mem (h : Skeleton (before ++ k :: after ++ [.eof])) (hk : k.isText = true)
    : .newline ∈ after := by
  have some : before ++ k :: after ++ [.eof] ≠ [.eof] := by
    intro eq
    have length := congrArg List.length eq
    simp only [length_append, length_cons, length_nil] at length
    omega
  obtain ⟨first, n, eq⟩ := h.ending some
  rw [append_assoc] at eq
  rcases append_eq_append_iff.mp eq with ⟨more, rfl, tail⟩ | ⟨more, rfl, tail⟩
  · cases more with
    | nil =>
      cases (List.cons.inj tail).1
      cases hk
    | cons j more =>
      have others : after ++ [.eof] = more ++ _ := (List.cons.inj tail).2
      have mem : TokenKind.newline ∈ after ++ [.eof] := by
        rw [others]
        exact mem_append_right _ mem_cons_self
      simpa using mem
  · cases more with
    | nil =>
      cases (List.cons.inj tail).1
      cases hk
    | cons j more =>
      have others : List.replicate n TokenKind.dedent ++ [.eof] = more ++ _ := (List.cons.inj tail).2
      have mem : k ∈ List.replicate n TokenKind.dedent ++ [.eof] := by
        rw [others]
        exact mem_append_right _ mem_cons_self
      rcases mem_append.mp mem with mem | mem
      · rw [eq_of_mem_replicate mem] at hk
        cases hk
      · rw [mem_singleton.mp mem] at hk
        cases hk

theorem Skeleton.isText_of_line {line : List (TokenKind ω)}
    (h : Skeleton (before ++ k :: (line ++ after))) (hk : k.isText = true)
    (plain : ∀ j ∈ line, j ≠ .newline ∧ j ≠ .eof) : ∀ j ∈ line, j.isText = true := by
  induction line generalizing before k with
  | nil => exact forall_mem_nil _
  | cons j line ih =>
    obtain ⟨⟨newline, eof⟩, others⟩ := forall_mem_cons.mp plain
    rw [cons_append, append_cons] at h
    have text : j.isText = true := by
      cases j with
      | newline => exact absurd rfl newline
      | eof => exact absurd rfl eof
      | indent =>
        have place := h.indent_place _ _ rfl
        rw [getLast?_concat] at place
        rcases place with none | last
        · simp at none
        · cases last
          cases hk
      | dedent =>
        have place := h.dedent_place _ _ rfl
        rw [getLast?_concat] at place
        rcases place with last | last <;>
        · cases last
          cases hk
      | _ => rfl
    exact forall_mem_cons.mpr ⟨text, ih h text others⟩

/-- Kinds of tokens that close the blocks which they open and `n` more. -/
structure ClosesBlocks (n : Nat) (ks : List (TokenKind ω)) : Prop where
  opened : ∀ before after, ks = before ++ after →
    before.countP TokenKind.isDedent ≤ before.countP TokenKind.isIndent + n
  closed : ks.countP TokenKind.isDedent = ks.countP TokenKind.isIndent + n

theorem ClosesBlocks.cons {m n : Nat} {k : TokenKind ω} {ks : List (TokenKind ω)}
    (h : ClosesBlocks m ks)
    (step : m + [k].countP TokenKind.isDedent = n + [k].countP TokenKind.isIndent) :
    ClosesBlocks n (k :: ks) where
  opened before after eq := by
    cases before with
    | nil => simp
    | cons j before =>
      obtain ⟨rfl, tail⟩ := List.cons.inj eq
      have rest := h.opened before after tail
      rw [← singleton_append, countP_append, countP_append]
      omega
  closed := by
    have rest := h.closed
    rw [← singleton_append, countP_append, countP_append]
    omega

theorem BlocksBalanced.lt_of_indent {before after : List (TokenKind ω)}
    (h : BlocksBalanced (before ++ .indent :: (after ++ [.eof]))) :
    after.countP TokenKind.isIndent < after.countP TokenKind.isDedent := by
  have opened := h.opened before _ rfl
  have closed := h.closed
  simp only [countP_append, countP_cons, countP_nil, TokenKind.isIndent,
    TokenKind.isDedent, Bool.false_eq_true, reduceIte] at closed
  omega

end ViewBridge

namespace ViewBridge.Classes

open List

variable {fin start s : Span} {ts rest v w pre front after left us : List Token}
  {ds : List Decorator} {m : Method} {f : Field} {members : Members} {name : String} {t : Token}
  {fs : List Field} {ms : List Method}

/-- Tokens that stand one behind the other. -/
structure InOrder (ts : List Token) : Prop where
  ordered : ts.Pairwise fun t u => t.span.stop ≤ u.span.start
  within : ∀ t ∈ ts, t.span.start ≤ t.span.stop

theorem InOrder.sublist (h : InOrder ts) (sub : us.Sublist ts) : InOrder us :=
  ⟨h.ordered.sublist sub, fun t ht => h.within t (sub.subset ht)⟩

theorem InOrder.stop_le {t u : Token} (h : InOrder (t :: us)) (hu : u ∈ t :: us) :
    t.span.stop ≤ u.span.stop := by
  rcases mem_cons.mp hu with rfl | hu
  · exact Nat.le_refl _
  · have before := (pairwise_cons.mp h.ordered).1 u hu
    have inside := h.within u (mem_cons_of_mem _ hu)
    omega

/-- An extent from the first of some tokens to the last one that is text. -/
def Spanned (v : List Token) (extent : Span) : Prop :=
  ∃ t u, v.head? = some t ∧ (v.filter (·.kind.isText)).getLast? = some u ∧
    extent = { t.span with stop := u.span.stop }

def isOnLine (t : Token) : Bool :=
  match t.kind with
  | .newline => false
  | _ => true

def lineKinds (ts : List Token) : List Kind := (ts.takeWhile isOnLine).map (·.kind)

theorem exists_line {t : Token} (h : Skeleton ((front ++ t :: rest).map (·.kind) ++ [.eof]))
    (ht : t.kind.isText = true) :
    ∃ l s next, rest = l ++ ⟨.newline, s⟩ :: next ∧ lineKinds rest = l.map (·.kind) ∧
      Matched (l.map (·.kind)) ∧ ∀ u ∈ l, u.kind.isText = true := by
  have brackets := h.brackets.matched
  obtain ⟨_, all, once⟩ := h.eof_last
  obtain rfl := append_inj_left' all rfl
  rw [map_append, map_cons] at h
  obtain ⟨u, hu, newline⟩ := mem_map.mp (h.newline_mem ht)
  have split : rest.takeWhile isOnLine ++ rest.dropWhile isOnLine = rest := takeWhile_append_dropWhile
  cases hd : rest.dropWhile isOnLine with
  | nil =>
    have all := dropWhile_eq_nil_iff.mp hd u hu
    simp [isOnLine, newline] at all
  | cons v next =>
    obtain ⟨k, s⟩ := v
    have stops : isOnLine ⟨k, s⟩ = false := by
      have head := head?_dropWhile_not isOnLine rest
      rw [hd] at head
      simpa using head
    obtain rfl : k = .newline := by
      cases k with
      | newline => rfl
      | _ => cases stops
    rw [hd] at split
    refine ⟨rest.takeWhile isOnLine, s, next, split.symm, rfl, ?_, fun u hu => ?_⟩
    · rw [← split] at brackets
      simp only [map_append, map_cons, append_assoc, cons_append] at brackets
      exact brackets.of_append.tail.line
    · have line : u.kind ∈ (rest.takeWhile isOnLine).map (·.kind) := mem_map_of_mem hu
      rw [← split, map_append, append_assoc, cons_append, append_assoc] at h
      refine h.isText_of_line ht (fun j hj => ?_) u.kind line
      obtain ⟨x, hx, rfl⟩ := mem_map.mp hj
      have inside : x ∈ rest := (takeWhile_sublist _).subset hx
      constructor
      · intro newline
        have on := (mem_takeWhile_imp hx)
        simp [isOnLine, newline] at on
      · intro eof
        exact once (mem_map.mpr ⟨x, by simp [inside], eof⟩)

section Extent

theorem exists_last_text (h : ∃ t ∈ w, t.kind.isText = true) :
    ∃ u ∈ w, (w.filter (·.kind.isText)).getLast? = some u := by
  obtain ⟨t, ht, text⟩ := h
  have ne : w.filter (·.kind.isText) ≠ [] := ne_nil_of_mem (mem_filter.mpr ⟨ht, text⟩)
  exact ⟨_, (mem_filter.mp (getLast_mem ne)).1, getLast?_eq_some_getLast ne⟩

/-- The extent from the first of some tokens to the end of the text among those that are read. -/
theorem spanned_extentFrom (order : InOrder (v ++ w))
    (first : (v ++ w).head?.map (·.span) = some start) (text : ∃ u ∈ w, u.kind.isText = true)
    (length : left.length = rest.length) :
    Spanned (v ++ w) (extentFrom start (w ++ rest) left) := by
  obtain ⟨u, hu, last⟩ := exists_last_text text
  obtain ⟨t, head, rfl⟩ := Option.map_eq_some_iff.mp first
  obtain ⟨us, eq⟩ := head?_eq_some_iff.mp head
  have le : t.span.stop ≤ u.span.stop := (eq ▸ order).stop_le (eq ▸ mem_append_right v hu)
  have consumed : (w ++ rest).take ((w ++ rest).length - left.length) = w := by simp [length]
  refine ⟨t, u, head, ?_, ?_⟩
  · rw [filter_append, getLast?_append, last]
    rfl
  · simp only [extentFrom, consumedStop, consumed, last, Option.map_some, Option.getD_some,
      Nat.max_eq_left le]

theorem extent_of_method {ds : List Decorator} {m : Method}
    (h : method fin ds start ts = .ok (m, rest)) :
    m.extent = extentFrom ((ds.head?.map (·.span)).getD start) ts rest ∧
      ∃ t us, ts = t :: us ∧ t.kind.isText = true := by
  unfold method at h
  split at h
  · obtain ⟨⟨ps, behind⟩, _, h⟩ := exists_of_bind h
    obtain ⟨⟨returns, behind⟩, _, h⟩ := exists_of_bind h
    dsimp only at h
    split at h
    · cases h
      exact ⟨rfl, _, _, rfl, rfl⟩
    · cases h
  · cases h
  · cases h

theorem exists_of_field {span : Span} {t : Token}
    (h : field fin name span (t :: ts) = .ok (some f, rest)) :
    f.name = name ∧ f.span = span ∧ isReservedName name = false ∧
      ∃ left, typeBehind fin isColon ts = .ok (f.hint, left) ∧
        endOfLine fin (fieldDefault fin left).2 = .ok rest ∧
        f.extent = extentFrom span (t :: ts) (fieldDefault fin left).2 ∧
        f.default = (fieldDefault fin left).1 := by
  rw [field_eq] at h
  obtain ⟨⟨hint, left⟩, ht, h⟩ := exists_of_bind h
  unfold fieldEnd at h
  split at h
  · cases h
  · obtain ⟨more, hl, eq⟩ := exists_of_map h
    obtain ⟨some, rfl⟩ := Prod.mk.inj eq
    split at some
    next => cases some
    next reserved =>
      cases some
      exact ⟨rfl, rfl, by simpa using reserved, left, ht, hl, rfl, rfl⟩

variable {t : Token} {l next : List Token} {s : Span}

theorem exists_left {hint : Option TypeHint} (text : ∀ u ∈ l, u.kind.isText = true)
    (matched : Matched (l.map (·.kind)))
    (ht : typeBehind fin isColon (l ++ ⟨.newline, s⟩ :: next) = .ok (hint, left))
    (he : endOfLine fin (fieldDefault fin left).2 = .ok rest) :
    ∃ s', (fieldDefault fin left).2 = ⟨.newline, s'⟩ :: next ∧ rest = next := by
  have lockstep : Lockstep 0 0 (LineTo next next) := lockstep_lineTo rfl
  have line : LineTo next next (l ++ ⟨.newline, s⟩ :: next) (l ++ ⟨.newline, s⟩ :: next) :=
    ⟨l, l, s, s, rfl, rfl, rfl, text, matched⟩
  have types : Agree _ (typeBehind fin isColon (l ++ ⟨.newline, s⟩ :: next))
      (typeBehind fin isColon (l ++ ⟨.newline, s⟩ :: next)) := 
    typeBehind_steps (steps_of_lockstep lockstep) (fun _ => rfl) line
  obtain ⟨_, same, _, behind⟩ := types.exists_ok ht
  obtain rfl := Except.ok.inj (ht.symm.trans same)
  have default : LineTo next next (fieldDefault fin left).2 (fieldDefault fin left).2 :=
    (fieldDefault_lockstep lockstep behind).2
  generalize (fieldDefault fin left).2 = us at he default
  have ended : atLineEnd us = true := by
    unfold endOfLine at he
    split at he
    next => rfl
    next => rfl
    next => cases he
  obtain ⟨s', rfl⟩ := exists_newline default ended
  cases he
  exact ⟨s', rfl, rfl⟩

/-- A field is its line. -/
theorem spanned_of_field (order : InOrder (t :: (l ++ ⟨.newline, s⟩ :: next)))
    (ht : t.kind.isText = true) (text : ∀ u ∈ l, u.kind.isText = true)
    (matched : Matched (l.map (·.kind)))
    (h : field fin name t.span (t :: (l ++ ⟨.newline, s⟩ :: next)) = .ok (some f, rest)) :
    rest = next ∧ Spanned (t :: l ++ [⟨.newline, s⟩]) f.extent := by
  obtain ⟨_, _, _, left, type, ended, extent, _⟩ := exists_of_field h
  obtain ⟨s', hl, rfl⟩ := exists_left text matched type ended
  have line : InOrder ([] ++ t :: l) := order.sublist ((sublist_append_left l _).cons_cons t)
  obtain ⟨_, u, ⟨⟩, last, stop⟩ : Spanned (t :: l) _ :=
    spanned_extentFrom line rfl ⟨t, mem_cons_self, ht⟩ rfl
  refine ⟨rfl, t, u, rfl, ?_, ?_⟩
  · rw [filter_append, getLast?_append, last]
    rfl
  · rw [extent, hl]
    exact stop

theorem equals_of_field (text : ∀ u ∈ l, u.kind.isText = true)
    (ht : typeBehind fin isColon (l ++ ⟨.newline, s⟩ :: next) = .ok (none, left))
    (he : endOfLine fin (fieldDefault fin left).2 = .ok rest) :
    l = [] ∨ ∃ s' l', l = ⟨.word .equals, s'⟩ :: l' := by
  cases l with
  | nil => exact .inl rfl
  | cons u l =>
    obtain ⟨k, p⟩ := u
    have text : k.isText = true := text ⟨k, p⟩ mem_cons_self
    cases k with
    | newline | indent | dedent | eof => cases text
    | word w =>
      cases w with
      | equals => exact .inr ⟨p, l, rfl⟩
      | colon =>
        obtain ⟨_, _, eq⟩ := exists_of_map ht
        cases eq
      | _ =>
        cases ht
        cases he
    | _ =>
      cases ht
      cases he

end Extent

section Body

theorem exists_behindBlock (depth : Nat)
    (h : (ts.map (·.kind)).countP TokenKind.isIndent + depth <
      (ts.map (·.kind)).countP TokenKind.isDedent) :
    ∃ inner s, ts = inner ++ ⟨.dedent, s⟩ :: behindBlock depth ts ∧
      ClosesBlocks depth (inner.map (·.kind)) := by
  induction ts generalizing depth with
  | nil => cases h
  | cons t ts ih =>
    obtain ⟨k, s⟩ := t
    have onward {d : Nat}
        (step : d + [k].countP TokenKind.isDedent = depth + [k].countP TokenKind.isIndent)
        (same : behindBlock depth (⟨k, s⟩ :: ts) = behindBlock d ts) :
        ∃ inner s', ⟨k, s⟩ :: ts =
          inner ++ ⟨.dedent, s'⟩ :: behindBlock depth (⟨k, s⟩ :: ts) ∧
          ClosesBlocks depth (inner.map (·.kind)) := by
      simp only [map_cons] at h
      rw [← singleton_append, countP_append, countP_append] at h
      obtain ⟨inner, s', eq, closes⟩ := ih d (by omega)
      exact ⟨⟨k, s⟩ :: inner, s', by rw [same, cons_append, ← eq], closes.cons step⟩
    cases k with
    | indent => exact onward (d := depth + 1) rfl rfl
    | dedent =>
      cases depth with
      | zero =>
        refine ⟨[], s, rfl, fun before after eq => ?_, rfl⟩
        rw [(append_eq_nil_iff.mp eq.symm).1]
        exact Nat.le_refl _
      | succ depth => exact onward (d := depth) rfl rfl
    | _ => exact onward (d := depth) rfl rfl

/-- What belongs to a statement from the end of its line on: its block, if there is one. -/
inductive Block (after : List Token) : List Token → Prop
  | lines {s s₁ s₂ inner : _} : BlocksBalanced (inner.map (·.kind)) →
      Block after (⟨.newline, s⟩ :: ⟨.indent, s₁⟩ :: (inner ++ [⟨.dedent, s₂⟩]))
  | none {s : _} : startsBlock after = false → Block after [⟨.newline, s⟩]

/-- What stands behind the colon of a method: the rest of its line, or else its block. -/
inductive Body (after : List Token) : List Token → Prop
  | line {l s : _} : l ≠ [] → (∀ t ∈ l, t.kind.isText = true) → Body after (l ++ [⟨.newline, s⟩])
  | block {body : _} : Block after body → Body after body

theorem exists_block (h : Skeleton ((pre ++ t :: ts).map (·.kind) ++ [.eof]))
    (ht : t.kind.isText = true) : ∃ l body rest, ts = l ++ (body ++ rest) ∧
      (∀ u ∈ l, u.kind.isText = true) ∧ Block rest body ∧ skipStatement ts = rest := by
  obtain ⟨l, s, next, rfl, -, -, text⟩ := exists_line h ht
  rw [skipStatement, skipLine_line text]
  cases block : startsBlock next with
  | false => exact ⟨l, [⟨.newline, s⟩], next, rfl, text, .none block, skipBlock_eq_self block⟩
  | true =>
    cases next with
    | nil => cases block
    | cons u next =>
      obtain ⟨k, s₁⟩ := u
      cases k with
      | indent =>
        have split : (pre ++ t :: (l ++ ⟨.newline, s⟩ :: ⟨.indent, s₁⟩ :: next)).map (·.kind) ++
            [.eof] = (pre ++ t :: (l ++ [⟨.newline, s⟩])).map (·.kind) ++
              .indent :: (next.map (·.kind) ++ [.eof]) := by simp
        obtain ⟨inner, s₂, eq, closes⟩ := exists_behindBlock 0 (split ▸ h.blocks).lt_of_indent
        refine ⟨l, ⟨.newline, s⟩ :: ⟨.indent, s₁⟩ :: (inner ++ [⟨.dedent, s₂⟩]),
          behindBlock 0 next, ?_, text, .lines ⟨closes.opened, closes.closed⟩, rfl⟩
        simpa using eq
      | _ => cases block

theorem exists_body (h : Skeleton ((pre ++ t :: ts).map (·.kind) ++ [.eof]))
    (ht : t.kind.isText = true) :
    ∃ body rest, ts = body ++ rest ∧ Body rest body ∧
      (if atLineEnd ts then skipStatement ts else skipLine ts) = rest := by
  have inLine {u : Token} {us : List Token} (text : u.kind.isText = true) : atLineEnd (u :: us) = false := by
    obtain ⟨k, _⟩ := u
    cases k with
    | newline => cases text
    | _ => rfl
  obtain ⟨l, s, next, eq, -, -, text⟩ := exists_line h ht
  cases l with
  | nil =>
    obtain ⟨l, body, rest, rfl, text, block, skipped⟩ := exists_block h ht
    rw [show atLineEnd (l ++ (body ++ rest)) = true by rw [eq]; rfl, if_pos rfl]
    cases l with
    | nil => exact ⟨body, rest, rfl, .block block, skipped⟩
    | cons u l =>
      rw [(List.cons.inj eq).1] at text
      cases text _ mem_cons_self
  | cons u l =>
    refine ⟨u :: l ++ [⟨.newline, s⟩], next, by simp [eq], .line (by simp) text, ?_⟩
    rw [eq, cons_append, inLine (text u mem_cons_self), if_neg Bool.false_ne_true,
      ← cons_append, skipLine_line text]

/-- The end of a line comes behind its tokens. -/
theorem exists_newline_of_endOfLine (h : Skeleton ((pre ++ t :: (v ++ ts)).map (·.kind) ++ [.eof]))
    (ht : t.kind.isText = true) (text : ∀ u ∈ v, u.kind.isText = true)
    (ended : endOfLine fin ts = .ok rest) : ∃ s, ts = ⟨.newline, s⟩ :: rest := by
  unfold endOfLine at ended
  split at ended
  next =>
    obtain ⟨l, s, next, eq, -⟩ := exists_line h ht
    rw [append_nil] at eq
    cases text ⟨.newline, s⟩ (by rw [eq]; simp)
  next s us =>
    cases ended
    exact ⟨s, rfl⟩
  next => cases ended

end Body

end ViewBridge.Classes
