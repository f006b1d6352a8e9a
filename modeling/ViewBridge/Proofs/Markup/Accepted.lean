import ViewBridge.Proofs.Markup.Lexed
import ViewBridge.Proofs.Markup.Plain
import ViewBridge.Proofs.Markup.Slices

namespace ViewBridge.Markup

open List

open List

/-- The items of the property values among tokens: what stands behind a colon or a comma outside
brackets, up to the next comma outside them or the end of the line. -/
def itemSlices : Nat → List Kind → List (List Kind)
  | _, [] => []
  | depth, k :: ks =>
    match depth, k with
    | 0, .word .colon | 0, .word .comma => (itemTokens 0 (bare ks)).map (·.kind) :: itemSlices 0 ks
    | depth, k => itemSlices (depthAfter depth k) ks

variable {previous : Option Kind} {opened opened' : List Bracket}
  {ks ls slice rest : List Kind} {fin : Span}

theorem itemSlices_cons {depth : Nat} (k : Kind)
    (h : slice ∈ itemSlices (depthAfter depth k) ks) : slice ∈ itemSlices depth (k :: ks) := by
  rw [itemSlices.eq_def]
  dsimp only
  split
  next => exact mem_cons_of_mem _ h
  next => exact mem_cons_of_mem _ h
  next => exact h

theorem Lexed.itemSlices_append (h : Lexed previous opened ks opened')
    (hs : slice ∈ itemSlices opened'.length ls) : slice ∈ itemSlices opened.length (ks ++ ls) := by
  induction h with
  | nil => exact hs
  | word _ _ ih => exact itemSlices_cons _ (ih hs)
  | opening _ ih => exact itemSlices_cons _ (ih hs)
  | closing _ ih => exact itemSlices_cons _ (ih hs)
  | newline _ ih => exact itemSlices_cons _ (ih hs)
  | layout hk _ _ ih => rcases hk with rfl | rfl | rfl <;> exact itemSlices_cons _ (ih hs)

theorem itemTokens_newline (depth : Nat) (ks : List Kind) :
    itemTokens depth (bare (ks ++ .newline :: ls)) = itemTokens depth (bare ks) := by
  induction ks generalizing depth with
  | nil => rfl
  | cons k ks ih =>
    cases k with
    | word w =>
      cases w with
      | comma => simp only [cons_append, bare_cons, itemTokens, ih]
      | _ => exact congrArg (_ :: ·) (ih depth)
    | newline => rfl
    | eof => rfl
    | _ => exact congrArg (_ :: ·) (ih _)

/-- An item ends with its line. -/
theorem itemSlices_newline {depth : Nat} (h : slice ∈ itemSlices depth ks) :
    slice ∈ itemSlices depth (ks ++ .newline :: ls) := by
  induction ks generalizing depth with
  | nil => cases h
  | cons k ks ih =>
    rw [itemSlices.eq_def] at h
    rw [cons_append, itemSlices.eq_def]
    dsimp only at h ⊢
    split at h
    next =>
      rw [itemTokens_newline]
      exact mem_cons.mpr ((mem_cons.mp h).imp_right ih)
    next =>
      rw [itemTokens_newline]
      exact mem_cons.mpr ((mem_cons.mp h).imp_right ih)
    next => exact ih h

theorem Lexed.word_fits {w : Word} (h : Lexed previous opened (.word w :: ks) opened') :
    w.Fits previous ∧ Lexed (some (.word w)) opened ks opened' := by
  cases h with
  | word hw h => exact ⟨hw, h⟩
  | layout hk => rcases hk with hk | hk | hk <;> cases hk

theorem Lexed.opening_lexed {b : Bracket} (h : Lexed previous opened (.opening b :: ks) opened') :
    Lexed (some (.opening b)) (b :: opened) ks opened' := by
  cases h with
  | opening h => exact h
  | layout hk => rcases hk with hk | hk | hk <;> cases hk

theorem isName_of_fits {text : String} (h : Word.Fits previous (.identifier text))
    (hp : previous.any endsValue = false) : IsName text.toList := by
  rcases h with h | ⟨_, hv⟩
  · exact h
  · rw [hp] at hv
    cases hv

mutual

/-- A plain value is made up of the words of its tokens. -/
theorem Phrase.plain {float : Float → Prop} {ks : List Kind} {v : Literal}
    (h : Phrase ks v) : ∀ {previous : Option Kind} {opened opened' : List Bracket},
      Lexed previous opened ks opened' → previous.any endsValue = false →
      (∀ f, .word (.float f) ∈ ks → float f) → Plain float (IsFormatString ·.toList) v := by
  cases h with
  | string | integer | unit => exact fun _ _ _ => trivial
  | float x => exact fun _ _ hf => hf x mem_cons_self
  | formatString text => exact fun hl _ _ => hl.word_fits.1
  | name text =>
    intro _ _ _ hl hp _
    have name := isName_of_fits hl.word_fits.1 hp
    unfold Literal.ofName
    split
    next => trivial
    next notTrue =>
      split
      next => trivial
      next notFalse => exact ⟨name, notTrue, notFalse⟩
  | call callee hs =>
    intro _ _ _ hl hp hf
    obtain ⟨fits, hl⟩ := hl.word_fits
    exact ⟨isName_of_fits fits hp, hs.plain hl.opening_lexed rfl fun f hm =>
      hf f (mem_cons_of_mem _ (mem_cons_of_mem _ hm))⟩
  | list hs =>
    intro _ _ _ hl _ hf
    exact hs.plain hl.opening_lexed rfl fun f hm => hf f (mem_cons_of_mem _ hm)
  | group hv =>
    intro _ _ _ hl _ hf
    obtain ⟨middle, inner, _⟩ := hl.opening_lexed.split
    exact hv.plain inner rfl fun f hm =>
      hf f (mem_cons_of_mem _ (mem_append_left _ hm))
  | tuple hv hs =>
    intro _ _ _ hl _ hf
    obtain ⟨middle, inner, others⟩ := hl.opening_lexed.split
    exact ⟨hv.plain inner rfl fun f hm =>
        hf f (mem_cons_of_mem _ (mem_append_left _ hm)),
      hs.plain others.word_fits.2 rfl fun f hm =>
        hf f (mem_cons_of_mem _ (mem_append_right _ (mem_cons_of_mem _ hm)))⟩
termination_by ks.length
decreasing_by all_goals simp only [length_cons, length_append]; omega

theorem Phrases.plain {float : Float → Prop} {ks : List Kind} {vs : List Literal}
    {b : Bracket} (h : Phrases b ks vs) :
    ∀ {previous : Option Kind} {opened opened' : List Bracket},
      Lexed previous opened ks opened' → previous.any endsValue = false →
      (∀ f, .word (.float f) ∈ ks → float f) → allPlain float (IsFormatString ·.toList) vs := by
  cases h with
  | close => exact fun _ _ _ => trivial
  | last hv =>
    intro _ _ _ hl hp hf
    obtain ⟨middle, inner, _⟩ := hl.split
    exact ⟨hv.plain inner hp fun f hm => hf f (mem_append_left _ hm), trivial⟩
  | more hv hs =>
    intro _ _ _ hl hp hf
    obtain ⟨middle, inner, others⟩ := hl.split
    exact ⟨hv.plain inner hp fun f hm => hf f (mem_append_left _ hm),
      hs.plain others.word_fits.2 rfl fun f hm =>
        hf f (mem_append_right _ (mem_cons_of_mem _ hm))⟩
termination_by ks.length
decreasing_by all_goals simp only [length_cons, length_append]; omega

end

/-- The tokens of an item that is read as an expression. -/
structure IsExpression (slice : List Kind) : Prop where
  lexed : ∃ previous, previous.any endsValue = false ∧ ¬AtStart previous ∧
    Lexed previous [] slice []
  passage : passage 0 slice = some 0
  expression : slice.any isExpressionToken = true
  other : ∀ v, ¬Phrase slice v

/-- The items that are read from a text: plain values, and expressions in their canonical text. -/
def ItemAccepted (among : List Kind → Prop) (float : Float → Prop) (v : Literal) :
    Prop :=
  Plain float (IsFormatString ·.toList) v ∨
    ∃ slice, among slice ∧ (∀ f, .word (.float f) ∈ slice → float f) ∧ IsExpression slice ∧
      v = .expression (expressionText {} (bare slice))

def Accepted (among : List Kind → Prop) (float : Float → Prop) (v : Literal) : Prop :=
  ∀ part ∈ parts v, ItemAccepted among float part

section Values

variable {among : List Kind → Prop} {float : Float → Prop} {v : Literal}
  {after : List Token}

theorem not_atStart_word (w : Word) : ¬AtStart (some (.word w)) := by
  intro start
  cases start _ rfl

/-- What is known of the tokens between two commas of a value. -/
structure SliceOf (ks slice : List Kind) : Prop where
  item : slice ∈ itemSlices 0 ks
  lexed : ∃ previous, previous.any endsValue = false ∧ ¬AtStart previous ∧ Lexed previous [] slice []
  passage : passage 0 slice = some 0
  subset : slice ⊆ ks

theorem slices_lexed {w : Word} (hw : w = .colon ∨ w = .comma) (text : ∀ k ∈ ks, k.isText = true)
    (h : Lexed (some (.word w)) [] ks []) : ∀ slice ∈ slices 0 ks, SliceOf (.word w :: ks) slice := by
  induction hn : ks.length using Nat.strongRecOn generalizing w ks with
  | ind n ih =>
    have first : ∀ {slice others}, ks = slice ++ others → itemTokens 0 (bare ks) = bare slice →
        passage 0 slice = some 0 → Lexed (some (.word w)) [] slice [] →
          SliceOf (.word w :: ks) slice := by
      intro slice others eq tokens passed lexed
      have item : slice ∈ itemSlices 0 (.word w :: ks) := by
        rcases hw with rfl | rfl <;> rw [itemSlices, tokens, map_kind_bare] <;>
          exact mem_cons_self
      refine ⟨item, ⟨_, ?_, not_atStart_word w, lexed⟩, passed, ?_⟩
      · rcases hw with rfl | rfl <;> rfl
      · rw [eq]
        exact subset_cons_of_subset _ (subset_append_left _ _)
    rcases slices_cases 0 text with ⟨alone, depth, passed⟩ | ⟨slice, others, rfl, passed, cut⟩
    · obtain rfl : depth = 0 := h.passage_length passed
      have tokens : itemTokens 0 (bare (ks ++ [])) = bare ks := itemTokens_eq passed rfl
      rw [append_nil] at tokens
      rw [alone]
      simpa using first (append_nil ks).symm tokens passed h
    · obtain ⟨middle, front, behind⟩ := h.split
      have depth : 0 = middle.length := front.passage_length passed
      obtain rfl : middle = [] := length_eq_zero_iff.mp depth.symm
      rw [cut]
      refine forall_mem_cons.mpr ⟨first rfl (itemTokens_eq passed rfl) passed front, ?_⟩
      have shorter : others.length < n := by
        rw [← hn, length_append, length_cons]
        omega
      intro slice' hs
      have inner := ih others.length shorter (.inr rfl)
        (fun k hk => text k (by simp [hk])) behind.word_fits.2 rfl slice' hs
      exact ⟨itemSlices_cons _ (front.itemSlices_append inner.item), inner.lexed, inner.passage,
        fun k hk => mem_cons_of_mem _ (mem_append_right _ (inner.subset hk))⟩

theorem itemValue_accepted (item : IsItem slice) (h : SliceOf ks slice)
    (hs : ∀ slice ∈ itemSlices 0 ks, among slice) (hf : ∀ f, .word (.float f) ∈ ks → float f) :
    ItemAccepted among float (itemValue slice) := by
  have floats : ∀ f, .word (.float f) ∈ slice → float f := fun f hm => hf f (h.subset hm)
  rcases item with ⟨u, phrase⟩ | ⟨other, expression⟩
  · obtain ⟨previous, hp, _, lexed⟩ := h.lexed
    rw [itemValue_phrase phrase]
    exact .inl (phrase.plain lexed hp floats)
  · rw [itemValue_other other]
    exact .inr ⟨slice, hs slice h.item, floats, ⟨h.lexed, h.passage, expression, other⟩, rfl⟩

theorem accepted_of_item (h : ItemAccepted among float v) : Accepted among float v := by
  rcases h with plain | ⟨slice, hi, floats, expression, rfl⟩
  · exact fun part hp => .inl (plain.parts part hp)
  · intro part hp
    rw [mem_singleton.mp hp]
    exact .inr ⟨slice, hi, floats, expression, rfl⟩

theorem mem_of_mem_itemsOf {ss : List (List Kind)} (h : slice ∈ itemsOf ss) :
    slice ∈ ss := by
  induction ss with
  | nil => cases h
  | cons first others ih =>
    unfold itemsOf at h
    split at h
    next => cases h
    next => cases h
    next eq =>
      cases eq
      exact mem_cons.mpr ((mem_cons.mp h).imp_right ih)

/-- The value of the tokens behind a colon is read from their items and floats. -/
theorem valueOf?_accepted {ts : List Token} (text : ∀ t ∈ ts, t.kind.isText = true)
    (h : Lexed (some (.word .colon)) [] (ts.map (·.kind)) [])
    (hs : ∀ slice ∈ itemSlices 0 (.word .colon :: ts.map (·.kind)), among slice)
    (hf : ∀ f, .word (.float f) ∈ ts.map (·.kind) → float f) (hv : valueOf? ts = some v) :
    Accepted among float v := by
  obtain ⟨rfl, some, items⟩ := valueOf?_slices text hv
  have accepted : ∀ slice ∈ itemsOf (slices 0 (ts.map (·.kind))),
      ItemAccepted among float (itemValue slice) := fun slice hm =>
    itemValue_accepted (items slice hm)
      (slices_lexed (.inl rfl) (forall_mem_map.mpr text) h slice (mem_of_mem_itemsOf hm)) hs
      fun f hk => hf f (by simpa using hk)
  unfold splitValue
  split
  next slice eq =>
    rw [eq] at some accepted
    cases slice with
    | nil => exact absurd rfl some
    | cons => exact accepted_of_item (accepted _ mem_cons_self)
  next =>
    cases eq : itemsOf (slices 0 (ts.map (·.kind))) with
    | nil => exact absurd eq some
    | cons => exact forall_mem_map.mpr (eq ▸ accepted)

end Values

end ViewBridge.Markup
