import ViewBridge.Proofs.Markup.Accepted

namespace ViewBridge.Markup

open List

variable {among : List Kind → Prop} {float : Float → Prop}
  {previous : Option Kind} {opened opened' : List Bracket}
  {ks : List Kind} {line : SourceLine Word}

theorem AtStart.endsValue (h : AtStart previous) : previous.any endsValue = false := by
  cases previous with
  | none => rfl
  | some k =>
    have text := h k rfl
    cases k with
    | word | opening | closing => cases text
    | _ => rfl

theorem Lexed.opened_atStart (h : Lexed previous opened ks opened')
    (hp : AtStart previous → opened = []) (hk : AtStart (ks.getLast?.or previous)) :
    opened' = [] := by
  induction h with
  | nil => exact hp hk
  | word _ _ ih | opening _ ih | closing _ ih =>
    rw [getLast?_cons_or] at hk
    refine ih (fun start => ?_) hk
    cases start _ rfl
  | newline _ ih | layout _ _ _ ih =>
    rw [getLast?_cons_or] at hk
    exact ih (fun _ => rfl) hk

section Selectors

theorem Lexed.bases {bases : List String} (h : Lexed previous opened (basesKinds bases ++ ks) opened') :
    (∀ base ∈ bases, IsName base.toList) ∧ ∃ previous, Lexed previous opened ks opened' := by
  induction bases generalizing previous with
  | nil => exact ⟨by simp, previous, h⟩
  | cons base bases ih =>
    obtain ⟨fits, h⟩ := h.word_fits.2.word_fits
    obtain ⟨names, behind⟩ := ih h
    exact ⟨forall_mem_cons.mpr ⟨isName_of_fits fits rfl, names⟩, behind⟩

theorem Lexed.selector {s : Selector} (h : Lexed previous opened (selectorKinds s ++ ks) opened')
    (hp : previous.any endsValue = false) :
    s.Named ∧ ∃ previous, Lexed previous opened ks opened' := by
  obtain ⟨name, bases⟩ := s
  obtain ⟨fits, h⟩ := h.word_fits
  have isName := isName_of_fits fits hp
  cases bases with
  | nil => exact ⟨⟨isName, by simp⟩, _, h⟩
  | cons base bases =>
    obtain ⟨fits, h⟩ := h.word_fits.2.word_fits
    obtain ⟨names, behind⟩ := h.bases
    exact ⟨⟨isName, forall_mem_cons.mpr ⟨isName_of_fits fits rfl, names⟩⟩, behind⟩

theorem Lexed.selectors {names : List Selector}
    (h : Lexed previous opened (selectorsKinds names ++ ks) opened')
    (hp : previous.any endsValue = false) : ∀ s ∈ names, s.Named := by
  induction names generalizing previous with
  | nil => simp
  | cons first others ih =>
    rw [selectorsKinds, append_assoc] at h
    obtain ⟨named, previous', h⟩ := h.selector hp
    refine forall_mem_cons.mpr ⟨named, ?_⟩
    cases others with
    | nil => simp
    | cons second others =>
      simp only [map_cons, commas, flatMap_cons, cons_append] at h
      exact ih h.word_fits.2 rfl

end Selectors

/-- The tokens of a line: as they are read, and with what is known of the items and of the floats
among them. -/
structure LineOf (among : List Kind → Prop) (float : Float → Prop)
    (ks : List Kind) : Prop where
  lexed : ∃ previous, AtStart previous ∧ Lexed previous [] ks []
  text : ∀ k ∈ ks, k.isText = true
  items : ∀ slice ∈ itemSlices 0 ks, among slice
  floats : ∀ f, .word (.float f) ∈ ks → float f

theorem LineOf.formed (h : LineOf among float (line.tokens.map (·.kind))) :
    LineFormed (Accepted among float) line := by
  obtain ⟨⟨previous, start, lexed⟩, text, items, floats⟩ := h
  refine ⟨fun p ofLine => ?_, fun name span header => ?_, fun span ts names eq kinds => ?_⟩
  · cases ofLine with
    | mk value =>
      obtain ⟨fits, behind⟩ := lexed.word_fits
      refine ⟨isName_of_fits fits start.endsValue, valueOf?_accepted ?_ behind.word_fits.2
        (fun slice hs => items slice (itemSlices_cons _ hs)) (fun f hf => ?_) value⟩
      · exact forall_mem_map.mp (forall_mem_cons.mp (forall_mem_cons.mp text).2).2
      · exact floats f (mem_cons_of_mem _ (mem_cons_of_mem _ hf))
  · unfold headerOf? at header
    split at header
    next =>
      cases header
      exact isName_of_fits lexed.word_fits.1 start.endsValue
    next => cases header
  · rw [eq, map_cons, kinds] at lexed
    exact lexed.word_fits.2.selectors rfl

/-- A module that is read from a text has names where the markup reads them, and its values are
read from the items and floats among the tokens. -/
theorem ofTokens_formed {source : String} {ts : List Token} {m : Module}
    (ht : tokens source = .ok ts) (hm : Module.ofTokens ts = .ok m) :
    m.Formed (Accepted (· ∈ itemSlices 0 (ts.map (·.kind)))
      fun f => .word (.float f) ∈ ts.map (·.kind)) := by
  have read : parse source = .ok m := by
    rw [parse, ht]
    exact hm
  obtain ⟨us, fin, lines, hu, spelled, represents⟩ := exists_represents read
  cases ht.symm.trans hu
  refine represents.formed _ fun line among => LineOf.formed ?_
  obtain ⟨isLine, before, s, after, rfl, start⟩ := spelled.exists_of_among among
  have lexed := lexed_tokens ht
  simp only [map_append, map_cons, append_assoc, cons_append] at lexed ⊢
  obtain ⟨middle, front, lexed⟩ := lexed.split
  have atStart : AtStart ((before.map (·.kind)).getLast?.or none) := by
    rw [Option.or_none]
    exact start
  obtain rfl := front.opened_atStart (fun _ => rfl) atStart
  obtain ⟨middle, first, lexed⟩ := lexed.split
  obtain rfl : middle = [] := by
    cases lexed with
    | newline => rfl
    | layout => rfl
  refine ⟨⟨_, atStart, first⟩, isLine.text, fun slice hs => ?_, fun f hf => by simp [hf]⟩
  exact front.itemSlices_append (itemSlices_newline hs)

end ViewBridge.Markup
