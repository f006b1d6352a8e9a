import ViewBridge.Proofs.Classes.Anatomy

namespace ViewBridge.Classes

open List

variable {fin : Span} {ts whole front left rest : List Token} {ds : List Decorator}
  {classes : List ClassDef} {c : ClassDef}

theorem inOrder_of_tokens {source : String} (h : tokens source = .ok ts) : InOrder ts :=
  have tiles := tiles_of_tokensOf readWord_faithful h
  ⟨tiles.ordered, fun t ht => (tiles.within t ht).1⟩

theorem lexed_of_tokens {source : String} (h : tokens source = .ok (ts ++ [⟨.eof, fin⟩])) :
    Lexed ts where
  order := (inOrder_of_tokens h).sublist (sublist_append_left _ _)
  skeleton := by
    have skeleton := skeleton_of_tokensOf h
    rwa [map_append] at skeleton

theorem span_of_classDef {span : Span} (h : classDef fin ds span ts = .ok (c, left)) :
    c.span = span := by
  rw [classDef_eq] at h
  obtain ⟨_, _, h⟩ := exists_of_bind h
  obtain ⟨_, _, eq⟩ := exists_of_map h
  cases eq
  rfl

/-- Every class that is read was read behind its keyword. -/
theorem exists_classDef (h : classesFrom fin ds ts = .ok classes) (hc : c ∈ classes) :
    ∃ ds' rest left, ⟨.word .classKeyword, c.span⟩ :: rest <:+ ts ∧
      classDef fin ds' c.span rest = .ok (c, left) := by
  induction hn : ts.length using Nat.strongRecOn generalizing ts ds classes with
  | ind size ih =>
    have further {ds : List Decorator} {us : List Token} {others : List ClassDef}
        (hu : classesFrom fin ds us = .ok others) (hm : c ∈ others) (sub : us <:+ ts)
        (shorter : us.length < ts.length) :
        ∃ ds' rest left, ⟨.word .classKeyword, c.span⟩ :: rest <:+ ts ∧
          classDef fin ds' c.span rest = .ok (c, left) := by
      obtain ⟨ds', rest, left, part, read⟩ := ih us.length (by omega) hu hm rfl
      exact ⟨ds', rest, left, part.trans sub, read⟩
    rw [classesFrom.eq_def] at h
    split at h
    case h_1 =>
      cases h
      cases hc
    case h_2 => exact further h hc (suffix_cons _ _) (Nat.lt_succ_self _)
    case h_3 span rest =>
      obtain ⟨⟨d, behind⟩, hd, h⟩ := exists_of_bind h
      have sub : behind <:+ rest := (decorator_sound rest).of_ok hd
      dsimp only at h
      split at h
      next shorter => exact further h hc (sub.trans (suffix_cons _ _)) (Nat.lt_succ_of_le shorter)
      next => cases h
    case h_4 span rest =>
      obtain ⟨⟨first, behind⟩, hd, h⟩ := exists_of_bind h
      have sub : behind <:+ rest := (classDef_sound ds rest).of_ok hd
      dsimp only at h
      split at h
      next shorter =>
        obtain ⟨others, ho, eq⟩ := exists_of_bind h
        cases eq
        rcases mem_cons.mp hc with rfl | hm
        · obtain rfl := span_of_classDef hd
          exact ⟨ds, rest, behind, suffix_refl _, hd⟩
        · exact further ho hm (sub.trans (suffix_cons _ _)) (Nat.lt_succ_of_le shorter)
      next => cases h
    case h_5 t rest _ _ _ =>
      split at h
      · exact further h hc (skipStatement_suffix _)
          (Nat.lt_succ_of_le (length_skipStatement_le t rest))
      · cases h

theorem heldAt_of_block (lexed : Lexed whole) (lined : BehindLine 0 (whole.map (·.kind))) {body : List Token} {s : Span} {ms : Members}
    (eq : whole = front ++ ⟨.indent, s⟩ :: body) (h : classBody fin [] body = .ok (ms, left)) :
    (∀ f ∈ ms.fields, f.hint = none → HeldAt whole f.extent ⟨[f.name], []⟩) ∧
      ∀ m ∈ ms.methods, HeldAt whole m.extent ⟨[], [m.signature]⟩ := by
  obtain ⟨inner, s', rest, lines, rfl, spelled, _⟩ := BehindLine.exists_block (eq ▸ lined)
  have opened := lexed.skeleton.blocks.opened (front.map (·.kind))
    (.indent :: (inner ++ ⟨.dedent, s'⟩ :: rest).map (·.kind) ++ [.eof]) (by rw [eq]; simp)
  have start : Waiting whole (front ++ [⟨.indent, s⟩]) (inner ++ ⟨.dedent, s'⟩ :: rest) {} := by
    refine ⟨by rw [eq]; simp, ?_, ?_, ⟨[], .nil⟩, reads_nil [], rfl⟩
    · rw [getLast?_concat]
      rintro _ ⟨⟩
      rfl
    · rw [map_append, countP_append, countP_append]
      exact Nat.lt_succ_of_le opened
  exact start.run lexed spelled h

/-- The members of a class with its body on the lines behind its header are stretches of these. -/
theorem heldAt_of_classDef (lexed : Lexed whole) (lined : BehindLine 0 (whole.map (·.kind)))
    {span : Span} (eq : whole = front ++ ⟨.word .classKeyword, span⟩ :: rest)
    (alone : behindColon 0 (lineKinds rest) = []) (h : classDef fin ds span rest = .ok (c, left)) :
    (∀ f ∈ c.fields, f.hint = none → HeldAt whole f.extent ⟨[f.name], []⟩) ∧
      ∀ m ∈ c.methods, HeldAt whole m.extent ⟨[], [m.signature]⟩ := by
  obtain ⟨l, s, next, rfl, hl, matched, _⟩ := exists_line (eq ▸ lexed.skeleton) rfl
  rw [hl] at alone
  rw [classDef_eq] at h
  obtain ⟨⟨head, behind⟩, hh, h⟩ := exists_of_bind h
  obtain rfl := classHead_line matched alone hh
  obtain ⟨⟨ms, _⟩, hm, built⟩ := exists_of_map h
  cases built
  by_cases block : startsBlock next = true
  · cases next with
    | nil => cases block
    | cons t body =>
      obtain ⟨k, s₁⟩ := t
      cases k with
      | indent =>
        have split : whole = (front ++ ⟨.word .classKeyword, span⟩ :: (l ++ [⟨.newline, s⟩])) ++
            ⟨.indent, s₁⟩ :: body := by simp [eq]
        exact heldAt_of_block lexed lined split hm
      | _ => cases block
  · rw [classMembers_none (by simpa using block)] at hm
    cases hm
    exact ⟨nofun, nofun⟩

end ViewBridge.Classes
