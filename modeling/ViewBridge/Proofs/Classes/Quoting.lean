import Mathlib.Logic.Function.Iterate
import ViewBridge.Proofs.Classes.CursorQuotes
import ViewBridge.Proofs.Classes.Spelling

namespace ViewBridge.Classes

open Scanner List

/-- A text with no blanks around it, on whose one line a type stands and nothing else. -/
structure HintText (text : String) (ts : List Token) (type : TypeHint) : Prop where
  trimmed : Text.trim text = text
  read : ∃ s s', tokens text = .ok (ts ++ [⟨.newline, s⟩, ⟨.eof, s'⟩]) ∧
    hint s' (ts ++ [⟨.newline, s⟩]) = .ok (type, [⟨.newline, s⟩])

section Quoted

variable {text : String} {ts : List Token} {type : TypeHint}

theorem quotedHint_eq_wholeType (text : String) : quotedHint text =
    (wholeType? quotedHint (Text.trim text)).getD (.forward (Text.trim text)) := by
  have read := Cursor.quoted_eq_quotedType (Nat.le_refl text.length)
  rw [Cursor.quoted_eq_wholeType fun ts _ => Cursor.quotes_quotedHint ts] at read
  exact (Except.ok.inj (Option.some.inj read)).symm

theorem HintText.quotedHint_eq (h : HintText text ts type) : quotedHint text = type := by
  obtain ⟨s, s', ht, read⟩ := h.read
  have split : ts ++ [⟨.newline, s⟩, ⟨.eof, s'⟩] = (ts ++ [⟨.newline, s⟩]) ++ [⟨.eof, s'⟩] := by
    simp
  rw [split] at ht
  obtain ⟨v, fin, _, eq, reached⟩ := exists_untilEnd ht map_append
  obtain ⟨rfl, last⟩ := append_inj' eq rfl
  cases last
  rw [quotedHint_eq_wholeType, h.trimmed, wholeType?, ht]
  simp only [reached, show typeExpression quotedHint _ _ = _ from read]
  rfl

theorem trim_quote (text : String) : Text.trim (Literal.quote text) = Literal.quote text := by
  have plain : Text.isBlank '\'' = false := by decide
  have chars := Markup.toList_quote text
  rw [Text.trim, Text.trimStart, Text.trimEnd, chars, dropWhile_cons, plain]
  rw [← String.ofList_toList (s := Literal.quote text), chars]
  simp [plain]

theorem tokens_quote (text : String) : ∃ s s' s'', tokens (Literal.quote text) =
    .ok [⟨.word (.string text), s⟩, ⟨.newline, s'⟩, ⟨.eof, s''⟩] := by
  have layout : Writes readWord ⟨.line, {}, [], none⟩ [] ((Literal.quote text).toList ++ []) []
      ⟨.inside, {}, [], none⟩ := by
    rw [Markup.toList_quote]
    exact writes_layout (by simp) (by decide)
      (rfl : Indentation.update {} (indentWidth []) = .ok (.same, {}))
  obtain ⟨last, written⟩ := spells_string text (by simp : [].head? ≠ some '\'') {} [] none
  obtain ⟨ts, ht, hk⟩ := tokensOf_of_writes (layout.trans written) rfl
  rw [nil_append, String.ofList_toList] at ht
  obtain ⟨before, n, ends⟩ := (skeleton_of_tokensOf ht).ending (by rw [hk]; simp)
  have newline : TokenKind.newline ∈ ts.map (·.kind) := by simp [ends]
  have kinds : ts.map (·.kind) = [.word (.string text), .newline, .eof] := by
    rw [hk] at newline ⊢
    unfold closingKinds at newline ⊢
    split at newline
    next => simp [Indentation.depth] at newline
    next => simp [Indentation.depth] at newline
    next => rfl
  obtain ⟨s, us, rfl, hu⟩ := exists_kinds_cons kinds
  obtain ⟨s', vs, rfl, hv⟩ := exists_kinds_cons hu
  obtain ⟨s'', ws, rfl, hw⟩ := exists_kinds_cons hv
  obtain rfl := map_eq_nil_iff.mp hw
  exact ⟨s, s', s'', ht⟩

theorem HintText.quote (h : HintText text ts type) :
    ∃ s, HintText (Literal.quote text) [⟨.word (.string text), s⟩] type := by
  obtain ⟨s, s', s'', ht⟩ := tokens_quote text
  refine ⟨s, trim_quote text, s', s'', ht, ?_⟩
  rw [← h.quotedHint_eq, hint, typeExpression, cons_append, typeMember]
  rfl

theorem HintText.iterate_quote (h : HintText text ts type) (n : Nat) :
    ∃ s, HintText (Literal.quote^[n + 1] text) [⟨.word (.string (Literal.quote^[n] text)), s⟩]
      type := by
  induction n with
  | zero => exact h.quote
  | succ n ih =>
    obtain ⟨s, quoted⟩ := ih
    rw [Function.iterate_succ_apply' Literal.quote (n + 1)]
    exact quoted.quote

end Quoted

section Arguments

/-- Whether the last of these tokens is one that an argument stands behind. -/
def opensArgument (ts : List Token) : Bool :=
  match ts.getLast? with
  | some ⟨.opening .square, _⟩ | some ⟨.word .comma, _⟩ => true
  | _ => false

/-- Whether the first of these tokens is one that an argument stands in front of. -/
def closesArgument : List Token → Bool
  | ⟨.closing .square, _⟩ :: _ | ⟨.word .comma, _⟩ :: _ => true
  | _ => false

/-- Token lists with different arguments at one place, or the same ones behind that place. -/
inductive Replaced (x y after : List Token) : List Token → List Token → Prop
  | around {pre} : opensArgument pre = true →
      Replaced x y after (pre ++ (x ++ after)) (pre ++ (y ++ after))
  | behind {ts} : ts <:+ after → Replaced x y after ts ts

variable {x y after : List Token} {type : TypeHint} {fin : Span}

theorem length_pos_of_opensArgument {ts : List Token} (h : opensArgument ts = true) :
    0 < ts.length := by
  cases ts with
  | nil => cases h
  | cons => exact Nat.succ_pos _

theorem Replaced.length {ts ts' : List Token} (h : Replaced x y after ts ts') :
    (ts.length + y.length = ts'.length + x.length ∧ x.length + after.length < ts.length) ∨
      (ts.length = ts'.length ∧ ts.length ≤ after.length) := by
  cases h with
  | around argument =>
    have pos := length_pos_of_opensArgument argument
    simp only [length_append]
    omega
  | behind sub => exact .inr ⟨rfl, sub.length_le⟩

theorem carries_replaced (hx : hint fin (x ++ after) = .ok (type, after))
    (hy : hint fin (y ++ after) = .ok (type, after)) :
    Carries True (Replaced x y after) (fun ts ts' => ts = x ++ after ∧ ts' = y ++ after) quotedHint
      fin fin where
  starts {ts _} h := by
    cases h with
    | @around pre argument =>
      cases pre with
      | nil => cases argument
      | cons t pre =>
        obtain ⟨k, s⟩ := t
        cases pre with
        | nil =>
          refine .step ?_
          unfold opensArgument at argument
          split at argument
          next eq =>
            cases eq
            exact .inr ⟨rfl, rfl⟩
          next eq =>
            cases eq
            exact .inr ⟨rfl, rfl⟩
          next => cases argument
        | cons t' pre =>
          exact .step (behindHead_of fun _ => .around (by simpa [opensArgument] using argument))
    | behind sub =>
      cases ts with
      | nil => exact .finish rfl
      | cons t ts => exact .step (behindHead_of fun _ => .behind ((suffix_cons t ts).trans sub))
  le h hr shorter := by
    have length := hr.length
    rcases h with h | ⟨rfl, rfl⟩
    · have length' := h.length
      omega
    · simp only [length_append] at shorter ⊢
      omega
  lt h hr shorter := by
    have length := h.length
    have length' := hr.length
    omega
  hole := by
    rintro _ _ ⟨rfl, rfl⟩
    exact ⟨type, after, after, hx, hy, .behind (suffix_refl _)⟩

theorem hint_replaced (hx : hint fin (x ++ after) = .ok (type, after))
    (hy : hint fin (y ++ after) = .ok (type, after)) {before rest : List Token} {whole : TypeHint}
    (hb : opensArgument before = true) (hr : rest <:+ after)
    (h : hint fin (before ++ (x ++ after)) = .ok (whole, rest)) :
    hint fin (before ++ (y ++ after)) = .ok (whole, rest) := by
  obtain ⟨⟨_, rest'⟩, read, same, left⟩ :=
    (typeExpression_carried (carries_replaced hx hy) (.around hb)).exists_ok h
  obtain rfl : whole = _ := same trivial
  have within := hr.length_le
  have place : Replaced x y after rest rest' := left
  cases place with
  | around argument =>
    have pos := length_pos_of_opensArgument argument
    simp only [length_append] at within
    omega
  | behind => exact read

end Arguments

theorem closesArgument_leaves {ts : List Token} (h : closesArgument ts = true) :
    leavesType ts = true := by
  unfold closesArgument at h
  split at h
  next => rfl
  next => rfl
  next => cases h

theorem HintText.hint_append {text : String} {ts after : List Token} {type : TypeHint}
    (h : HintText text ts type) (ts' : List Token) (alike : ts'.map (·.kind) = ts.map (·.kind))
    (ha : closesArgument after = true) (fin : Span) :
    hint fin (ts' ++ after) = .ok (type, after) := by
  obtain ⟨s, s', _, read⟩ := h.read
  exact typeExpression_append rfl (closesArgument_leaves ha) read alike.symm fin

/-- A type may be written in quotes, and these again, any number of times: as the whole of an
annotation or as an argument inside one. -/
theorem hint_quoted {text : String} {ts : List Token} {type : TypeHint}
    (h : HintText text ts type) (n : Nat) :
    (∃ s, HintText (Literal.quote^[n + 1] text)
      [⟨.word (.string (Literal.quote^[n] text)), s⟩] type) ∧
    ∀ fin before ts' after s whole rest, ts'.map (·.kind) = ts.map (·.kind) →
      opensArgument before = true → closesArgument after = true → rest <:+ after →
      (hint fin (before ++ (ts' ++ after)) = .ok (whole, rest) ↔
        hint fin (before ++ ([⟨.word (.string (Literal.quote^[n] text)), s⟩] ++ after)) =
          .ok (whole, rest)) := by
  obtain ⟨s₀, quoted⟩ := h.iterate_quote n
  refine ⟨⟨s₀, quoted⟩, fun fin before ts' after s whole rest alike hb ha hr => ?_⟩
  have plain := h.hint_append ts' alike ha fin
  have string := quoted.hint_append [⟨.word (.string (Literal.quote^[n] text)), s⟩] rfl ha fin
  exact ⟨hint_replaced plain string hb hr, hint_replaced string plain hb hr⟩

/-- An optional number in quotes within quotes, alone and as the items of a list. -/
theorem hint_quoted_optional :
    let type : TypeHint := .union [.name "int", .none]
    (∃ ts, HintText "int | None" ts type) ∧
      (∃ s, HintText "'\\'int | None\\''" [⟨.word (.string "'int | None'"), s⟩] type) ∧
      hint .origin (List.map (⟨·, .origin⟩) [.word (.identifier "list"), .opening .square,
        .word (.string "'int | None'"), .closing .square]) = .ok (.subscript "list" [type], []) := by
  intro type
  have spelled : HintText "int | None" [⟨.word (.identifier "int"), ⟨0, 3, 1, 1⟩⟩,
      ⟨.word .pipe, ⟨4, 5, 1, 5⟩⟩, ⟨.word (.identifier "None"), ⟨6, 10, 1, 7⟩⟩] type :=
    ⟨by decide, ⟨10, 10, 1, 11⟩, ⟨10, 10, 1, 11⟩, by with_unfolding_all rfl, by cbv⟩
  have once : Literal.quote^[1] "int | None" = "'int | None'" := by decide
  have twice : Literal.quote^[2] "int | None" = "'\\'int | None\\''" := by decide
  obtain ⟨whole, argument⟩ := hint_quoted spelled 1
  rw [once] at whole argument
  have plain : hint .origin (List.map (⟨·, .origin⟩) [.word (.identifier "list"), .opening .square,
      .word (.identifier "int"), .word .pipe, .word (.identifier "None"), .closing .square]) =
        .ok (.subscript "list" [type], []) := by cbv
  refine ⟨⟨_, spelled⟩, twice ▸ whole, ?_⟩
  exact (argument .origin [⟨.word (.identifier "list"), .origin⟩, ⟨.opening .square, .origin⟩]
    (List.map (⟨·, .origin⟩) [.word (.identifier "int"), .word .pipe, .word (.identifier "None")])
    [⟨.closing .square, .origin⟩] .origin _ [] rfl rfl rfl nil_suffix).mp plain

end ViewBridge.Classes
