import Mathlib.Data.List.ReduceOption
import ViewBridge.Proofs.Classes.Lockstep

namespace ViewBridge.Classes

open List

/-- Whether a token is neither a bracket nor the end of a line or of the text. -/
def isInline : Kind → Bool
  | .word _ | .indent | .dedent => true
  | _ => false

/-- Tokens of a line with balanced brackets; commas stand outside of them only if they may. -/
inductive Balanced : Bool → List Token → Prop
  | nil {commas} : Balanced commas []
  | token {commas t ts} : isInline t.kind = true → (t.kind = .word .comma → commas = true) →
      Balanced commas ts → Balanced commas (t :: ts)
  | group {commas b b' s s' inner ts} : Balanced true inner → Balanced commas ts →
      Balanced commas (⟨.opening b, s⟩ :: (inner ++ ⟨.closing b', s'⟩ :: ts))

/-- A type behind a mark, if there is one: the tokens behind the mark are read as a type. -/
inductive Annotation (mark : Word) : List Token → Option TypeHint → Prop
  | none : Annotation mark [] none
  | type {s fin ts type} : hint fin ts = .ok (type, []) →
      Annotation mark (⟨.word mark, s⟩ :: ts) (some type)

/-- A default value behind its sign, if there is one. -/
inductive DefaultTokens : List Token → Prop
  | none : DefaultTokens []
  | value {s ts} : ts ≠ [] → Balanced false ts → DefaultTokens (⟨.word .equals, s⟩ :: ts)

/-- An entry of a parameter list, and the parameter that it declares if it is a plain one. -/
inductive Entry : List Token → Option Param → Prop
  | plain {name s ts hint ds} : Annotation .colon ts hint → DefaultTokens ds →
      Entry (⟨.word (.identifier name), s⟩ :: (ts ++ ds)) (some ⟨name, hint, s⟩)
  | star {s} : Entry [⟨.word .star, s⟩] none
  | slash {s} : Entry [⟨.word (.operator "/"), s⟩] none
  | starred {mark s name s' ts hint} : mark = .star ∨ mark = .doubleStar →
      Annotation .colon ts hint →
      Entry (⟨.word mark, s⟩ :: ⟨.word (.identifier name), s'⟩ :: ts) none

/-- Entries between commas up to the closing bracket; a comma may stand last. -/
inductive ParamList : List Token → List (Option Param) → Prop
  | close {s} : ParamList [⟨.closing .round, s⟩] []
  | last {ts p s} : Entry ts p → ParamList (ts ++ [⟨.closing .round, s⟩]) [p]
  | more {ts p s us ps} : Entry ts p → ParamList us ps →
      ParamList (ts ++ ⟨.word .comma, s⟩ :: us) (p :: ps)

section Readers

variable {fin : Span} {ts us rest : List Token} {t : Token}

theorem Balanced.skipArgument {commas : Bool} (h : Balanced commas ts) {depth : Nat}
    (hd : commas = true → depth ≠ 0) (rest : List Token) :
    skipArgument depth (ts ++ rest) = skipArgument depth rest := by
  induction h generalizing depth rest with
  | nil => rfl
  | @token commas t ts inline comma _ ih =>
    rw [← ih hd rest]
    obtain ⟨k, s⟩ := t
    cases k with
    | word w =>
      cases w with
      | comma => exact if_neg (hd (comma rfl))
      | _ => rfl
    | indent | dedent => rfl
    | _ => cases inline
  | group _ _ inner others =>
    rw [cons_append, append_assoc, cons_append]
    exact (inner (by simp) _).trans (others hd rest)

theorem Annotation.typeBehind {word : Word} {mark : Word → Bool} {type : Option TypeHint}
    (h : Annotation word ts type) (hm : mark word = true) (leaves : leavesType rest = true)
    (other : ∀ w s us, rest = ⟨.word w, s⟩ :: us → mark w = false) (fin : Span) :
    typeBehind fin mark (ts ++ rest) = .ok (type, rest) := by
  cases h with
  | none =>
    unfold Classes.typeBehind
    split
    next w s us eq => rw [if_neg (by rw [other w s us eq]; simp), ← eq, nil_append]
    next => rfl
  | @type s fin' ts type read =>
    have whole : hint fin (ts ++ rest) = .ok (type, rest) :=
      typeExpression_append rfl leaves (by rwa [append_nil]) rfl fin
    simp only [Classes.typeBehind, cons_append, hm, if_true, whole]
    rfl

/-- Tokens that an annotation and a default end with. -/
inductive EndsEntry : List Token → Prop
  | comma (s rest) : EndsEntry (⟨.word .comma, s⟩ :: rest)
  | close (s rest) : EndsEntry (⟨.closing .round, s⟩ :: rest)

theorem DefaultTokens.leaves {ds : List Token} (h : DefaultTokens ds) (ends : EndsEntry rest) :
    leavesType (ds ++ rest) = true ∧
      ∀ w s us, ds ++ rest = ⟨.word w, s⟩ :: us → isColon w = false := by
  cases h with
  | none =>
    cases ends with
    | comma =>
      refine ⟨rfl, ?_⟩
      rintro _ _ _ ⟨⟩
      rfl
    | close => exact ⟨rfl, by simp⟩
  | value =>
    refine ⟨rfl, ?_⟩
    rintro _ _ _ ⟨⟩
    rfl

theorem Annotation.typeBehind_entry {type : Option TypeHint} {ds : List Token}
    (h : Annotation .colon ts type) (hd : DefaultTokens ds) (ends : EndsEntry rest) (fin : Span) :
    Classes.typeBehind fin isColon (ts ++ (ds ++ rest)) = .ok (type, ds ++ rest) := by
  obtain ⟨leaves, other⟩ := hd.leaves ends
  exact h.typeBehind rfl leaves other fin

theorem Entry.paramEntry {p : Option Param} (h : Entry ts p) (ends : EndsEntry rest) (fin : Span) :
    paramEntry fin (ts ++ rest) = .ok (p, rest) := by
  cases h with
  | plain annotation default =>
    have read := annotation.typeBehind_entry default ends fin
    rw [cons_append, append_assoc]
    simp only [Classes.paramEntry, read]
    cases default with
    | none => cases ends <;> rfl
    | value _ balanced =>
      have skipped : skipArgument 0 (_ ++ rest) = _ := balanced.skipArgument (by simp) rest
      cases ends <;> exact congrArg (fun left => Except.ok (_, left)) skipped
  | star => cases ends <;> rfl
  | slash => rfl
  | starred hm annotation =>
    have read := annotation.typeBehind_entry .none ends fin
    rcases hm with rfl | rfl <;>
      simp only [cons_append, Classes.paramEntry, nil_append] at read ⊢ <;>
      rw [read] <;>
      rfl

theorem Entry.inside {p : Option Param} (h : Entry ts p) (us : List Token) (s : Span)
    (rest : List Token) : ts ++ us ≠ ⟨.closing .round, s⟩ :: rest := by
  cases h <;> simp

theorem ParamList.params {ps : List (Option Param)} (h : ParamList ts ps) (fin : Span)
    (rest : List Token) : params fin (ts ++ rest) = .ok (ps.reduceOption, rest) := by
  induction h with
  | close => exact (entries_params fin).close _ rest
  | @last ts p s entry =>
    have read := entry.paramEntry (.close s rest) fin
    rw [append_assoc]
    refine ((entries_params fin).read_last (entry.inside _) read).trans ?_
    cases p <;> rfl
  | @more ts p s us ps entry _ ih =>
    have read := entry.paramEntry (.comma s (us ++ rest)) fin
    rw [append_assoc, cons_append]
    refine ((entries_params fin).read_comma (entry.inside _) read ?_ ih).trans ?_
    · simp only [length_append, length_cons]
      omega
    · cases p <;> rfl

end Readers

/-- A parameter list is read through its closing bracket, as its plain parameters in order; of a
method whose first parameter is a plain one only that one is dropped, unless the method is static. -/
theorem params_method_of_paramList {ts : List Token} {ps : List (Option Param)}
    (h : ParamList ts ps) :
    (∀ fin rest, params fin (ts ++ rest) = .ok (ps.reduceOption, rest)) ∧
      ∀ first others, ps = some first :: others →
        ∀ fin start ds name s s' s'' body arrow returns, Annotation .arrow arrow returns →
          ∃ m left, method fin ds start (⟨.word (.identifier name), s⟩ :: ⟨.opening .round, s'⟩ ::
              (ts ++ (arrow ++ ⟨.word .colon, s''⟩ :: body))) = .ok (m, left) ∧
            m.name = name ∧ m.returns = returns ∧
            m.params = if ds.any (·.name == "staticmethod") then first :: others.reduceOption
              else others.reduceOption := by
  refine ⟨h.params, ?_⟩
  rintro first others rfl fin start ds name s s' s'' body arrow returns ha
  have read := h.params fin (arrow ++ ⟨.word .colon, s''⟩ :: body)
  have returned : typeBehind fin isArrow (arrow ++ ⟨.word .colon, s''⟩ :: body) =
      .ok (returns, ⟨.word .colon, s''⟩ :: body) := by
    refine ha.typeBehind rfl rfl ?_ fin
    rintro _ _ _ ⟨⟩
    rfl
  simp only [method, read]
  exact ⟨_, _, by simp only [bind, Except.bind, returned]; rfl, rfl, rfl, rfl⟩

/-- `self, x: int = f(a, [b]), /, *args: str, **kw,)` -/
def mixedParams : List Token :=
  List.map (⟨·, .origin⟩) [.word (.identifier "self"), .word .comma,
    .word (.identifier "x"), .word .colon, .word (.identifier "int"), .word .equals,
      .word (.identifier "f"), .opening .round, .word (.identifier "a"), .word .comma,
      .opening .square, .word (.identifier "b"), .closing .square, .closing .round, .word .comma,
    .word (.operator "/"), .word .comma,
    .word .star, .word (.identifier "args"), .word .colon, .word (.identifier "str"), .word .comma,
    .word .doubleStar, .word (.identifier "kw"), .word .comma, .closing .round]

theorem params_method_of_mixedParams :
    let self : Param := ⟨"self", none, .origin⟩
    let x : Param := ⟨"x", some (.name "int"), .origin⟩
    ParamList mixedParams [some self, some x, none, none, none] ∧
      params .origin (mixedParams ++ [⟨.word .colon, .origin⟩]) =
        .ok ([self, x], [⟨.word .colon, .origin⟩]) ∧
      ∃ m left, method .origin [] .origin (⟨.word (.identifier "f"), .origin⟩ ::
          ⟨.opening .round, .origin⟩ :: (mixedParams ++ [⟨.word .colon, .origin⟩])) =
            .ok (m, left) ∧
        m.name = "f" ∧ m.returns = none ∧ m.params = [x] := by
  intro self x
  have named (name : String) (h : name ≠ "None") :
      hint .origin [⟨.word (.identifier name), .origin⟩] = .ok (.name name, []) := by
    simp [hint, typeExpression, typeMember, dottedTail, bind, Except.bind, pure, Except.pure, h]
  have item : Balanced true [⟨.word (.identifier "b"), .origin⟩] := .token rfl (by simp) .nil
  have items : Balanced true (List.map (⟨·, .origin⟩) [.word (.identifier "a"), .word .comma,
      .opening .square, .word (.identifier "b"), .closing .square]) :=
    .token rfl (by simp) (.token rfl (by simp) (.group item .nil))
  have default : Balanced false (List.map (⟨·, .origin⟩) [.word (.identifier "f"),
      .opening .round, .word (.identifier "a"), .word .comma, .opening .square,
      .word (.identifier "b"), .closing .square, .closing .round]) :=
    .token rfl (by simp) (.group items .nil)
  have spelled : ParamList mixedParams [some self, some x, none, none, none] :=
    .more (.plain .none .none) (.more (.plain (.type (named "int" (by decide)))
      (.value (by simp) default)) (.more .slash (.more (.starred (.inl rfl)
        (.type (named "str" (by decide)))) (.more (.starred (.inr rfl) .none) .close))))
  obtain ⟨read, read_method⟩ := params_method_of_paramList spelled
  exact ⟨spelled, read _ _, read_method self _ rfl .origin .origin [] "f" _ _ _ [] [] none .none⟩

end ViewBridge.Classes
