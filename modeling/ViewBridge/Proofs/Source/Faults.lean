import ViewBridge.Proofs.Source.Run
import ViewBridge.Source.Value

namespace ViewBridge

open List

/-- A result that is as `G` tells, or a fault that is as `B` tells. -/
inductive Answers {α : Type} (B : Fault → Prop) (G : α → Prop) : Except Fault α → Prop
  | ok {a} : G a → Answers B G (.ok a)
  | error {fault} : B fault → Answers B G (.error fault)

section

variable {α β : Type} {B B' : Fault → Prop} {G : α → Prop} {H : β → Prop} {x : Except Fault α}

theorem Answers.bind {k : α → Except Fault β} (h : Answers B G x)
    (hk : ∀ a, x = .ok a → G a → Answers B H (k a)) : Answers B H (x.bind k) := by
  cases h with
  | ok hg => exact hk _ rfl hg
  | error hb => exact .error hb

theorem Answers.map {g : α → β} (h : Answers B G x) (hg : ∀ a, G a → H (g a)) :
    Answers B H (x.map g) := by
  cases h with
  | ok ha => exact .ok (hg _ ha)
  | error hb => exact .error hb

theorem Answers.imp {G' : α → Prop} (h : Answers B G x) (hb : ∀ fault, B fault → B' fault)
    (hg : ∀ a, G a → G' a) : Answers B' G' x := by
  cases h with
  | ok ha => exact .ok (hg _ ha)
  | error hf => exact .error (hb _ hf)

theorem Answers.of_error {fault : Fault} (h : Answers B G x) (hx : x = .error fault) : B fault := by
  cases h with
  | ok => cases hx
  | error hb =>
    cases hx
    exact hb

theorem Answers.of_ok {a : α} (h : Answers B G x) (hx : x = .ok a) : G a := by
  cases h with
  | ok hg =>
    cases hx
    exact hg
  | error => cases hx

end

section Readers

variable {ω : Type} [Describable ω] {fin : Span} {ts rest : List (Token ω)} {fault : Fault}

/-- A fault that tells of what stands in a list of tokens at its place. -/
inductive Blames (fin : Span) (ts : List (Token ω)) : Fault → Prop
  | finish {expected} : Blames fin ts (unexpected (ω := ω) fin expected [])
  | token {expected t} : t ∈ ts → Blames fin ts (unexpected fin expected [t])

theorem Blames.mono (h : Blames fin rest fault) (sub : rest <:+ ts) : Blames fin ts fault := by
  cases h with
  | finish => exact .finish
  | token hm => exact .token (sub.subset hm)

theorem unexpected_blames (expected : Expected) (sub : rest <:+ ts) :
    Blames fin ts (unexpected fin expected rest) := by
  cases rest with
  | nil => exact .finish
  | cons t rest => exact .token (sub.subset mem_cons_self)

/-- A reader that leaves an end of its tokens, or a fault about them. -/
abbrev Sound {α : Type} (fin : Span) (ts : List (Token ω)) (x : Except Fault (α × List (Token ω))) :
    Prop :=
  Answers (Blames fin ts) (·.2 <:+ ts) x

section Sound

variable {α β : Type} {x : Except Fault (α × List (Token ω))}

theorem Sound.mono (h : Sound fin rest x) (sub : rest <:+ ts) : Sound fin ts x :=
  h.imp (fun _ hb => hb.mono sub) fun _ hr => hr.trans sub

/-- What goes on with the end that is left reads an end of the same tokens. -/
theorem Sound.then {G : β → Prop} {k : α × List (Token ω) → Except Fault β} (h : Sound fin rest x)
    (sub : rest <:+ ts) (hk : ∀ a left, left <:+ ts → Answers (Blames fin ts) G (k (a, left))) :
    Answers (Blames fin ts) G (x.bind k) :=
  (h.mono sub).bind fun p _ hp => hk p.1 p.2 hp

theorem Answers.behind {G : β → Prop} {H : α → Prop} {y : Except Fault α} {k : α → Except Fault β}
    (h : Answers (Blames fin rest) H y) (sub : rest <:+ ts)
    (hk : ∀ a, H a → Answers (Blames fin ts) G (k a)) : Answers (Blames fin ts) G (y.bind k) :=
  (h.imp (fun _ hb => hb.mono sub) fun _ ha => ha).bind fun a _ ha => hk a ha

theorem refused {G : α → Prop} (expected : Expected) (sub : rest <:+ ts) :
    Answers (Blames fin ts) G (.error (unexpected fin expected rest)) :=
  .error (unexpected_blames expected sub)

theorem endOfLine_sound (ts : List (Token ω)) :
    Answers (Blames fin ts) (· <:+ ts) (endOfLine fin ts) := by
  unfold endOfLine
  split
  next => exact .ok (suffix_refl _)
  next => exact .ok (suffix_cons _ _)
  next => exact refused _ (suffix_refl _)

end Sound

end Readers

namespace Scanner

variable {ω : Type} {read : Lexicon ω}

/-- The faults of a text that cannot be cut into tokens: those of its layout and its brackets, and
those of words at characters that may start one. -/
inductive Arises (read : Lexicon ω) : LexFault → Prop
  | indentation (width expected : Nat) : Arises read (.inconsistentIndentation width expected)
  | unmatched (b : Bracket) : Arises read (.unmatched b.closeChar)
  | unclosed (b : Bracket) : Arises read (.unclosed b.openChar)
  | misread {previous c cs misread} : StartsWord c → read previous c cs = .error misread →
      Arises read misread.fault

theorem arises_of_tokensOf {source : String} {fault : Fault}
    (h : tokensOf read source = .error fault) : ∃ f span, fault = .lex f span ∧ Arises read f := by
  have finished {s : Scanner ω} (hs : s.finish = .error fault) :
      ∃ f span, fault = .lex f span ∧ Arises read f := by
    unfold finish at hs
    split at hs
    next bracket span _ _ =>
      cases hs
      exact ⟨_, _, rfl, .unclosed bracket⟩
    next => cases hs
  have run := scan_induction read
    (motive := fun _ r => r = .error fault → ∃ f span, fault = .lex f span ∧ Arises read f)
    (fun a r hs hr => by
      cases hs with
      | lineFinish | finish => exact finished hr
      | dedent =>
        cases hr
        exact ⟨_, _, rfl, .indentation _ _⟩
      | unmatched b =>
        cases hr
        exact ⟨_, _, rfl, .unmatched b⟩
      | misread starts hm =>
        cases hr
        exact ⟨_, _, rfl, .misread starts hm⟩)
    (fun a out b r hs ih hr => by
      cases r with
      | error f =>
        cases hr
        exact ih rfl
      | ok ts => cases hr)
    ⟨.line, {}, source.toList⟩
  exact run h

end Scanner

end ViewBridge
