import ViewBridge.Proofs.Classes.Lockstep

namespace ViewBridge.Classes

open List

variable {ds ds' : List Decorator} {s span span' : Span} {name : String}

def Decorator.unplaced (d : Decorator) : Decorator := { d with span := .origin }

def Field.unplaced (f : Field) : Field := { f with span := .origin, extent := .origin }

def Param.unplaced (p : Param) : Param := { p with span := .origin }

def Method.unplaced (m : Method) : Method :=
  { m with params := m.params.map Param.unplaced, decorators := m.decorators.map Decorator.unplaced,
           span := .origin, extent := .origin }

/-- A class without the places of its parts. -/
def ClassDef.unplaced (c : ClassDef) : ClassDef :=
  { c with decorators := c.decorators.map Decorator.unplaced, fields := c.fields.map Field.unplaced,
           methods := c.methods.map Method.unplaced, span := .origin }

def Members.unplaced (m : Members) : Members :=
  ⟨m.fields.map Field.unplaced, m.methods.map Method.unplaced⟩

def MemberLine.unplaced (line : MemberLine) : MemberLine :=
  ⟨line.members.unplaced, line.pending.map Decorator.unplaced⟩

/-- A parameter without its place, and without its type if types do not count. -/
def Param.shown (loud : Bool) (p : Param) : Param :=
  { p with hint := cond loud p.hint none, span := .origin }

def Method.shown (loud : Bool) (m : Method) : Method :=
  { m.unplaced with params := m.params.map (Param.shown loud), returns := cond loud m.returns none }

def MemberLine.shown (loud : Bool) (line : MemberLine) : MemberLine :=
  ⟨⟨line.members.fields.map Field.unplaced, line.members.methods.map (Method.shown loud)⟩,
    line.pending.map Decorator.unplaced⟩

def startsField : List Kind → Bool
  | .word (.identifier _) :: .word .defKeyword :: _ => false
  | .word (.identifier _) :: _ => true
  | _ => false

theorem Members.unplaced_append (m n : Members) :
    (m.append n).unplaced = m.unplaced.append n.unplaced := by
  simp only [Members.append, Members.unplaced, map_append]

/-- Two lists of decorators that differ in their places alone. -/
abbrev SameDecorators : List Decorator → List Decorator → Prop :=
  InvImage Eq (List.map Decorator.unplaced)

theorem SameDecorators.concat {d d' : Decorator} (h : SameDecorators ds ds')
    (hd : InvImage Eq Decorator.unplaced d d') : SameDecorators (ds ++ [d]) (ds' ++ [d']) := by
  have before : ds.map Decorator.unplaced = ds'.map Decorator.unplaced := h
  have last : d.unplaced = d'.unplaced := hd
  simp only [SameDecorators, InvImage, map_append, map_cons, map_nil, before, last]

theorem SameDecorators.any_name (h : SameDecorators ds ds') (name : String) :
    ds.any (·.name == name) = ds'.any (·.name == name) := by
  have names := congrArg (List.any · (·.name == name)) h
  simpa only [any_map, Function.comp_def, Decorator.unplaced] using names

theorem SameDecorators.isEmpty (h : SameDecorators ds ds') : ds.isEmpty = ds'.isEmpty := by
  have empty := congrArg List.isEmpty h
  simpa only [isEmpty_map] using empty

theorem shown_method {loud : Bool} {ps ps' : List Param} {returns returns' : Option TypeHint}
    {isConstructor : Bool} {extent extent' : Span} (hd : SameDecorators ds ds')
    (hp : InvImage Eq (List.map (Param.shown loud)) ps ps') (hr : SameHint loud returns returns') :
    Method.shown loud
        { name, params := if ds.any (·.name == "staticmethod") then ps else ps.drop 1, returns,
          decorators := ds, isStatic := ds.any (·.name == "staticmethod"), isConstructor, span,
          extent } =
      Method.shown loud
        { name, params := if ds'.any (·.name == "staticmethod") then ps' else ps'.drop 1,
          returns := returns', decorators := ds', isStatic := ds'.any (·.name == "staticmethod"),
          isConstructor, span := span', extent := extent' } := by
  have decorators : ds.map Decorator.unplaced = ds'.map Decorator.unplaced := hd
  have params : ps.map (Param.shown loud) = ps'.map (Param.shown loud) := hp
  have returns : cond loud returns none = cond loud returns' none := hr
  simp only [Method.shown, Method.unplaced, hd.any_name "staticmethod", decorators, returns]
  split <;> simp only [map_drop, params]

def fieldDefault (fin : Span) (ts : List Token) : Option Literal × List Token :=
  match ts with
  | ⟨.word .equals, _⟩ :: rest => defaultValue fin rest
  | _ => (none, ts)

def fieldEnd (fin : Span) (name : String) (hint : Option TypeHint) (span : Span) (ts : List Token)
    (p : Option Literal × List Token) : Except Fault (Option Field × List Token) :=
  if hint.isNone && p.1.isNone && !atLineEnd p.2 then .error (unexpected fin .colonOrEquals p.2)
  else (endOfLine fin p.2).map fun rest =>
    (if isReservedName name then none
      else some ⟨name, hint, p.1, span, extentFrom span ts p.2⟩, rest)

/-- Two lists of tokens behind a member: it has its block with it, or that would follow. -/
def Onward (B : Nat → TokenRel Word) (depth : Nat) (ts ts' : List Token) : Prop :=
  B depth ts ts' ∨ Behind B depth ts ts'

theorem Onward.length {m n depth : Nat} {B : Nat → TokenRel Word}
    (hB : Frame m n B) {ts ts' : List Token} (h : Onward B depth ts ts') :
    ts.length + n = ts'.length + m := by
  rcases h with h | h
  · exact hB.length h
  · exact h.length hB

theorem Onward.alike {depth : Nat} {ts ts' : List Token}
    (h : Onward (fun _ => Alike) depth ts ts') : Alike ts ts' := by
  rcases h with h | h
  · exact h
  · exact h.alike

theorem skipLine_line {us rest : List Token} (text : ∀ t ∈ us, t.kind.isText = true) :
    skipLine (us ++ ⟨.newline, s⟩ :: rest) = rest := by
  induction us with
  | nil => rfl
  | cons t us ih =>
    obtain ⟨first, others⟩ := forall_mem_cons.mp text
    obtain ⟨k, s⟩ := t
    cases k with
    | newline => cases first
    | _ => exact ih others

theorem skipBlock_eq_self {ts : List Token} (h : startsBlock ts = false) : skipBlock ts = ts := by
  unfold skipBlock
  split
  · cases h
  · rfl

theorem skipBlock_steps {depth : Nat} {B : Nat → TokenRel Word}
    (block : ∀ {ts ts'}, B (depth + 1) ts ts' → B depth (behindBlock 0 ts) (behindBlock 0 ts'))
    {ts ts' : List Token} (h : Behind B depth ts ts') :
    B depth (skipBlock ts) (skipBlock ts') := by
  cases h with
  | line start start' hb => rwa [skipBlock_eq_self start, skipBlock_eq_self start']
  | block hb =>
    exact block hb

theorem field_eq (fin : Span) (name : String) (span : Span) (t : Token) (ts : List Token) :
    field fin name span (t :: ts) = (typeBehind fin isColon ts).bind fun p =>
      fieldEnd fin name p.1 span (t :: ts) (fieldDefault fin p.2) := by
  unfold field
  rw [drop_one, tail_cons]
  refine bind_congr fun p => ?_
  show (if p.1.isNone && (fieldDefault fin p.2).1.isNone && !atLineEnd (fieldDefault fin p.2).2
    then _ else (endOfLine fin (fieldDefault fin p.2).2).bind _) = _
  unfold fieldEnd
  split
  · rfl
  · cases endOfLine fin (fieldDefault fin p.2).2 with
    | error => rfl
    | ok rest =>
      simp only [Except.bind, Except.map]
      split <;> rfl

section Steps

variable {loud : Bool} {m n depth : Nat} {R : TokenRel Word}
  (hR : Steps loud m n R) {B : Nat → TokenRel Word} {fin fin' : Span}
  {ts ts' : List Token}

include hR

theorem paramEntry_steps (h : R ts ts') :
    Agree (Leaves (InvImage Eq (Option.map (Param.shown loud))) R) (paramEntry fin ts)
      (paramEntry fin' ts') := by
  cases hR.tops h with
  | nil | string => exact .error trivial
  | @cons k s s' rest rest' next =>
    cases k with
    | word w =>
      cases w with
      | star | doubleStar =>
        have hr := next nofun
        cases hR.tops hr with
        | nil | string => exact .ok ⟨rfl, hr⟩
        | @cons k _ _ _ _ inner =>
          cases k with
          | word w =>
            cases w with
            | identifier name =>
              refine (typeBehind_steps hR (fun _ => rfl) (inner nofun)).bind ?_
              rintro ⟨hint, _⟩ ⟨_, _⟩ _ ⟨_, hr⟩
              exact .ok ⟨rfl, hr⟩
            | _ => exact .ok ⟨rfl, hr⟩
          | _ => exact .ok ⟨rfl, hr⟩
      | operator op =>
        simp only [paramEntry]
        split
        · exact .ok ⟨rfl, next nofun⟩
        · exact .error trivial
      | identifier name =>
        refine (typeBehind_steps hR (fun _ => rfl) (next nofun)).bind ?_
        rintro ⟨hint, behind⟩ ⟨hint', behind'⟩ _ ⟨hh, hb⟩
        have same : (some ⟨name, hint, s⟩ : Option Param).map (Param.shown loud) =
            (some ⟨name, hint', s'⟩ : Option Param).map (Param.shown loud) :=
          congrArg (fun hint => some (⟨name, hint, .origin⟩ : Param)) hh
        cases hR.tops hb with
        | nil | string => exact .ok ⟨same, hb⟩
        | @cons k _ _ _ _ next =>
          cases k with
          | word w =>
            cases w with
            | equals => exact .ok ⟨same, skipArgument_steps hR 0 (next nofun)⟩
            | _ => exact .ok ⟨same, hb⟩
          | _ => exact .ok ⟨same, hb⟩
      | _ => exact .error trivial
    | _ => exact .error trivial

theorem params_steps (h : R ts ts') :
    Agree (Leaves (InvImage Eq (List.map (Param.shown loud))) R) (params fin ts) (params fin' ts') := by
  refine (entries_params fin).steps hR (entries_params fin') rfl ?_ (paramEntry_steps hR) h
  intro p p' ps ps' hp hps
  have first : p.toList.map (Param.shown loud) = p'.toList.map (Param.shown loud) := by
    rw [← Option.toList_map, ← Option.toList_map, show p.map (Param.shown loud) = _ from hp]
  exact (map_append ..).trans
    ((congrArg₂ (· ++ ·) first hps).trans (map_append ..).symm)

section Ends

variable (ends : LineEnds R B depth)

include ends

theorem endOfLine_steps (h : R ts ts') :
    Agree (Behind B depth) (endOfLine fin ts) (endOfLine fin' ts') := by
  cases hR.tops h with
  | nil => exact .ok (.line rfl rfl (ends.nil h))
  | string => exact .error trivial
  | @cons k =>
    cases k with
    | newline => exact .ok (ends.newline h)
    | _ => exact .error trivial

theorem skipLine_steps (h : R ts ts') : Behind B depth (skipLine ts) (skipLine ts') := by
  have ended := atLineEnd_lineEnd ts
  have here := lineEnd_steps hR h
  unfold skipLine
  generalize lineEnd ts = us at ended here
  generalize lineEnd ts' = us' at here
  cases hR.tops here with
  | nil => exact .line rfl rfl (ends.nil here)
  | string => cases ended
  | @cons k =>
    cases k with
    | newline => exact ends.newline here
    | _ => cases ended

theorem decorator_steps (h : R ts ts') :
    Agree (Leaves (InvImage Eq Decorator.unplaced) (Behind B depth)) (decorator fin span ts)
      (decorator fin' span' ts') := by
  refine (dottedName_steps hR h).bind_leaves fun name rest rest' hr => ?_
  have plain : Agree (Leaves (InvImage Eq Decorator.unplaced) (Behind B depth))
      ((endOfLine fin rest).bind fun rest => .ok (⟨name, false, span⟩, rest))
      ((endOfLine fin' rest').bind fun rest => .ok (⟨name, false, span'⟩, rest)) :=
    (endOfLine_steps hR ends hr).bind fun _ _ _ hb => .ok ⟨rfl, hb⟩
  cases hR.tops hr with
  | nil | string => exact plain
  | @cons k =>
    cases k with
    | opening b =>
      cases b with
      | round =>
        exact (endOfLine_steps hR ends (hR.group hr)).bind
          fun _ _ _ hb => .ok ⟨rfl, hb⟩
      | _ => exact plain
    | _ => exact plain

end Ends

end Steps

section Line

variable {m n depth : Nat} {R : TokenRel Word} (hR : Lockstep m n R)
  {B : Nat → TokenRel Word} {fin fin' : Span} {ts ts' : List Token}

include hR

theorem fieldDefault_lockstep (h : R ts ts') :
    Leaves Eq R (fieldDefault fin ts) (fieldDefault fin' ts') := by
  cases hR.heads h with
  | nil => exact ⟨rfl, h⟩
  | @cons k _ _ _ _ next =>
    cases k with
    | word w =>
      cases w with
      | equals => exact defaultValue_lockstep hR (next nofun)
      | _ => exact ⟨rfl, h⟩
    | _ => exact ⟨rfl, h⟩

section Ends

variable (ends : LineEnds R B depth)

include ends

theorem fieldEnd_lockstep {hint : Option TypeHint} {all all' : List Token}
    {p p' : Option Literal × List Token} (h : Leaves Eq R p p') :
    Agree (Leaves (InvImage Eq (Option.map Field.unplaced)) (Behind B depth))
      (fieldEnd fin name hint span all p) (fieldEnd fin' name hint span' all' p') := by
  obtain ⟨default, rest⟩ := p
  obtain ⟨_, rest'⟩ := p'
  obtain ⟨rfl, hr⟩ := h
  simp only [fieldEnd, atLineEnd_steps (steps_of_lockstep hR) hr]
  split
  · exact .error trivial
  · refine (endOfLine_steps (steps_of_lockstep hR) ends hr).map fun _ _ hb => ⟨?_, hb⟩
    split <;> rfl

theorem field_lockstep {t t' : Token} (h : R ts ts') :
    Agree (Leaves (InvImage Eq (Option.map Field.unplaced)) (Behind B depth))
      (field fin name span (t :: ts)) (field fin' name span' (t' :: ts')) := by
  rw [field_eq, field_eq]
  refine (typeBehind_steps (steps_of_lockstep hR) (fun _ => rfl) h).bind ?_
  rintro ⟨hint, rest⟩ ⟨hint', rest'⟩ _ ⟨same, hr⟩
  obtain rfl : hint = hint' := same
  exact fieldEnd_lockstep hR ends (fieldDefault_lockstep hR hr)

end Ends

end Line

section Member

variable {loud : Bool} {m n depth : Nat} {R : TokenRel Word}
  (hR : Steps loud m n R) {B : Nat → TokenRel Word} {fin fin' : Span}
  {ts ts' : List Token}

  (ends : LineEnds R B depth)

  (block : ∀ {ts ts'}, B (depth + 1) ts ts' → B depth (behindBlock 0 ts) (behindBlock 0 ts'))

include hR ends block

theorem skipStatement_steps (h : R ts ts') :
    B depth (skipStatement ts) (skipStatement ts') :=
  skipBlock_steps block (skipLine_steps hR ends h)

theorem bodyEnd_steps (h : R ts ts') :
    Onward B depth (if atLineEnd ts then skipStatement ts else skipLine ts)
      (if atLineEnd ts' then skipStatement ts' else skipLine ts') := by
  rw [atLineEnd_steps hR h]
  split
  · exact .inl (skipStatement_steps hR ends block h)
  · exact .inr (skipLine_steps hR ends h)

theorem method_steps {start start' : Span} (hd : SameDecorators ds ds') (h : R ts ts') :
    Agree (Leaves (InvImage Eq (Method.shown loud)) (Onward B depth)) (method fin ds start ts)
      (method fin' ds' start' ts') := by
  cases hR.tops h with
  | nil | string => exact .error trivial
  | @cons k s s' rest rest' next =>
    cases k with
    | word w =>
      cases w with
      | identifier name =>
        cases hR.tops (next nofun) with
        | nil | string => exact .error trivial
        | @cons k _ _ _ _ inner =>
          cases k with
          | opening b =>
            cases b with
            | round =>
              refine (params_steps hR (inner nofun)).bind ?_
              rintro ⟨ps, behind⟩ ⟨ps', behind'⟩ _ ⟨hp, hb⟩
              refine (typeBehind_steps hR (fun _ => rfl) hb).bind ?_
              rintro ⟨returns, rest⟩ ⟨returns', rest'⟩ _ ⟨same, hr⟩
              cases hR.tops hr with
              | nil | string => exact .error trivial
              | @cons k _ _ _ _ body =>
                cases k with
                | word w =>
                  cases w with
                  | colon =>
                    refine .ok ⟨?_, bodyEnd_steps hR ends block (body nofun)⟩
                    exact shown_method hd hp same
                  | _ => exact .error trivial
                | _ => exact .error trivial
            | _ => exact .error trivial
          | _ => exact .error trivial
      | _ => exact .error trivial
    | _ => exact .error trivial

theorem member_steps (quiet : loud = false → startsField (ts.map (·.kind)) = false)
    (hd : SameDecorators ds ds') (h : R ts ts') :
    Agree (Leaves (InvImage Eq (MemberLine.shown loud)) (Onward B depth)) (member fin ds ts)
      (member fin' ds' ts') := by
  have decorators : ds.map Decorator.unplaced = ds'.map Decorator.unplaced := hd
  have methods : ∀ {start start' us us'}, R us us' →
      Agree (Leaves (InvImage Eq (MemberLine.shown loud)) (Onward B depth))
        ((method fin ds start us).bind fun p => .ok (⟨⟨[], [p.1]⟩, []⟩, p.2))
        ((method fin' ds' start' us').bind fun p => .ok (⟨⟨[], [p.1]⟩, []⟩, p.2)) := by
    intro start start' us us' hu
    refine (method_steps hR ends block hd hu).bind ?_
    rintro ⟨m, _⟩ ⟨m', _⟩ _ ⟨hm, hl⟩
    have same : m.shown loud = m'.shown loud := hm
    refine .ok ⟨?_, hl⟩
    simp only [InvImage, MemberLine.shown, map_cons, map_nil, same]
  have docstring {us us'} (hu : R us us') :
      Agree (Leaves (InvImage Eq (MemberLine.shown loud)) (Onward B depth))
        ((endOfLine fin us).bind fun rest => .ok (⟨{}, ds⟩, rest))
        ((endOfLine fin' us').bind fun rest => .ok (⟨{}, ds'⟩, rest)) := by
    refine (endOfLine_steps hR ends hu).bind fun _ _ _ hl => .ok ⟨?_, .inr hl⟩
    simp only [InvImage, MemberLine.shown, decorators]
  cases hR.tops h with
  | nil => exact .error trivial
  | string _ next => exact docstring next
  | @cons k s s' rest rest' next =>
    cases k with
    | word w =>
      cases w with
      | «at» =>
        refine (decorator_steps hR ends (next nofun)).bind ?_
        rintro ⟨d, _⟩ ⟨d', _⟩ _ ⟨hd', hl⟩
        exact .ok ⟨congrArg (MemberLine.mk {}) (hd.concat hd'), .inr hl⟩
      | defKeyword => exact methods (next nofun)
      | classKeyword => exact .ok ⟨rfl, .inl (skipStatement_steps hR ends block (next nofun))⟩
      | passKeyword | ellipsis | string => exact docstring (next nofun)
      | identifier name =>
        have fields (starts : startsField (.word (.identifier name) :: rest.map (·.kind)) = true) :
            Agree (Leaves (InvImage Eq (MemberLine.shown loud)) (Onward B depth))
              ((field fin name s (⟨.word (.identifier name), s⟩ :: rest)).bind
                fun p => .ok (⟨⟨p.1.toList, []⟩, []⟩, p.2))
              ((field fin' name s' (⟨.word (.identifier name), s'⟩ :: rest')).bind
                fun p => .ok (⟨⟨p.1.toList, []⟩, []⟩, p.2)) := by
          cases loud with
          | false => cases starts.symm.trans (quiet rfl)
          | true =>
            refine (field_lockstep hR.lockstep ends (next nofun)).bind ?_
            rintro ⟨f, _⟩ ⟨f', _⟩ _ ⟨hf, hl⟩
            have same : f.map Field.unplaced = f'.map Field.unplaced := hf
            refine .ok ⟨?_, .inr hl⟩
            simp only [InvImage, MemberLine.shown, ← Option.toList_map, same]
        cases hR.tops (next nofun) with
        | nil | string => exact fields rfl
        | @cons k _ _ _ _ inner =>
          cases k with
          | word w =>
            cases w with
            | defKeyword =>
              simp only [member]
              split
              · exact methods (inner nofun)
              · exact .error trivial
            | _ => exact fields rfl
          | _ => exact fields rfl
      | _ => exact .error trivial
    | _ => exact .error trivial

end Member

section Block

variable {m n depth : Nat} {B : Nat → TokenRel Word} (hB : Frame m n B)
  {fin fin' : Span} {ts ts' : List Token}

include hB in
theorem member_lockstep {R : TokenRel Word} (hR : Lockstep m n R)
    (ends : LineEnds R B depth) (hd : SameDecorators ds ds') (h : R ts ts') :
    Agree (Leaves (InvImage Eq MemberLine.unplaced) (Onward B depth)) (member fin ds ts)
      (member fin' ds' ts') :=
  member_steps (steps_of_lockstep hR) ends hB.block (by simp) hd h

theorem classMembers_none (h : startsBlock ts = false) :
    classMembers fin (⟨.newline, s⟩ :: ts) = .ok ({}, ts) := by
  cases ts with
  | nil => rfl
  | cons t ts =>
    obtain ⟨k, s⟩ := t
    cases k with
    | indent => cases h
    | _ => rfl

theorem classBody_indent (fin : Span) (ds : List Decorator) (s : Span) (ts : List Token) :
    ∃ fault, classBody fin ds (⟨.indent, s⟩ :: ts) = .error fault := by
  rw [classBody.eq_def]
  exact ⟨_, rfl⟩

theorem classBody_member {k : Kind} (hk : k ≠ .newline) (hd : k ≠ .dedent)
    (ds : List Decorator) (s : Span) (ts : List Token) :
    classBody fin ds (⟨k, s⟩ :: ts) = (member fin ds (⟨k, s⟩ :: ts)).bind fun p =>
      if p.2.length < (⟨k, s⟩ :: ts : List Token).length then
        (classBody fin p.1.pending p.2).map fun q => (p.1.members.append q.1, q.2)
      else .error (unexpected fin .memberDeclaration p.2) := by
  rw [classBody]
  · rfl
  · simp
  · rintro _ _ eq
    exact hd (congrArg Token.kind (List.cons.inj eq).1)
  · rintro _ _ eq
    exact hk (congrArg Token.kind (List.cons.inj eq).1)

include hB

/-- The lines of a body are read the same up to its end. -/
theorem classBody_lockstep (hd : SameDecorators ds ds') (h : B (depth + 1) ts ts') :
    Agree (Leaves (InvImage Eq Members.unplaced) (B depth)) (classBody fin ds ts)
      (classBody fin' ds' ts') := by
  induction hn : ts.length using Nat.strongRecOn generalizing ts ts' ds ds' with
  | ind size ih =>
    have further : ∀ {ds ds' us us'}, SameDecorators ds ds' → Onward B (depth + 1) us us' →
        us.length < size → Agree (Leaves (InvImage Eq Members.unplaced) (B depth))
          (classBody fin ds us) (classBody fin' ds' us') := by
      intro ds ds' us us' hd hl shorter
      rcases hl with hb | ⟨_, _, hb⟩ | @⟨s, s', us, us', _⟩
      · exact ih us.length shorter hd hb rfl
      · exact ih us.length shorter hd hb rfl
      · -- a block behind a member that is one already is refused
        obtain ⟨fault, eq⟩ := classBody_indent fin ds s us
        obtain ⟨fault', eq'⟩ := classBody_indent fin' ds' s' us'
        rw [eq, eq']
        exact .error trivial
    cases hB.inBlock h with
    | nil hb =>
      rw [classBody, classBody]
      exact .ok ⟨rfl, hb⟩
    | dedent hb =>
      rw [classBody, classBody]
      exact .ok ⟨rfl, hb⟩
    | @line k s s' rest rest' hk onLine =>
      obtain ⟨R, hR, ends, hl⟩ := onLine
      by_cases newline : k = .newline
      · subst newline
        rw [classBody, classBody]
        rw [length_cons] at hn
        exact further hd (.inr (ends.newline hl)) (by omega)
      · rw [classBody_member newline hk, classBody_member newline hk]
        refine (member_lockstep hB hR ends hd hl).bind ?_
        rintro ⟨line, behind⟩ ⟨line', behind'⟩ _ ⟨same, hb⟩
        obtain ⟨members, pending⟩ := MemberLine.mk.inj same
        have length := hR.length hl
        have length' := hb.length hB
        refine .guard (by dsimp only at *; omega) trivial fun shorter => ?_
        refine (further pending hb (Nat.lt_of_lt_of_eq shorter hn)).map ?_
        rintro ⟨others, _⟩ ⟨others', _⟩ ⟨ho, hb⟩
        have others : others.unplaced = others'.unplaced := ho
        refine ⟨?_, hb⟩
        simp only [InvImage, Members.unplaced_append, members, others]

theorem classMembers_newline {s' : Span} (h : Behind B depth ts ts') :
    Agree (Leaves (InvImage Eq Members.unplaced) (B depth)) (classMembers fin (⟨.newline, s⟩ :: ts))
      (classMembers fin' (⟨.newline, s'⟩ :: ts')) := by
  cases h with
  | line start start' hb =>
    rw [classMembers_none start, classMembers_none start']
    exact .ok ⟨rfl, hb⟩
  | block hb => exact classBody_lockstep hB rfl hb

theorem classMembers_lockstep (h : OnLine B m n depth ts ts') :
    Agree (Leaves (InvImage Eq Members.unplaced) (Onward B depth)) (classMembers fin ts)
      (classMembers fin' ts') := by
  obtain ⟨R, hR, ends, hl⟩ := h
  have member : Agree (Leaves (InvImage Eq Members.unplaced) (Onward B depth))
      ((member fin [] ts).map fun p => (p.1.members, p.2))
      ((member fin' [] ts').map fun p => (p.1.members, p.2)) := by
    refine (member_lockstep hB hR ends rfl hl).map ?_
    rintro ⟨line, _⟩ ⟨line', _⟩ ⟨same, hb⟩
    exact ⟨(MemberLine.mk.inj same).1, hb⟩
  cases hR.heads hl with
  | nil => exact .ok ⟨rfl, .inl (ends.nil hl)⟩
  | @cons k =>
    cases k with
    | newline =>
      exact (classMembers_newline hB (ends.newline hl)).imp fun _ _ left => ⟨left.1, .inl left.2⟩
    | _ => exact member

end Block

def classBases (fin : Span) (ts : List Token) : Except Fault (List String × List Token) :=
  match ts with
  | ⟨.opening .round, _⟩ :: rest => baseClasses fin rest
  | ts => .ok ([], ts)

def headerEnd (fin : Span) (name : String) (p : List String × List Token) :
    Except Fault ((String × List String) × List Token) :=
  match p.2 with
  | ⟨.word .colon, _⟩ :: rest => .ok ((name, p.1), rest)
  | _ => .error (unexpected fin .colonAfterClass p.2)

/-- Reads the header of a class behind its keyword: its name and its base classes. -/
def classHead (fin : Span) (ts : List Token) : Except Fault ((String × List String) × List Token) :=
  match ts with
  | ⟨.word (.identifier name), _⟩ :: rest => (classBases fin rest).bind (headerEnd fin name)
  | ts => .error (unexpected fin .className ts)

theorem classDef_eq (fin : Span) (ds : List Decorator) (span : Span) (ts : List Token) :
    classDef fin ds span ts = (classHead fin ts).bind fun p => (classMembers fin p.2).map fun q =>
      (⟨p.1.1, p.1.2, ds, q.1.fields, q.1.methods, span⟩, q.2) := by
  cases ts with
  | nil => rfl
  | cons t ts =>
    obtain ⟨k, s⟩ := t
    cases k with
    | word w =>
      cases w with
      | identifier name =>
        have colon : ∀ p : List String × List Token, (match p.2 with
            | ⟨.word .colon, _⟩ :: rest => (classMembers fin rest).bind fun q =>
                .ok (⟨name, p.1, ds, q.1.fields, q.1.methods, span⟩, q.2)
            | _ => .error (unexpected fin .colonAfterClass p.2)) =
            (headerEnd fin name p).bind fun p => (classMembers fin p.2).map fun q =>
              ((⟨p.1.1, p.1.2, ds, q.1.fields, q.1.methods, span⟩ : ClassDef), q.2) := by
          intro p
          unfold headerEnd
          split <;> rfl
        cases ts with
        | nil => rfl
        | cons t ts =>
          obtain ⟨k, s⟩ := t
          cases k with
          | opening b =>
            cases b with
            | round =>
              show (baseClasses fin ts).bind _ = ((baseClasses fin ts).bind _).bind _
              cases baseClasses fin ts with
              | error => rfl
              | ok p => exact colon p
            | _ => rfl
          | word w => exact colon ([], ⟨.word w, s⟩ :: ts)
          | _ => rfl
      | _ => rfl
    | _ => rfl

section Head

variable {m n : Nat} {R : TokenRel Word} (hR : Lockstep m n R)
  {fin fin' : Span} {ts ts' : List Token}

include hR

theorem classBases_lockstep (h : R ts ts') :
    Agree (Leaves Eq R) (classBases fin ts) (classBases fin' ts') := by
  cases hR.heads h with
  | nil => exact .ok ⟨rfl, h⟩
  | @cons k _ _ _ _ next =>
    cases k with
    | opening b =>
      cases b with
      | round => exact baseClasses_lockstep hR (next nofun)
      | _ => exact .ok ⟨rfl, h⟩
    | _ => exact .ok ⟨rfl, h⟩

theorem classHead_lockstep (h : R ts ts') :
    Agree (Leaves Eq R) (classHead fin ts) (classHead fin' ts') := by
  cases hR.heads h with
  | nil => exact .error trivial
  | @cons k s s' rest rest' next =>
    cases k with
    | word w =>
      cases w with
      | identifier name =>
        refine (classBases_lockstep hR (next nofun)).bind_leaves fun bases behind behind' hb => ?_
        cases hR.heads hb with
        | nil => exact .error trivial
        | @cons k _ _ _ _ colon =>
          cases k with
          | word w =>
            cases w with
            | colon => exact .ok ⟨rfl, colon nofun⟩
            | _ => exact .error trivial
          | _ => exact .error trivial
      | _ => exact .error trivial
    | _ => exact .error trivial

theorem isFunction_lockstep (h : R ts ts') : isFunction ts = isFunction ts' := by
  cases hR.heads h with
  | nil => rfl
  | @cons k _ _ _ _ next =>
    cases k with
    | word w =>
      cases w with
      | identifier name =>
        cases hR.heads (next nofun) with
        | nil => rfl
        | @cons k =>
          cases k with
          | word w => cases w <;> rfl
          | _ => rfl
      | _ => rfl
    | _ => rfl

end Head

theorem unplaced_classDef {ms ms' : Members} {head : String × List String}
    (hd : SameDecorators ds ds') (hm : ms.unplaced = ms'.unplaced) :
    ClassDef.unplaced ⟨head.1, head.2, ds, ms.fields, ms.methods, span⟩ =
      ClassDef.unplaced ⟨head.1, head.2, ds', ms'.fields, ms'.methods, span'⟩ := by
  obtain ⟨fields, methods⟩ := Members.mk.inj hm
  have decorators : ds.map Decorator.unplaced = ds'.map Decorator.unplaced := hd
  simp only [ClassDef.unplaced, decorators, fields, methods]

theorem classDef_lockstep {m n depth : Nat} {B : Nat → TokenRel Word}
    (hB : Frame m n B) {fin fin' : Span} {ts ts' : List Token} (hd : SameDecorators ds ds')
    (h : OnLine B m n depth ts ts') :
    Agree (Leaves (InvImage Eq ClassDef.unplaced) (Onward B depth)) (classDef fin ds span ts)
      (classDef fin' ds' span' ts') := by
  obtain ⟨R, hR, ends, hl⟩ := h
  rw [classDef_eq, classDef_eq]
  refine (classHead_lockstep hR hl).bind_leaves fun head rest rest' hr => ?_
  refine (classMembers_lockstep hB ⟨R, hR, ends, hr⟩).map ?_
  rintro ⟨ms, _⟩ ⟨ms', _⟩ ⟨same, hb⟩
  exact ⟨unplaced_classDef hd same, hb⟩

end ViewBridge.Classes
