import ViewBridge.Proofs.Classes.Faults
import ViewBridge.Proofs.Classes.Muted

namespace ViewBridge

open List

variable {ω : Type}

/-- One statement: a line, with the block below it if there is one. -/
inductive Statement : List (TokenKind ω) → Prop
  | line {line} : IsLine line → Statement (line ++ [.newline])
  | block {line inner} : IsLine line → Ends 1 inner → Statement (line ++ .newline :: .indent :: inner)

theorem Statement.exists_text {ks : List (TokenKind ω)} (h : Statement ks) :
    ∃ k rest, ks = k :: rest ∧ k.isText = true := by
  have first {line rest : List (TokenKind ω)} (isLine : IsLine line) :
      ∃ k ls, line ++ rest = k :: ls ∧ k.isText = true := by
    cases line with
    | nil => exact absurd rfl isLine.nonempty
    | cons k line => exact ⟨k, _, rfl, isLine.text k mem_cons_self⟩
  cases h with
  | line isLine => exact first isLine
  | block isLine => exact first isLine

/-- The lines of the same statement, behind which no block starts. -/
theorem Statement.onLine {v v' rest rest' : List (Token ω)} (h : Statement (v.map (·.kind)))
    (alike : Alike v v') (hr : startsBlock rest = false) (hr' : startsBlock rest' = false) :
    OnLine (Upto rest rest') rest.length rest'.length 0 (v ++ rest) (v' ++ rest') := by
  have alike' : v'.map (·.kind) = v.map (·.kind) := alike.symm
  generalize hk : v.map (·.kind) = ks at alike' h
  cases h with
  | line isLine =>
    obtain ⟨l, s, v, rfl, rfl, none⟩ := exists_kinds_append hk
    obtain rfl := map_eq_nil_iff.mp none
    obtain ⟨l', s', v', rfl, hl', none'⟩ := exists_kinds_append alike'
    obtain rfl := map_eq_nil_iff.mp none'
    have below : Upto rest rest' 0 rest rest' := ⟨[], [], rfl, rfl, rfl, .nil⟩
    rw [append_assoc, append_assoc]
    exact Behind.onLine (.line hr hr' below) hl'.symm isLine
  | block isLine ends =>
    obtain ⟨l, s, v, rfl, rfl, hi⟩ := exists_kinds_append hk
    obtain ⟨t, i, rfl, rfl⟩ := exists_kinds_cons hi
    obtain ⟨l', s', v', rfl, hl', hi'⟩ := exists_kinds_append alike'
    obtain ⟨t', i', rfl, inner⟩ := exists_kinds_cons hi'
    have below : Upto rest rest' 1 (i ++ rest) (i' ++ rest') :=
      ⟨i, i', rfl, rfl, inner.symm, ends⟩
    simp only [append_assoc, cons_append]
    exact Behind.onLine (.block below) hl'.symm isLine

end ViewBridge

namespace ViewBridge.Classes

open List

section Hushed

variable {ks : List Kind}

theorem hushed_of_isText {k : Kind} (h : k.isText = false) : hushed k = k := by
  cases k with
  | word => cases h
  | _ => rfl

theorem enclosed_hushed (h : Enclosed ks) : Enclosed (ks.map hushed) := by
  induction h with
  | nil => exact .nil
  | word w _ ih => exact .word w.hushed ih
  | group b _ _ ihi ih =>
    rw [map_cons, map_append, map_cons]
    exact .group b ihi ih

theorem nested_hushed (h : Nested ks) : Nested (ks.map hushed) := by
  induction h with
  | nil => exact .nil
  | word w _ ih => exact .word w.hushed ih
  | layout hk _ ih =>
    rw [map_cons, hushed_of_isText hk]
    exact .layout hk ih
  | group b hi _ ih =>
    rw [map_cons, map_append, map_cons]
    exact .group b (enclosed_hushed hi) ih

theorem isLine_hushed (h : IsLine ks) : IsLine (ks.map hushed) where
  nonempty := fun eq => h.nonempty (map_eq_nil_iff.mp eq)
  text := by
    intro k hk
    obtain ⟨j, hj, rfl⟩ := mem_map.mp hk
    rw [isText_hushed]
    exact h.text j hj
  nested := nested_hushed h.nested

theorem ends_hushed {n : Nat} (h : Ends n ks) : Ends n (ks.map hushed) := by
  induction h with
  | nil => exact .nil
  | dedent _ ih => exact .dedent ih
  | line isLine _ ih =>
    rw [map_append]
    exact .line (isLine_hushed isLine) ih
  | block isLine _ ih =>
    rw [map_append]
    exact .block (isLine_hushed isLine) ih

theorem statement_hushed (h : Statement ks) : Statement (ks.map hushed) := by
  cases h with
  | line isLine =>
    rw [map_append]
    exact .line (isLine_hushed isLine)
  | block isLine ends =>
    rw [map_append]
    exact .block (isLine_hushed isLine) (ends_hushed ends)

theorem exists_word_of_hushed {k : Kind} {w : Word} (h : hushed k = .word w) :
    ∃ w', k = .word w' := by
  cases k with
  | word w' => exact ⟨w', rfl⟩
  | _ => cases h

theorem enclosed_of_hushed (h : Enclosed (ks.map hushed)) : Enclosed ks := by
  generalize eq : ks.map hushed = ls at h
  induction h generalizing ks with
  | nil =>
    obtain rfl := map_eq_nil_iff.mp eq
    exact .nil
  | word w _ ih =>
    obtain ⟨k, ks, rfl, hk, others⟩ := map_eq_cons_iff.mp eq
    obtain ⟨w', rfl⟩ := exists_word_of_hushed hk
    exact .word w' (ih others)
  | group b _ _ ihi ih =>
    obtain ⟨k, us, rfl, hk, inside⟩ := map_eq_cons_iff.mp eq
    obtain rfl := eq_of_hushed hk (by simp)
    obtain ⟨inner, rest, rfl, hi, closed⟩ := map_eq_append_iff.mp inside
    obtain ⟨j, ks, rfl, hj, others⟩ := map_eq_cons_iff.mp closed
    obtain rfl := eq_of_hushed hj (by simp)
    exact .group b (ihi hi) (ih others)

theorem matched_of_hushed (h : Matched (ks.map hushed)) : Matched ks := by
  rintro before b after rfl
  obtain ⟨inner, rest, eq, enclosed⟩ := h (before.map hushed) b (after.map hushed) (by
    rw [map_append]
    rfl)
  obtain ⟨i, more, rfl, rfl, closed⟩ := map_eq_append_iff.mp eq
  obtain ⟨k, more, rfl, hk, _⟩ := map_eq_cons_iff.mp closed
  obtain rfl := eq_of_hushed hk (by simp)
  exact ⟨i, more, rfl, enclosed_of_hushed enclosed⟩

theorem startsField_statement (h : Statement ks) (more : List Kind) :
    startsField (ks ++ more) = startsField ks := by
  obtain ⟨k, j, ls, rfl⟩ : ∃ k j ls, ks = k :: j :: ls := by
    have two {line rest : List Kind} (isLine : IsLine line) :
        ∃ k j ls, line ++ .newline :: rest = k :: j :: ls := by
      cases line with
      | nil => exact absurd rfl isLine.nonempty
      | cons k line =>
        cases line with
        | nil => exact ⟨k, .newline, rest, rfl⟩
        | cons j line => exact ⟨k, j, _, rfl⟩
    cases h with
    | line isLine => exact two isLine
    | block isLine => exact two isLine
  cases k with
  | word w =>
    cases w with
    | identifier name =>
      cases j with
      | word w => cases w <;> rfl
      | _ => rfl
    | _ => rfl
  | _ => rfl

theorem map_kind_mute (ts : List Token) : (mute ts).map (·.kind) = (ts.map (·.kind)).map hushed := by
  rw [mute, map_map, map_map]
  rfl

end Hushed

/-- Kinds of tokens that are the same up to what strings say. -/
abbrev SameKinds (ts : List Token) (ks : List Kind) : Prop :=
  (ts.map (·.kind)).map hushed = ks.map hushed

section SameKinds

variable {ts : List Token} {k : Kind} {ks ls : List Kind}

theorem SameKinds.exists_append (h : SameKinds ts (ks ++ ls)) :
    ∃ us vs, ts = us ++ vs ∧ SameKinds us ks ∧ SameKinds vs ls := by
  rw [SameKinds, map_append] at h
  obtain ⟨first, second, eq, hfirst, hsecond⟩ := map_eq_append_iff.mp h
  obtain ⟨us, vs, rfl, rfl, rfl⟩ := map_eq_append_iff.mp eq
  exact ⟨us, vs, rfl, hfirst, hsecond⟩

theorem SameKinds.exists_cons (h : SameKinds ts (k :: ks))
    (hk : ∀ text, k ≠ .word (.string text)) : ∃ s us, ts = ⟨k, s⟩ :: us ∧ SameKinds us ks := by
  cases ts with
  | nil => cases h
  | cons t us =>
    obtain ⟨j, s⟩ := t
    obtain ⟨first, others⟩ := List.cons.inj h
    obtain rfl := eq_of_hushed (first.trans (hushed_eq_self hk)) hk
    exact ⟨s, us, rfl, others⟩

theorem SameKinds.eq_nil (h : SameKinds ts []) : ts = [] :=
  map_eq_nil_iff.mp (map_eq_nil_iff.mp h)

theorem SameKinds.text (h : SameKinds ts ks) (text : ∀ k ∈ ks, k.isText = true) :
    ∀ t ∈ ts, t.kind.isText = true := by
  intro t ht
  have mem : hushed t.kind ∈ ks.map hushed := h ▸ mem_map_of_mem (mem_map_of_mem ht)
  obtain ⟨k, hk, eq⟩ := mem_map.mp mem
  rw [← isText_hushed, ← eq, isText_hushed]
  exact text k hk

theorem SameKinds.matched (h : SameKinds ts ks) (nested : Nested ks) :
    Matched (ts.map (·.kind)) := by
  apply matched_of_hushed
  rw [h]
  exact (nested_hushed nested).matched

end SameKinds

theorem sameDecorators_of_label {ds ds' : List Decorator}
    (h : ds.map Decorator.label = ds'.map Decorator.label) : SameDecorators ds ds' := by
  have same := congrArg (List.map fun l => (⟨l.1, l.2, .origin⟩ : Decorator)) h
  rw [map_map, map_map] at same
  exact same

theorem label_of_sameDecorators {ds ds' : List Decorator} (h : SameDecorators ds ds') :
    ds.map Decorator.label = ds'.map Decorator.label := by
  have same := congrArg (List.map Decorator.label) h
  rw [map_map, map_map] at same
  exact same

theorem interface_shown (line : MemberLine) :
    (line.shown false).members.interface = line.members.interface := by
  simp only [Members.interface, MemberLine.shown, map_map, Function.comp_def,
    Method.signature_shown]
  rfl

section Member

variable {fin fin' : Span} {ds ds' : List Decorator} {v v' rest rest' : List Token}
  {line : MemberLine}

/-- A statement of a class body other than a field shows the same wherever it stands and whatever
strings say. -/
theorem exists_member (h : Statement (v.map (·.kind))) (hf : startsField (v.map (·.kind)) = false)
    (hm : member fin ds (v ++ rest) = .ok (line, rest)) (hr : startsBlock rest = false)
    (hk : SameKinds v' (v.map (·.kind))) (hd : ds.map Decorator.label = ds'.map Decorator.label)
    (hr' : startsBlock rest' = false) :
    ∃ line', member fin' ds' (v' ++ rest') = .ok (line', rest') ∧
      line'.members.interface = line.members.interface ∧
      line'.pending.map Decorator.label = line.pending.map Decorator.label := by
  have starts : startsField ((v ++ rest).map (·.kind)) = false := by
    rw [map_append, startsField_statement h, hf]
  have alike : Alike (mute v) (mute v') := by
    rw [Alike, map_kind_mute, map_kind_mute]
    exact hk.symm
  have statement : Statement ((mute v).map (·.kind)) := by
    rw [map_kind_mute]
    exact statement_hushed h
  obtain ⟨R, hR, ends, hl⟩ := statement.onLine alike
    ((startsBlock_mute rest).trans hr) ((startsBlock_mute rest').trans hr')
  rw [← mute_append, ← mute_append] at hl
  have both : Agree _ (member fin ds (v ++ rest)) (member fin' ds' (v' ++ rest')) :=
    member_steps (steps_quiet hR) (lineEnds_quiet ends) (block_quiet (frame_upto _ _))
      (fun _ => starts) (sameDecorators_of_label hd) hl
  obtain ⟨⟨line', left⟩, read, shown, onward⟩ := both.exists_ok hm
  have eq : mute left = mute rest' := by
    rcases onward with h | ⟨_, _, h⟩ | _
    · exact h.eq_of_zero.2
    · exact h.eq_of_zero.2
    · cases hr
  have length : left.length = rest'.length := by
    rw [← length_mute left, ← length_mute rest', eq]
  have suffix : left <:+ v' ++ rest' := (member_sound ds' (v' ++ rest')).of_ok read
  obtain rfl : left = rest' :=
    (suffix_of_suffix_length_le suffix (suffix_append v' rest') (by omega)).eq_of_length
      length
  obtain ⟨members, pending⟩ := MemberLine.mk.inj shown
  refine ⟨line', read, ?_, (label_of_sameDecorators pending).symm⟩
  rw [← interface_shown line', ← interface_shown line]
  exact (congrArg Members.interface members).symm

end Member

/-- Lines of a class body that are read, where certain decorators wait, as members that show this
much, and leave other decorators waiting, whatever the strings in them say. -/
structure Reads (before : List (String × Bool)) (ks : List Kind) (shown : Interface)
    (after : List (String × Bool)) : Prop where
  start : ks.head? ≠ some .indent
  read (fin : Span) {ts rest : List Token} {ds : List Decorator} : SameKinds ts ks →
    ds.map Decorator.label = before → startsBlock rest = false →
    ∃ (ms : Members) (ds' : List Decorator), ms.interface = shown ∧
      ds'.map Decorator.label = after ∧
      ∀ result, classBody fin ds' rest = .ok result →
        classBody fin ds (ts ++ rest) = .ok (ms.append result.1, result.2)

section Reads

variable {before mid after : List (String × Bool)} {ks ls : List Kind}
  {shown more : Interface}

theorem reads_nil (before : List (String × Bool)) : Reads before [] {} before where
  start := nofun
  read fin {ts rest ds} hk hd hr := by
    obtain rfl := SameKinds.eq_nil hk
    exact ⟨{}, ds, rfl, hd, fun result h => h⟩

theorem startsBlock_append {ts rest : List Token} (hk : SameKinds ts ks)
    (start : ks.head? ≠ some .indent) (hr : startsBlock rest = false) :
    startsBlock (ts ++ rest) = false := by
  cases ts with
  | nil => exact hr
  | cons t ts =>
    cases ks with
    | nil => cases hk
    | cons k ks =>
      obtain ⟨kind, s⟩ := t
      cases kind with
      | indent =>
        have first : TokenKind.indent = hushed k := (List.cons.inj hk).1
        cases k with
        | indent => exact absurd rfl start
        | _ => cases first
      | _ => rfl

theorem Reads.append (h : Reads before ks shown mid) (hl : Reads mid ls more after) :
    Reads before (ks ++ ls) (shown.append more) after where
  start := by
    cases ks with
    | nil => exact hl.start
    | cons k ks => exact h.start
  read fin {ts rest ds} hk hd hr := by
    obtain ⟨us, vs, rfl, hfirst, hsecond⟩ := hk.exists_append
    obtain ⟨ms, ds₁, hms, hd₁, run⟩ := h.read fin hfirst hd
      (startsBlock_append hsecond hl.start hr)
    obtain ⟨ns, ds₂, hns, hd₂, run'⟩ := hl.read fin hsecond hd₁ hr
    refine ⟨ms.append ns, ds₂, ?_, hd₂, fun result done => ?_⟩
    · rw [Members.interface_append, hms, hns]
    · rw [append_assoc, run _ (run' result done)]
      simp only [Members.append, append_assoc]

theorem Reads.of_member (starts : ∃ k rest, ks = k :: rest ∧ k.isText = true)
    (h : ∀ (fin : Span) {ts rest : List Token} {ds : List Decorator}, SameKinds ts ks →
      ds.map Decorator.label = before → startsBlock rest = false →
      ∃ line, member fin ds (ts ++ rest) = .ok (line, rest) ∧ line.members.interface = shown ∧
        line.pending.map Decorator.label = after) :
    Reads before ks shown after := by
  obtain ⟨k, more, rfl, text⟩ := starts
  refine ⟨?_, ?_⟩
  · rintro ⟨⟩
    cases text
  · intro fin ts rest ds hk hd hr
    obtain ⟨line, hm, hs, hp⟩ := h fin hk hd hr
    refine ⟨line.members, line.pending, hs, hp, fun result done => ?_⟩
    cases ts with
    | nil => cases hk
    | cons t ts =>
      obtain ⟨kind, s⟩ := t
      have first : hushed kind = hushed k := (List.cons.inj hk).1
      have text : kind.isText = true := by rw [← isText_hushed, first, isText_hushed, text]
      have shorter : rest.length < (⟨kind, s⟩ :: ts ++ rest : List Token).length := by
        rw [length_append, length_cons]
        omega
      rw [cons_append, classBody_member (by rintro rfl; cases text) (by rintro rfl; cases text)]
      rw [cons_append] at hm shorter
      rw [hm, Except.bind, if_pos shorter, done]
      rfl

/-- A statement that is read once is read everywhere. -/
theorem Reads.of_statement {fin : Span} {ds : List Decorator} {v rest : List Token}
    {line : MemberLine} (h : Statement (v.map (·.kind)))
    (hf : startsField (v.map (·.kind)) = false)
    (hm : member fin ds (v ++ rest) = .ok (line, rest)) (hr : startsBlock rest = false) :
    Reads (ds.map Decorator.label) (v.map (·.kind)) line.members.interface
      (line.pending.map Decorator.label) :=
  .of_member h.exists_text fun _ _ _ _ hk hd hr' => exists_member h hf hm hr hk hd.symm hr'

end Reads

section Field

variable {fin : Span} {ds : List Decorator} {name : String} {l rest : List Token} {s s₁ s₂ : Span}

theorem atLineEnd_defaultValue (ts : List Token) : atLineEnd (defaultValue fin ts).2 = true := by
  unfold defaultValue
  split
  · split
    next ended => exact ended
    next => exact atLineEnd_lineEnd ts
  · exact atLineEnd_lineEnd ts

theorem exists_newline {next ts ts' : List Token} (h : LineTo rest next ts ts')
    (ended : atLineEnd ts = true) : ∃ s, ts = ⟨.newline, s⟩ :: rest := by
  obtain ⟨l, _, s, _, rfl, _, _, text, _⟩ := h
  cases l with
  | nil => exact ⟨s, rfl⟩
  | cons t l =>
    obtain ⟨k, u⟩ := t
    have first := text _ mem_cons_self
    cases k with
    | newline => cases first
    | _ => cases ended

theorem exists_defaultValue (text : ∀ t ∈ l, t.kind.isText = true)
    (matched : Matched (l.map (·.kind))) :
    ∃ default s', defaultValue fin (l ++ ⟨.newline, s⟩ :: rest) = (default, ⟨.newline, s'⟩ :: rest) := by
  have line : LineTo rest rest (l ++ ⟨.newline, s⟩ :: rest) (l ++ ⟨.newline, s⟩ :: rest) :=
    ⟨l, l, s, s, rfl, rfl, rfl, text, matched⟩
  have lockstep : Lockstep 0 0 (LineTo rest rest) := lockstep_lineTo rfl
  have left : LineTo rest rest (defaultValue fin _).2 (defaultValue fin _).2 :=
    (defaultValue_lockstep lockstep line).2
  obtain ⟨s', eq⟩ := exists_newline left (atLineEnd_defaultValue _)
  exact ⟨_, s', Prod.ext rfl eq⟩

theorem exists_fieldEnd (fin : Span) (hint : Option TypeHint) (span s : Span) (ts rest : List Token)
    (default : Option Literal) (reserved : isReservedName name = false) :
    ∃ f : Field, f.name = name ∧ fieldEnd fin name hint span ts (default, ⟨.newline, s⟩ :: rest) =
      .ok (some f, rest) := by
  refine ⟨⟨name, hint, default, span, extentFrom span ts (⟨.newline, s⟩ :: rest)⟩, rfl, ?_⟩
  simp [fieldEnd, atLineEnd, endOfLine, reserved, Except.map]

theorem member_eq_field {ts : List Token}
    (h : startsField (.word (.identifier name) :: ts.map (·.kind)) = true) :
    member fin ds (⟨.word (.identifier name), s⟩ :: ts) =
      (field fin name s (⟨.word (.identifier name), s⟩ :: ts)).bind
        fun p => .ok (⟨⟨p.1.toList, []⟩, []⟩, p.2) := by
  cases ts with
  | nil => rfl
  | cons t ts =>
    obtain ⟨k, u⟩ := t
    cases k with
    | word w =>
      cases w with
      | defKeyword => cases h
      | _ => rfl
    | _ => rfl

variable {before : List (String × Bool)}

theorem reads_field (reserved : isReservedName name = false) {ks : List Kind}
    (h : ∀ (fin : Span) {ts : List Token} (rest : List Token), SameKinds ts ks →
      ∃ hint behind default s,
        startsField (.word (.identifier name) :: (ts ++ rest).map (·.kind)) = true ∧
        typeBehind fin isColon (ts ++ rest) = .ok (hint, behind) ∧
        fieldDefault fin behind = (default, ⟨.newline, s⟩ :: rest)) :
    Reads before (.word (.identifier name) :: ks) ⟨[name], []⟩ [] := by
  refine .of_member ⟨_, _, rfl, rfl⟩ fun fin ts rest ds hk _ _ => ?_
  obtain ⟨s₁, us, rfl, hu⟩ := hk.exists_cons (by simp)
  obtain ⟨hint, behind, default, s, other, ht, hd⟩ := h fin rest hu
  obtain ⟨f, rfl, hf⟩ := exists_fieldEnd fin hint s₁ s
    (⟨.word (.identifier name), s₁⟩ :: (us ++ rest)) rest default reserved
  refine ⟨⟨⟨[f], []⟩, []⟩, ?_, rfl, rfl⟩
  rw [cons_append, member_eq_field other, field_eq, ht, Except.bind, hd, hf]
  rfl

theorem reads_name (reserved : isReservedName name = false) :
    Reads before [.word (.identifier name), .newline] ⟨[name], []⟩ [] := by
  refine reads_field reserved fun fin ts rest hk => ?_
  obtain ⟨s, us, rfl, none⟩ := hk.exists_cons (by simp)
  obtain rfl := none.eq_nil
  exact ⟨.none, _, .none, s, rfl, rfl, rfl⟩

/-- A name with an equals sign and anything else behind it. -/
theorem reads_equals (reserved : isReservedName name = false) {ks : List Kind}
    (text : ∀ k ∈ ks, k.isText = true) (nested : Nested ks) :
    Reads before (.word (.identifier name) :: .word .equals :: (ks ++ [.newline])) ⟨[name], []⟩
      [] := by
  refine reads_field reserved fun fin ts rest hk => ?_
  obtain ⟨s₂, us, rfl, hu⟩ := hk.exists_cons (by simp)
  obtain ⟨l, vs, rfl, hl, ends⟩ := hu.exists_append
  obtain ⟨s, _, rfl, none⟩ := ends.exists_cons (by simp)
  obtain rfl := none.eq_nil
  obtain ⟨default, s', value⟩ : ∃ default s', defaultValue fin (l ++ ⟨.newline, s⟩ :: rest) =
      (default, ⟨.newline, s'⟩ :: rest) := exists_defaultValue (hl.text text) (hl.matched nested)
  rw [cons_append, append_assoc]
  exact ⟨.none, _, default, s', rfl, rfl, value⟩

/-- Tokens behind the name of a type that do not go on with it. -/
inductive EndsType : Kind → Prop
  | newline : EndsType .newline
  | comma : EndsType (.word .comma)
  | operator (op : String) : EndsType (.word (.operator op))

/-- A type that is a single name, in front of a token that does not go on with it. -/
theorem exists_typeBehind_name {k : Kind} (hk : EndsType k) (fin s₁ s₂ s₃ : Span)
    (type : String) (rest : List Token) :
    ∃ hint, typeBehind fin isColon (⟨.word .colon, s₁⟩ :: ⟨.word (.identifier type), s₂⟩ ::
      ⟨k, s₃⟩ :: rest) = .ok (hint, ⟨k, s₃⟩ :: rest) := by
  simp only [typeBehind, isColon, hint]
  rw [typeExpression, typeMember]
  by_cases none : type = "None"
  · rw [if_pos none]
    cases hk <;> exact ⟨_, rfl⟩
  · rw [if_neg none]
    cases hk <;> exact ⟨_, rfl⟩

theorem reads_hint (reserved : isReservedName name = false) (type : String) :
    Reads before [.word (.identifier name), .word .colon, .word (.identifier type), .newline]
      ⟨[name], []⟩ [] := by
  refine reads_field reserved fun fin ts rest hk => ?_
  obtain ⟨s₂, us, rfl, hu⟩ := hk.exists_cons (by simp)
  obtain ⟨s₃, vs, rfl, hv⟩ := hu.exists_cons (by simp)
  obtain ⟨s, _, rfl, none⟩ := hv.exists_cons (by simp)
  obtain rfl := none.eq_nil
  obtain ⟨hint, ht⟩ := exists_typeBehind_name .newline fin s₂ s₃ s type rest
  exact ⟨hint, _, .none, s, rfl, ht, rfl⟩

theorem reads_pass : Reads before [.word .passKeyword, .newline] {} before := by
  refine .of_member ⟨_, _, rfl, rfl⟩ fun fin ts rest ds hk hd hr => ?_
  obtain ⟨s₁, us, rfl, hu⟩ := hk.exists_cons (by simp)
  obtain ⟨s, _, rfl, none⟩ := hu.exists_cons (by simp)
  obtain rfl := none.eq_nil
  exact ⟨{ pending := ds }, rfl, rfl, hd⟩

end Field

end ViewBridge.Classes
