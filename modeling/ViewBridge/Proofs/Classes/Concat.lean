import ViewBridge.Proofs.Classes.Faults
import ViewBridge.Proofs.Locality

namespace ViewBridge

variable {ω : Type}

theorem behindGroup_succ (outer inner : Nat) (ts : List (Token ω)) :
    behindGroup (outer + inner + 1) ts = behindGroup outer (behindGroup inner ts) := by
  induction ts generalizing inner with
  | nil => rfl
  | cons t ts ih =>
    obtain ⟨k, s⟩ := t
    cases k with
    | opening => exact ih (inner + 1)
    | closing =>
      cases inner with
      | zero => rfl
      | succ inner => exact ih inner
    | _ => exact ih inner

end ViewBridge

namespace ViewBridge.Classes

open List

variable {fin fin' t t' : Span} {ts ts' rest rest' l l' next next' : List Token}
  {ds ds' waiting : List Decorator} {others : List ClassDef} {source : String} {k : Kind}

section Groups

theorem Passes.behindGroup (h : Passes ts rest) (depth : Nat) :
    behindGroup depth ts = behindGroup depth rest := by
  obtain ⟨v, rfl, closed, _⟩ := h
  exact closed.behindGroup rfl rest depth

theorem behindGroup_skipArgument {depth : Nat} {t : Token} (h : skipArgument depth ts = t :: rest)
    (ht : t.kind ≠ .newline) : behindGroup depth ts = behindGroup 0 (t :: rest) := by
  induction ts generalizing depth with
  | nil => cases h
  | cons u ts ih =>
    obtain ⟨k, s⟩ := u
    cases k with
    | newline =>
      cases h
      exact absurd rfl ht
    | opening => exact ih h
    | closing =>
      cases depth with
      | zero =>
        cases h
        rfl
      | succ depth => exact ih h
    | word w =>
      cases w with
      | comma =>
        cases depth with
        | zero =>
          cases h
          rfl
        | succ depth => exact ih h
      | _ => exact ih h
    | _ => exact ih h

theorem behindGroup_baseClass {base : Option String} (h : baseClass fin ts = .ok (base, rest))
    (hk : ∃ t behind, rest = t :: behind ∧ t.kind ≠ .newline) :
    behindGroup 0 ts = behindGroup 0 rest := by
  unfold baseClass at h
  split at h
  · cases h
    obtain ⟨t, behind, eq, ht⟩ := hk
    rw [eq]
    exact behindGroup_skipArgument eq ht
  · obtain ⟨⟨name, behind⟩, hr, eq⟩ := exists_of_bind h
    rw [(dottedName_passes hr).behindGroup]
    dsimp only at eq
    split at eq
    · cases eq
      exact behindGroup_succ 0 0 _
    · cases eq
      rfl

theorem behindGroup_typeBehind {mark : Word → Bool} {type : Option TypeHint}
    (h : typeBehind fin mark ts = .ok (type, rest)) : behindGroup 0 ts = behindGroup 0 rest := by
  rcases typeBehind_passes h with rfl | ⟨w, s, us, rfl, _, passes⟩
  · rfl
  · exact passes.behindGroup 0

theorem behindGroup_paramEntry {param : Option Param} (h : paramEntry fin ts = .ok (param, rest))
    (hk : ∃ t behind, rest = t :: behind ∧ t.kind ≠ .newline) :
    behindGroup 0 ts = behindGroup 0 rest := by
  rw [paramEntry.eq_def] at h
  split at h
  case h_1 | h_2 =>
    split at h
    · obtain ⟨⟨_, behind⟩, ht, eq⟩ := exists_of_bind h
      cases eq
      have type := behindGroup_typeBehind ht
      exact type
    · cases h
      rfl
  case h_3 =>
    split at h
    · cases h
      rfl
    · cases h
  case h_4 =>
    obtain ⟨⟨type, behind⟩, ht, h⟩ := exists_of_bind h
    refine (behindGroup_typeBehind ht).trans ?_
    dsimp only at h
    split at h
    · cases h
      obtain ⟨t, behind, eq, ht⟩ := hk
      rw [eq]
      exact behindGroup_skipArgument eq ht
    · cases h
      rfl
  case h_5 => cases h

/-- Entries are read up to the bracket that closes their group. -/
theorem Entries.eq_behindGroup {α : Type} {expected : Expected} {entry read} {as : List α}
    (hr : Entries expected fin entry read) (one : ∀ {ts first rest}, entry ts = .ok (first, rest) →
      (∃ t behind, rest = t :: behind ∧ t.kind ≠ .newline) → behindGroup 0 ts = behindGroup 0 rest)
    (h : read ts = .ok (as, rest)) : rest = behindGroup 0 ts := by
  induction hn : ts.length using Nat.strongRecOn generalizing ts as with
  | ind size ih =>
    by_cases closed : ∃ s behind, ts = ⟨.closing .round, s⟩ :: behind
    · obtain ⟨s, behind, rfl⟩ := closed
      rw [hr.close] at h
      cases h
      rfl
    · rw [hr.more fun s behind eq => closed ⟨s, behind, eq⟩] at h
      obtain ⟨⟨first, behind⟩, hf, more⟩ := exists_of_bind h
      obtain ⟨⟨goesOn, next⟩, he, others⟩ := exists_of_bind more
      dsimp only at he others
      unfold entryEnd at he
      split at he
      · rename_i s next
        cases he
        have entry := one hf ⟨_, _, rfl, nofun⟩
        rw [if_pos rfl] at others
        split at others
        next shorter =>
          obtain ⟨⟨names, _⟩, ho, eq⟩ := exists_of_map others
          cases eq
          rw [ih _ (Nat.lt_of_lt_of_eq shorter hn) ho rfl, entry]
          rfl
        next => cases others
      · cases he
        cases others
        exact (one hf ⟨_, _, rfl, nofun⟩).symm
      · cases he

end Groups

/-- What follows the first colon outside brackets, `depth` of which are open. -/
def behindColon (depth : Nat) : List Kind → List Kind
  | [] => []
  | .opening _ :: ks => behindColon (depth + 1) ks
  | .closing _ :: ks => behindColon (depth - 1) ks
  | .word .colon :: ks => if depth = 0 then ks else behindColon depth ks
  | _ :: ks => behindColon depth ks

def isClassLine : List Kind → Bool
  | .word .classKeyword :: _ => true
  | _ => false

def isDecoratorLine : List Kind → Bool
  | .word .at :: _ => true
  | _ => false

section Header

theorem behindColon_enclosed {inner : List Kind} (h : Enclosed inner) (depth : Nat)
    (ks : List Kind) :
    behindColon (depth + 1) (inner ++ ks) = behindColon (depth + 1) ks := by
  induction h generalizing depth ks with
  | nil => rfl
  | word w _ ih =>
    cases w with
    | colon =>
      rw [cons_append, behindColon, if_neg (Nat.succ_ne_zero _), ih]
    | _ => exact ih depth ks
  | group b _ _ ihi ih =>
    rw [cons_append, append_assoc, behindColon, ihi, cons_append, behindColon]
    exact ih depth ks

/-- A header with nothing behind its colon is read up to the end of its line. -/
theorem classHead_line {s : Span} {p : String × List String} (matched : Matched (l.map (·.kind)))
    (alone : behindColon 0 (l.map (·.kind)) = [])
    (h : classHead fin (l ++ ⟨.newline, s⟩ :: next) = .ok (p, rest)) :
    rest = ⟨.newline, s⟩ :: next := by
  -- what is read up to the colon stands on the line
  have colon : ∀ {name : String} {bases : List String} {l : List Token},
      behindColon 0 (l.map (·.kind)) = [] →
      headerEnd fin name (bases, l ++ ⟨.newline, s⟩ :: next) = .ok (p, rest) →
      rest = ⟨.newline, s⟩ :: next := by
    intro name bases l alone h
    unfold headerEnd at h
    split at h
    next eq =>
      cases h
      cases l with
      | nil => cases eq
      | cons t l =>
        rw [cons_append] at eq
        obtain ⟨rfl, rfl⟩ := List.cons.inj eq
        have none : l.map (·.kind) = [] := alone
        obtain rfl := map_eq_nil_iff.mp none
        rfl
    next => cases h
  cases l with
  | nil => cases h
  | cons t l =>
    obtain ⟨k, u⟩ := t
    cases k with
    | word w =>
      cases w with
      | identifier name =>
        obtain ⟨⟨bases, behind⟩, hb, he⟩ := exists_of_bind h
        have alone : behindColon 0 (l.map (·.kind)) = [] := alone
        cases l with
        | nil =>
          cases hb
          exact colon alone he
        | cons t l =>
          obtain ⟨k, v⟩ := t
          cases k with
          | opening b =>
            cases b with
            | round =>
              obtain ⟨inner, outer, hk, enclosed⟩ := matched.tail [] .round _ rfl
              rw [map_cons, hk, behindColon, behindColon_enclosed enclosed] at alone
              obtain ⟨i, c, l, rfl, hi, rfl⟩ := exists_kinds_append hk
              have bracket : baseClasses fin ((i ++ ⟨.closing .round, c⟩ :: l) ++
                  ⟨.newline, s⟩ :: next) = .ok (bases, behind) := hb
              have read := (entries_baseClasses fin).eq_behindGroup behindGroup_baseClass bracket
              rw [append_assoc, enclosed.behindGroup hi] at read
              subst read
              exact colon alone he
            | _ =>
              cases hb
              exact colon alone he
          | _ =>
            cases hb
            exact colon alone he
      | _ => cases h
    | _ => cases h

end Header

section Run

variable {s s' : Span}

theorem classesFrom_nil : classesFrom fin ds [] = .ok [] := by rw [classesFrom]

theorem classesFrom_newline :
    classesFrom fin ds (⟨.newline, s⟩ :: ts) = classesFrom fin ds ts := by rw [classesFrom]

theorem classesFrom_decorator :
    classesFrom fin ds (⟨.word .at, s⟩ :: ts) = (decorator fin s ts).bind fun p =>
      if p.2.length ≤ ts.length then classesFrom fin (ds ++ [p.1]) p.2
      else .error (unexpected fin .classOrFunction p.2) := by
  rw [classesFrom]
  rfl

theorem classesFrom_class :
    classesFrom fin ds (⟨.word .classKeyword, s⟩ :: ts) = (classDef fin ds s ts).bind fun p =>
      if p.2.length ≤ ts.length then (classesFrom fin [] p.2).map (p.1 :: ·)
      else .error (unexpected fin .classOrFunction p.2) := by
  rw [classesFrom]
  rfl

/-- Whether a token starts a statement that is passed over. -/
def isPassed : Kind → Bool
  | .newline | .word .at | .word .classKeyword => false
  | _ => true

theorem classesFrom_passed (hk : isPassed k = true) : classesFrom fin ds (⟨k, s⟩ :: ts) =
      if isFunction (⟨k, s⟩ :: ts) || ds.isEmpty then
        classesFrom fin [] (skipStatement (⟨k, s⟩ :: ts))
      else .error (unexpected fin .classOrFunction (⟨k, s⟩ :: ts)) := by
  rw [classesFrom.eq_def]
  cases k with
  | newline => cases hk
  | word w =>
    cases w with
    | «at» | classKeyword => cases hk
    | _ => rfl
  | _ => rfl

/-- Classes are read the same wherever they stand. -/
theorem classesFrom_alike (h : Alike ts ts') (hd : SameDecorators ds ds') :
    Agree (InvImage Eq (List.map ClassDef.unplaced)) (classesFrom fin ds ts)
      (classesFrom fin' ds' ts') := by
  have ends := lineEnds_alike (ω := Word) 0
  have frame := frame_alike (ω := Word)
  have alike := steps_of_lockstep lockstep_alike
  induction hn : ts.length using Nat.strongRecOn generalizing ts ts' ds ds' with
  | ind size ih =>
    cases h.heads with
    | nil =>
      rw [classesFrom_nil, classesFrom_nil]
      exact .ok rfl
    | @cons k s s' rest rest' next =>
      rw [length_cons] at hn
      have passed : isPassed k = true → Agree (InvImage Eq (List.map ClassDef.unplaced))
          (classesFrom fin ds (⟨k, s⟩ :: rest)) (classesFrom fin' ds' (⟨k, s'⟩ :: rest')) := by
        intro hk
        have below := length_skipStatement_le ⟨k, s⟩ rest
        rw [classesFrom_passed hk, classesFrom_passed hk, isFunction_lockstep lockstep_alike h,
          hd.isEmpty]
        refine .guard Iff.rfl trivial fun _ => ?_
        exact ih _ (by omega) (skipStatement_steps alike ends (·.behindClosing _ _ 0) h) rfl rfl
      cases k with
      | newline =>
        rw [classesFrom_newline, classesFrom_newline]
        exact ih rest.length (by omega) (List.cons.inj h).2 hd rfl
      | word w =>
        have hr := next nofun
        have length := lockstep_alike.length hr
        cases w with
        | «at» =>
          rw [classesFrom_decorator, classesFrom_decorator]
          refine (decorator_steps alike ends hr).bind ?_
          rintro ⟨d, behind⟩ ⟨d', behind'⟩ _ ⟨same, hb⟩
          have length' := hb.length frame
          refine .guard (by dsimp only at *; omega) trivial fun shorter => ?_
          have below : behind.length < size := Nat.lt_of_le_of_lt shorter (by omega)
          exact ih behind.length below hb.alike (hd.concat same) rfl
        | classKeyword =>
          rw [classesFrom_class, classesFrom_class]
          refine (classDef_lockstep frame hd (hr.onLine 0)).bind ?_
          rintro ⟨c, behind⟩ ⟨c', behind'⟩ _ ⟨same, hb⟩
          have length' := hb.length frame
          refine .guard (by dsimp only at *; omega) trivial fun shorter => ?_
          have below : behind.length < size := Nat.lt_of_le_of_lt shorter (by omega)
          refine (ih behind.length below hb.alike rfl rfl).map ?_
          exact fun cs cs' others => cons_eq_cons.mpr ⟨same, others⟩
        | _ => exact passed rfl
      | _ => exact passed rfl

/-- Reading classes from some tokens gives certain ones first and then goes on with others, where
certain decorators wait. -/
def Continues (fin : Span) (ds : List Decorator) (ts : List Token) (classes : List ClassDef)
    (waiting : List Decorator) (rest : List Token) : Prop :=
  classesFrom fin ds ts = (classesFrom fin waiting rest).map (classes ++ ·)

theorem Continues.of_eq (h : classesFrom fin ds ts = classesFrom fin waiting rest) :
    Continues fin ds ts [] waiting rest := by
  rw [Continues, h]
  cases classesFrom fin waiting rest <;> rfl

theorem Continues.trans {mid : List Token} {classes : List ClassDef} {last : List Decorator}
    (h : Continues fin ds ts classes waiting mid) (h' : Continues fin waiting mid others last rest)
    : Continues fin ds ts (classes ++ others) last rest := by
  unfold Continues at h h' ⊢
  rw [h, h']
  cases classesFrom fin last rest with
  | error => rfl
  | ok more => simp [Except.map]

/-- Two runs that give so many classes, the same up to their places, and go on with the given
tokens. -/
def BothContinue (fin fin' : Span) (ds ds' : List Decorator) (ts ts' : List Token) (count : Nat)
    (waiting waiting' : List Decorator) (rest rest' : List Token) : Prop :=
  ∃ classes classes', Continues fin ds ts classes waiting rest ∧
    Continues fin' ds' ts' classes' waiting' rest' ∧ classes.length = count ∧
    classes.map ClassDef.unplaced = classes'.map ClassDef.unplaced ∧
    SameDecorators waiting waiting'

section Statement

variable {classes : List ClassDef}

theorem bothContinue_passed (hk : isPassed k = true)
    (h : OnLine (Upto rest rest') rest.length rest'.length 0 (⟨k, s⟩ :: ts) (⟨k, s'⟩ :: ts'))
    (hd : SameDecorators ds ds') (hc : classesFrom fin ds (⟨k, s⟩ :: ts) = .ok classes) :
    BothContinue fin fin' ds ds' (⟨k, s⟩ :: ts) (⟨k, s'⟩ :: ts') 0 [] [] rest rest' := by
  obtain ⟨R, hR, ends, hl⟩ := h
  obtain ⟨skip, skip'⟩ : skipStatement (⟨k, s⟩ :: ts) = rest ∧
      skipStatement (⟨k, s'⟩ :: ts') = rest' :=
    (skipStatement_steps (steps_of_lockstep hR) ends (frame_upto rest rest').block hl).eq_of_zero
  rw [classesFrom_passed hk] at hc
  split at hc
  next holds =>
    have holds' : (isFunction (⟨k, s'⟩ :: ts') || ds'.isEmpty) = true := by
      rwa [← isFunction_lockstep hR hl, ← hd.isEmpty]
    refine ⟨[], [], .of_eq ?_, .of_eq ?_, rfl, rfl, rfl⟩
    · rw [classesFrom_passed hk, if_pos holds, skip]
    · rw [classesFrom_passed hk, if_pos holds', skip']
  next => cases hc

theorem bothContinue_decorator
    (h : OnLine (Upto rest rest') rest.length rest'.length 0 (⟨.word .at, s⟩ :: ts)
      (⟨.word .at, s'⟩ :: ts'))
    (hd : SameDecorators ds ds') (hc : classesFrom fin ds (⟨.word .at, s⟩ :: ts) = .ok classes) :
    ∃ d d', BothContinue fin fin' ds ds' (⟨.word .at, s⟩ :: ts) (⟨.word .at, s'⟩ :: ts') 0
      (ds ++ [d]) (ds' ++ [d']) rest rest' := by
  obtain ⟨R, hR, ends, hl⟩ := h
  have frame := frame_upto rest rest'
  have hr := hR.tail hl nofun
  rw [classesFrom_decorator] at hc
  obtain ⟨⟨d, behind⟩, hdec, more⟩ := exists_of_bind hc
  have both : Agree _ (decorator fin s ts) (decorator fin' s' ts') := 
    decorator_steps (steps_of_lockstep hR) ends hr
  obtain ⟨⟨d', behind'⟩, hdec', same, hb⟩ := both.exists_ok hdec
  have length := hR.length hr
  have length' := hb.length frame
  dsimp only at more length'
  split at more
  next shorter =>
    cases hb with
    | block =>
      -- decorators wait at a block, and no function starts there
      rw [classesFrom_passed rfl] at more
      cases hs : ds ++ [d] with
      | nil => simp at hs
      | cons =>
        rw [hs] at more
        cases more
    | line _ _ hb =>
      obtain ⟨rfl, rfl⟩ := hb.eq_of_zero
      refine ⟨d, d', [], [], .of_eq ?_, .of_eq ?_, rfl, rfl, hd.concat same⟩
      · rw [classesFrom_decorator, hdec]
        exact if_pos shorter
      · rw [classesFrom_decorator, hdec']
        exact if_pos (by dsimp only; omega)
  next => cases more

theorem classDef_below {c : ClassDef} {behind : List Token} (alike : Alike l l')
    (isLine : IsLine (.word .classKeyword :: l.map (·.kind)))
    (alone : behindColon 0 (l.map (·.kind)) = []) (h : Behind (Upto rest rest') 0 next next')
    (hd : SameDecorators ds ds')
    (hc : classDef fin ds s (l ++ ⟨.newline, t⟩ :: next) = .ok (c, behind)) :
    behind = rest ∧ ∃ c', c.unplaced = c'.unplaced ∧
      classDef fin' ds' s' (l' ++ ⟨.newline, t'⟩ :: next') = .ok (c', rest') := by
  have frame := frame_upto rest rest'
  have matched : Matched (l.map (·.kind)) := isLine.nested.matched.tail
  have line : LineTo next next' (l ++ ⟨.newline, t⟩ :: next) (l' ++ ⟨.newline, t'⟩ :: next') :=
    ⟨l, l', t, t', rfl, rfl, alike,
      fun u hu => isLine.text _ (mem_cons_of_mem _ (mem_map_of_mem hu)), matched⟩
  rw [classDef_eq] at hc
  obtain ⟨⟨head, body⟩, hhead, hbody⟩ := exists_of_bind hc
  obtain rfl := classHead_line matched alone hhead
  have heads : Agree _ (classHead fin _) (classHead fin' _) :=
    classHead_lockstep (lockstep_lineTo (h.length frame)) line
  obtain ⟨⟨_, body'⟩, hhead', rfl, hb⟩ := heads.exists_ok hhead
  obtain ⟨u, rfl⟩ := LineTo.eq_newline hb
  obtain ⟨⟨ms, _⟩, hms, eq⟩ := exists_of_map hbody
  cases eq
  have bodies : Agree _ (classMembers fin (⟨.newline, t⟩ :: next))
    (classMembers fin' (⟨.newline, u⟩ :: next')) := classMembers_newline frame h
  obtain ⟨⟨ms', behind'⟩, hms', same, hb⟩ := bodies.exists_ok hms
  obtain ⟨rfl, rfl⟩ := hb.eq_of_zero
  refine ⟨rfl, ⟨head.1, head.2, ds', ms'.fields, ms'.methods, s'⟩, unplaced_classDef hd same, ?_⟩
  rw [classDef_eq, hhead', Except.bind, hms']
  rfl

theorem bothContinue_class (alike : Alike l l')
    (isLine : IsLine (.word .classKeyword :: l.map (·.kind)))
    (alone : behindColon 0 (l.map (·.kind)) = []) (h : Behind (Upto rest rest') 0 next next')
    (hd : SameDecorators ds ds')
    (hc : classesFrom fin ds (⟨.word .classKeyword, s⟩ :: (l ++ ⟨.newline, t⟩ :: next)) =
      .ok classes) :
    BothContinue fin fin' ds ds' (⟨.word .classKeyword, s⟩ :: (l ++ ⟨.newline, t⟩ :: next))
      (⟨.word .classKeyword, s'⟩ :: (l' ++ ⟨.newline, t'⟩ :: next')) 1 [] [] rest rest' := by
  rw [classesFrom_class] at hc
  obtain ⟨⟨c, behind⟩, hdef, more⟩ := exists_of_bind hc
  obtain ⟨rfl, c', same, hdef'⟩ : behind = rest ∧ ∃ c', c.unplaced = c'.unplaced ∧
      classDef fin' ds' s' (l' ++ ⟨.newline, t'⟩ :: next') = .ok (c', rest') :=
    classDef_below alike isLine alone h hd hdef
  have length := h.length (frame_upto behind rest')
  have lines := Alike.length alike
  dsimp only at more
  split at more
  next shorter =>
    refine ⟨[c], [c'], ?_, ?_, rfl, congrArg ([·]) same, rfl⟩
    · rw [Continues, classesFrom_class, hdef]
      exact if_pos shorter
    · rw [Continues, classesFrom_class, hdef']
      refine if_pos ?_
      simp only [length_append, length_cons] at shorter ⊢
      omega
  next => cases more

/-- A statement gives the same whatever comes behind it: a class if it declares one and else
nothing. Decorators wait behind it only if it is one. -/
theorem bothContinue_statement (alike : Alike l l') (isLine : IsLine (l.map (·.kind)))
    (alone : isClassLine (l.map (·.kind)) = true → behindColon 0 (l.map (·.kind)) = [])
    (h : Behind (Upto rest rest') 0 next next') (hd : SameDecorators ds ds')
    (hc : classesFrom fin ds (l ++ ⟨.newline, t⟩ :: next) = .ok classes) :
    ∃ waiting waiting', BothContinue fin fin' ds ds' (l ++ ⟨.newline, t⟩ :: next)
        (l' ++ ⟨.newline, t'⟩ :: next') (if isClassLine (l.map (·.kind)) then 1 else 0) waiting
        waiting' rest rest' ∧
      (isDecoratorLine (l.map (·.kind)) = false → waiting = []) := by
  have onLine := h.onLine (s := t) (t := t') alike isLine
  cases alike.heads with
  | nil => exact absurd rfl isLine.nonempty
  | @cons k s s' l l' =>
    have text := isLine.text k mem_cons_self
    cases k with
    | newline | indent | dedent | eof => cases text
    | opening b => exact ⟨[], [], bothContinue_passed rfl onLine hd hc, fun _ => rfl⟩
    | closing b => exact ⟨[], [], bothContinue_passed rfl onLine hd hc, fun _ => rfl⟩
    | word w =>
      cases w with
      | «at» =>
        obtain ⟨d, d', both⟩ := bothContinue_decorator onLine hd hc
        exact ⟨_, _, both, nofun⟩
      | classKeyword =>
        have behind : Alike l l' := (List.cons.inj alike).2
        exact ⟨[], [], bothContinue_class behind isLine (alone rfl) h hd hc, fun _ => rfl⟩
      | _ => exact ⟨[], [], bothContinue_passed rfl onLine hd hc, fun _ => rfl⟩

/-- So do all of them, one after the other. No decorator waits behind the last one unless that is
one. -/
theorem bothContinue_statements {tail tail' : List Token} {lines : List (List Kind)}
    (h : Statementwise tail tail' lines ts ts')
    (alone : ∀ line ∈ lines, isClassLine line = true → behindColon 0 line = [])
    (last : ∀ line ∈ lines.getLast?, isDecoratorLine line = false) (none : lines = [] → ds = [])
    (hd : SameDecorators ds ds') (hc : classesFrom fin ds ts = .ok classes) :
    BothContinue fin fin' ds ds' ts ts' (lines.countP isClassLine) [] [] tail tail' := by
  induction h generalizing ds ds' classes with
  | nil =>
    obtain rfl := none rfl
    obtain rfl : ds' = [] := map_eq_nil_iff.mp hd.symm
    exact ⟨[], [], .of_eq rfl, .of_eq rfl, rfl, rfl, rfl⟩
  | @cons l l' s s' next next' mid mid' lines alike isLine behind _ ih =>
    obtain ⟨first, rest⟩ := forall_mem_cons.mp alone
    obtain ⟨waiting, waiting', both, settled⟩ : ∃ waiting waiting',
        BothContinue fin fin' ds ds' (l ++ ⟨.newline, s⟩ :: next) (l' ++ ⟨.newline, s'⟩ :: next') _
          waiting waiting' mid mid' ∧ (_ → waiting = []) :=
      bothContinue_statement alike isLine first behind hd hc
    obtain ⟨cs, cs', run, run', count, same, hw⟩ := both
    obtain ⟨others, ho, _⟩ := exists_of_map (run.symm.trans hc)
    have last' : ∀ line ∈ lines.getLast?, isDecoratorLine line = false := by
      cases lines with
      | nil => exact nofun
      | cons => rwa [getLast?_cons_cons] at last
    have none' : lines = [] → waiting = [] := by
      rintro rfl
      exact settled (last _ rfl)
    obtain ⟨more, more', runs, runs', counts, sames, _⟩ := ih rest last' none' hw ho
    refine ⟨cs ++ more, cs' ++ more', run.trans runs, run'.trans runs', ?_, ?_, rfl⟩
    · rw [length_append, count, counts, countP_cons, Nat.add_comm]
    · rw [map_append, map_append, same, sames]

end Statement

theorem classesFrom_append (fin : Span) {fa : Span} {va va' vb' : List Token} {cs : List ClassDef}
    (statements : Statements (va.map (·.kind))) (alike : Alike va va')
    (start : startsBlock vb' = false)
    (below : ∀ line ∈ outerLines (va.map (·.kind) ++ [.eof]), isClassLine line = true →
      behindColon 0 line = [])
    (settled : ∀ line ∈ (outerLines (va.map (·.kind) ++ [.eof])).getLast?,
      isDecoratorLine line = false) (ha : classesFrom fa [] va = .ok cs)
    (hb : classesFrom fin [] vb' = .ok others) :
    cs.length = (outerLines (va.map (·.kind) ++ [.eof])).countP isClassLine ∧
      ∃ cs', classesFrom fin [] (va' ++ vb') = .ok (cs' ++ others) ∧
        cs.map ClassDef.unplaced = cs'.map ClassDef.unplaced := by
  have lines : Statementwise [] vb' _ (va ++ []) (va' ++ vb') :=
    statementwise statements alike rfl start
  rw [append_nil] at lines
  have both : BothContinue fa fin [] [] va (va' ++ vb') _ [] [] [] vb' :=
    bothContinue_statements lines below settled (fun _ => rfl) rfl ha
  obtain ⟨classes, classes', run, run', count, same, _⟩ := both
  rw [Continues, ha, classesFrom_nil] at run
  rw [Continues, hb] at run'
  obtain rfl : cs = classes := by simpa [Except.map] using run
  exact ⟨count, classes', run', same⟩

theorem classesFrom_second (h : Alike ts ts' ∨ ts = [] ∧ ts'.map (·.kind) = [.newline])
    (hc : classesFrom fin [] ts = .ok others) : ∃ others', classesFrom fin' [] ts' = .ok others' ∧
      others.map ClassDef.unplaced = others'.map ClassDef.unplaced := by
  rcases h with alike | ⟨rfl, newline⟩
  · exact (classesFrom_alike alike rfl).exists_ok hc
  · obtain ⟨s, more, rfl, none⟩ := exists_kinds_cons newline
    obtain rfl := map_eq_nil_iff.mp none
    cases classesFrom_nil.symm.trans hc
    exact ⟨[], by rw [classesFrom_newline, classesFrom_nil], rfl⟩

end Run

/-- The tokens of a text end with its end, and the classes are read from those before it. -/
theorem exists_parse_eq (ht : tokens source = .ok ts) :
    ∃ v fin, ts = v ++ [⟨.eof, fin⟩] ∧ parse source = (classesFrom fin [] v).map Module.mk := by
  obtain ⟨before, hk, -⟩ := (skeleton_of_tokensOf ht).eof_last
  obtain ⟨v, fin, -, split, until_eof⟩ := exists_untilEnd ht hk
  refine ⟨v, fin, split, ?_⟩
  rw [parse, ht]
  simp only [bind, Except.bind, Module.ofTokens, until_eof]
  rfl

theorem exists_until_end {ks : List Kind} (ht : tokens source = .ok ts)
    (hk : ts.map (·.kind) = ks ++ [.eof]) :
    ∃ v fin, v.map (·.kind) = ks ∧ parse source = (classesFrom fin [] v).map Module.mk := by
  obtain ⟨v, fin, rfl, hparse⟩ := exists_parse_eq ht
  rw [map_append] at hk
  exact ⟨v, fin, append_inj_left' hk rfl, hparse⟩

/-- Two texts one after the other, the first of which is made of whole lines, none of them joined to
the next one. Both start with a line that is not indented; in the first text the body of every class
stands on the lines behind its header, and the last line that is not indented is no decorator. Then
the classes of both are read, those of the first text before those of the second. There are as many
in the first text as lines outside all blocks that declare one: no other statement adds any or takes
any away, however deep its block. -/
theorem classes_append {a b : String} {ta tb : List Token} {ma mb : Module}
    (whole : a = "" ∨ a.toList.getLast? = some '\n')
    (hta : tokensOf readWord.withoutGaps a = .ok ta) (htb : tokens b = .ok tb)
    (start : (ta.map (·.kind)).head? ≠ some .indent)
    (start' : (tb.map (·.kind)).head? ≠ some .indent)
    (below : ∀ line ∈ outerLines (ta.map (·.kind)), isClassLine line = true →
      behindColon 0 line = [])
    (settled : ∀ line ∈ (outerLines (ta.map (·.kind))).getLast?, isDecoratorLine line = false)
    (ha : parse a = .ok ma) (hb : parse b = .ok mb) :
    (∃ m, parse (a ++ b) = .ok m ∧ m.classes.map ClassDef.unplaced =
      ma.classes.map ClassDef.unplaced ++ mb.classes.map ClassDef.unplaced) ∧
    ma.classes.length = (outerLines (ta.map (·.kind))).countP isClassLine := by
  have whole : a.toList = [] ∨ a.toList.getLast? = some '\n' := whole.imp_left fun h => by simp [h]
  obtain ⟨ka, hka, statements⟩ :=
    statements_of_tokensOf (Lexicon.gapless_withoutGaps readWord) hta start
  obtain ⟨va, fa, rfl, hva⟩ :=
    exists_until_end (tokensOf_mono (Lexicon.extends_withoutGaps readWord) hta) hka
  obtain ⟨kb, hkb, -⟩ := (skeleton_of_tokensOf htb).eof_last
  obtain ⟨vb, fb, rfl, hvb⟩ := exists_until_end htb hkb
  obtain ⟨ts, before, rest, hts, hka', hks, hrest⟩ := exists_tokensOf_append readWord_local
    readWord_layoutBlind whole hta htb start'
  obtain rfl : before = va.map (·.kind) := append_inj_left' (hka'.symm.trans hka) rfl
  obtain ⟨kr, rfl, behind⟩ : ∃ kr, rest = kr ++ [.eof] ∧
      (vb.map (·.kind) = kr ∨ vb = [] ∧ kr = [.newline]) := by
    rcases hrest with rfl | ⟨_, none, rfl⟩
    · exact ⟨_, hkb, .inl rfl⟩
    · have empty : vb.map (·.kind) = [] :=
        append_inj_left' (hkb.symm.trans none : vb.map (·.kind) ++ [.eof] = [] ++ [.eof]) rfl
      exact ⟨[.newline], rfl, .inr ⟨map_eq_nil_iff.mp empty, rfl⟩⟩
  rw [← append_assoc] at hks
  obtain ⟨v, fin, hv, hparse⟩ := exists_until_end hts hks
  obtain ⟨va', vb', rfl, hva', rfl⟩ := map_eq_append_iff.mp hv
  obtain ⟨cs, hcs, rfl⟩ := exists_of_map (hva.symm.trans ha)
  obtain ⟨others, ho, rfl⟩ := exists_of_map (hvb.symm.trans hb)
  obtain ⟨others', ho', same'⟩ : ∃ others', classesFrom fin [] vb' = .ok others' ∧ _ :=
    classesFrom_second behind ho
  have first : startsBlock vb' = false := by
    apply startsBlock_eq_false.mpr
    rcases behind with alike | ⟨_, newline⟩
    · rw [← alike]
      rw [hkb] at start'
      exact fun indent => start' (by rw [head?_append, indent]; rfl)
    · rw [newline]
      exact nofun
  rw [hka] at below settled ⊢
  obtain ⟨count, cs', run, same⟩ :=
    classesFrom_append fin statements hva'.symm first below settled hcs ho'
  refine ⟨⟨⟨cs' ++ others'⟩, by rw [hparse, run]; rfl, ?_⟩, count⟩
  rw [map_append, same, same']

/-- A class between an import and a condition with a class in its block. -/
def guardedText : String :=
  "import os\n@d\nclass A(B[int], m=M):\n    def f(self):\n        if n:\n            pass\n" ++
  "if os:\n    class C:\n        pass\n"

/-- A class with its body in its header. -/
def shortText : String := "y = 2\nclass D: z = 3\n"

theorem classes_append_guarded :
    ∃ ma mb m, parse guardedText = .ok ma ∧ parse shortText = .ok mb ∧
      parse (guardedText ++ shortText) = .ok m ∧ ma.classes.length = 1 ∧
      m.classes.map ClassDef.unplaced =
        ma.classes.map ClassDef.unplaced ++ mb.classes.map ClassDef.unplaced := by
  have whole : guardedText.toList.getLast? = some '\n' := by decide +kernel
  have first : (tokensOf readWord.withoutGaps guardedText).toOption.any (fun ts =>
      let lines := outerLines (ts.map (·.kind))
      (Module.ofTokens ts).toOption.isSome && !startsBlock ts &&
        lines.all (fun line => !isClassLine line || (behindColon 0 line).isEmpty) &&
        lines.getLast?.all (!isDecoratorLine ·) && lines.countP isClassLine == 1) = true := by
    decide +kernel
  have second : (tokens shortText).toOption.any (fun ts =>
      (Module.ofTokens ts).toOption.isSome && !startsBlock ts) = true := by decide +kernel
  obtain ⟨ta, hta, checks⟩ := (Option.any_eq_true _ _).mp first
  obtain ⟨tb, htb, checks'⟩ := (Option.any_eq_true _ _).mp second
  simp only [Bool.and_eq_true, Bool.not_eq_true', beq_iff_eq] at checks checks'
  obtain ⟨⟨⟨⟨read, start⟩, below⟩, settled⟩, count⟩ := checks
  obtain ⟨ma, ha⟩ := Option.isSome_iff_exists.mp read
  obtain ⟨mb, hb⟩ := Option.isSome_iff_exists.mp checks'.1
  have hta := eq_ok_of_toOption hta
  have htb := eq_ok_of_toOption htb
  have ha : parse guardedText = .ok ma := by
    rw [parse, tokens, tokensOf_mono (Lexicon.extends_withoutGaps readWord) hta]
    exact eq_ok_of_toOption ha
  have hb : parse shortText = .ok mb := by
    rw [parse, htb]
    exact eq_ok_of_toOption hb
  have below : ∀ line ∈ outerLines (ta.map (·.kind)), isClassLine line = true →
      behindColon 0 line = [] :=
    fun line hl hc => by simpa [hc] using all_eq_true.mp below line hl
  have settled : ∀ line ∈ (outerLines (ta.map (·.kind))).getLast?, isDecoratorLine line = false :=
    fun line hl => by simpa using (Option.all_eq_true _ _).mp settled line hl
  obtain ⟨⟨m, hm, same⟩, length⟩ := classes_append (.inr whole) hta htb
    (startsBlock_eq_false.mp start) (startsBlock_eq_false.mp checks'.2) below settled ha hb
  exact ⟨ma, mb, m, ha, hb, hm, length.trans count, same⟩

end ViewBridge.Classes
