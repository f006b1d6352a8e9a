import ViewBridge.Proofs.Markup.Defined

namespace ViewBridge.Markup

open List

variable {fin fin' : Span} {root root' root₁ root₂ : Option Widget} {ts ts' rest rest' : List Token}
  {rules : List Rule} {m : Module}

/-- Reading a module from some tokens gives certain rules first and then goes on with others. -/
def Continues (fin : Span) (root : Option Widget) (ts : List Token) (rules : List Rule)
    (root₁ : Option Widget) (rest : List Token) : Prop :=
  moduleFrom fin root ts =
    (moduleFrom fin root₁ rest).map fun m => { m with rules := rules ++ m.rules }

theorem Continues.refl : Continues fin root ts [] root ts := by
  unfold Continues
  cases moduleFrom fin root ts <;> rfl

theorem Continues.trans {mid : List Token} {others : List Rule}
    (h : Continues fin root ts rules root₁ mid) (h' : Continues fin root₁ mid others root₂ rest) :
    Continues fin root ts (rules ++ others) root₂ rest := by
  unfold Continues at h h' ⊢
  rw [h, h']
  cases moduleFrom fin root₂ rest with
  | error fault => rfl
  | ok m => simp [Except.map]

/-- Two runs that read the same, wherever it stands, and go on with the given tokens. -/
def BothContinue (fin fin' : Span) (root root' : Option Widget) (ts ts' rest rest' : List Token) :
    Prop :=
  ∃ rules rules' root₁ root₂, Continues fin root ts rules root₁ rest ∧
    Continues fin' root' ts' rules' root₂ rest' ∧
    rules.map (Rule.place nowhere) = rules'.map (Rule.place nowhere) ∧
    root₁.map (Widget.place nowhere) = root₂.map (Widget.place nowhere)

/-- A statement of a module is read the same whatever comes behind it. -/
theorem bothContinue_statement {k : Kind} {s s' : Span}
    (h : OnLine (Upto rest rest') rest.length rest'.length 0 (⟨k, s⟩ :: ts) (⟨k, s'⟩ :: ts'))
    (hk : k.isText = true)
    (hroot : root.map (Widget.place nowhere) = root'.map (Widget.place nowhere))
    (hm : moduleFrom fin root (⟨k, s⟩ :: ts) = .ok m) :
    BothContinue fin fin' root root' (⟨k, s⟩ :: ts) (⟨k, s'⟩ :: ts') rest rest' := by
  have refused : startsPart k = true := by
    by_contra hs
    rw [moduleFrom_refused (t := ⟨k, s⟩) (eq_false_of_ne_true hs)] at hm
    cases hm
  have frame := frame_upto rest rest'
  obtain ⟨R, hR, ends, hl⟩ := h
  cases k with
  | word w =>
    cases w with
    | openAngle =>
      rw [moduleFrom_rule] at hm
      obtain ⟨⟨first, behind⟩, hr, _⟩ := exists_of_bind hm
      have both : Agree _ (rule fin s ts) (rule fin' s' ts') :=
        rule_lockstep frame ⟨R, hR, ends, hR.tail hl nofun⟩
      obtain ⟨⟨first', behind'⟩, hr', same, hb⟩ := both.exists_ok hr
      obtain ⟨rfl, rfl⟩ : behind = rest ∧ behind' = rest' := hb.eq_of_zero
      refine ⟨[first], [first'], root, root', ?_, ?_, ?_, hroot⟩
      · rw [Continues, moduleFrom_rule, hr]
        rfl
      · rw [Continues, moduleFrom_rule, hr']
        rfl
      · rw [map_singleton, map_singleton, show first.place nowhere = _ from same]
    | identifier name =>
      have header : Option.Rel (fun p q => Behind (Upto rest rest') 0 p.2 q.2) (header? fin _)
        (header? fin' _) := header?_lockstep hR ends hl
      generalize hh : header? fin (⟨.word (.identifier name), s⟩ :: ts) = p at header
      generalize hh' : header? fin' (⟨.word (.identifier name), s'⟩ :: ts') = q at header
      cases header with
      | none =>
        rw [moduleFrom_property hh] at hm
        cases hm
      | @some p q hb =>
        cases root with
        | some w =>
          rw [moduleFrom_second hh] at hm
          cases hm
        | none =>
          obtain rfl := Option.map_eq_none_iff.mp hroot.symm
          rw [moduleFrom_root hh] at hm
          obtain ⟨⟨inner, behind⟩, hi, _⟩ := exists_of_bind hm
          have both : Agree _ (body fin p.2) (body fin' q.2) := body_lockstep frame hb
          obtain ⟨⟨inner', behind'⟩, hi', same, hb⟩ := both.exists_ok hi
          obtain ⟨rfl, rfl⟩ : behind = rest ∧ behind' = rest' := hb.eq_of_zero
          refine ⟨[], [], some (widgetOf name s inner), some (widgetOf name s' inner'), ?_, ?_, rfl,
            ?_⟩
          · rw [Continues, moduleFrom_root hh, hi]
            exact Continues.refl
          · rw [Continues, moduleFrom_root hh', hi']
            exact Continues.refl
          · exact congrArg some (Body.same_widget same)
    | _ => cases refused
  | newline => cases hk
  | _ => cases refused

/-- So are all of them, one after the other. -/
theorem bothContinue_statements {tail tail' : List Token} {lines : List (List Kind)}
    (h : Statementwise tail tail' lines ts ts')
    (hroot : root.map (Widget.place nowhere) = root'.map (Widget.place nowhere))
    (hm : moduleFrom fin root ts = .ok m) : BothContinue fin fin' root root' ts ts' tail tail' := by
  induction h generalizing root root' m with
  | nil => exact ⟨[], [], root, root', .refl, .refl, rfl, hroot⟩
  | @cons l l' s s' next next' mid mid' lines alike isLine behind _ ih =>
    have statement : BothContinue fin fin' root root' (l ++ ⟨.newline, s⟩ :: next)
        (l' ++ ⟨.newline, s'⟩ :: next') mid mid' := by
      have onLine := behind.onLine (s := s) (t := s') alike isLine
      cases alike.heads with
      | nil => exact absurd rfl isLine.nonempty
      | cons => exact bothContinue_statement onLine (isLine.text _ mem_cons_self) hroot hm
    obtain ⟨first, first', root₁, root₂, run, run', rules, roots⟩ := statement
    obtain ⟨others, ho, _⟩ := exists_of_map (run.symm.trans hm)
    obtain ⟨rest, rest', root₃, root₄, more, more', rules', roots'⟩ := ih roots ho
    refine ⟨first ++ rest, first' ++ rest', root₃, root₄, run.trans more, run'.trans more', ?_,
      roots'⟩
    rw [map_append, map_append, rules, rules']

/-- A module that is read behind a root has that root, and one that is read without is read behind
it as well if it has none of its own. -/
theorem roots_of_moduleFrom (fin : Span) (ts : List Token) :
    (∀ {w m}, moduleFrom fin (some w) ts = .ok m → m.root = some w) ∧
    (∀ {m}, moduleFrom fin none ts = .ok m → ∀ w, moduleFrom fin (some w) ts =
      match m.root with
      | none => .ok { m with root := some w }
      | some v => .error (.parse .singleRoot (.secondRoot v.name) v.span)) := by
  induction hn : ts.length using Nat.strongRecOn generalizing ts with
  | ind size ih =>
    cases ts with
    | nil =>
      refine ⟨fun {w m} h => ?_, fun {m} h w => ?_⟩
      · rw [moduleFrom_nil] at h
        cases h
        rfl
      · rw [moduleFrom_nil] at h ⊢
        cases h
        rfl
    | cons t rest =>
      rw [length_cons] at hn
      by_cases ht : startsPart t.kind = false
      · refine ⟨fun {w m} h => ?_, fun {m} h => ?_⟩ <;> rw [moduleFrom_refused ht] at h <;> cases h
      obtain ⟨k, span⟩ := t
      cases k with
      | newline =>
        simp only [moduleFrom_newline]
        exact ih rest.length (by omega) rest rfl
      | word w =>
        cases w with
        | openAngle =>
          simp only [moduleFrom_rule]
          cases hr : rule fin span rest with
          | error fault => exact ⟨nofun, nofun⟩
          | ok p =>
            have shorter := length_le_of_rule hr
            obtain ⟨kept, other⟩ := ih p.2.length (by omega) p.2 rfl
            refine ⟨fun {w m} h => ?_, fun {m} h w => ?_⟩
            · obtain ⟨others, ho, rfl⟩ := exists_of_map h
              have root : others.root = some w := kept ho
              exact root
            · obtain ⟨others, ho, rfl⟩ := exists_of_map h
              simp only [Except.bind, other ho w]
              cases others.root <;> rfl
        | identifier name =>
          cases hh : header? fin (⟨.word (.identifier name), span⟩ :: rest) with
          | none =>
            simp only [moduleFrom_property hh]
            exact ⟨nofun, nofun⟩
          | some p =>
            have header := length_le_of_header? hh
            simp only [moduleFrom_second hh, moduleFrom_root hh]
            refine ⟨nofun, fun {m} h w => ?_⟩
            obtain ⟨q, hb, hq⟩ := exists_of_bind h
            have shorter := length_le_of_body hb
            rw [(ih q.2.length (by omega) q.2 rfl).1 hq]
            rfl
        | _ => exact absurd rfl ht
      | _ => exact absurd rfl ht

theorem Continues.joined (h : Continues fin none ts rules root rest)
    (hm : moduleFrom fin none rest = .ok m) :
    (root = none ∨ m.root = none → moduleFrom fin none ts = .ok ⟨rules ++ m.rules, root.or m.root⟩) ∧
    (∀ v w, root = some v → m.root = some w →
      moduleFrom fin none ts = .error (.parse .singleRoot (.secondRoot w.name) w.span)) := by
  have other := (roots_of_moduleFrom fin rest).2 hm
  rw [show moduleFrom fin none ts = _ from h]
  cases root with
  | none =>
    refine ⟨fun _ => ?_, nofun⟩
    rw [hm]
    rfl
  | some v =>
    rw [other v]
    refine ⟨fun hr => ?_, fun _ w _ hw => ?_⟩
    · rw [hr.resolve_left nofun]
      rfl
    · rw [hw]
      rfl

theorem Widget.name_of_place {v w : Widget} (h : v.place nowhere = w.place nowhere) :
    v.name = w.name := by
  obtain ⟨name, _, _, _, _⟩ := v
  obtain ⟨name', _, _, _, _⟩ := w
  exact (Widget.mk.inj h).1

theorem structureEq_of_place {n : Module} (h : m.place nowhere = n.place nowhere)
    (hn : ∀ v ∈ n.values, v.same v = true) : m.structureEq n = true := by
  rw [← structureEq_place (f := nowhere), h, structureEq_place]
  exact structureEq_self hn

/-- The parts of two modules, those of the first before those of the second. -/
def Module.join (m n : Module) : Module := ⟨m.rules ++ n.rules, m.root.or n.root⟩

theorem Module.values_join {n : Module} {v : Literal} (h : v ∈ (m.join n).values) :
    v ∈ m.values ∨ v ∈ n.values := by
  simp only [Module.values, Module.join, mem_append, flatMap_append] at h ⊢
  rcases h with (h | h) | h
  · exact .inl (.inl h)
  · exact .inr (.inl h)
  · cases hm : m.root with
    | none =>
      rw [hm, Option.none_or] at h
      exact .inr (.inr h)
    | some w =>
      rw [hm, Option.some_or] at h
      exact .inl (.inr h)

theorem moduleFrom_append (fin : Span) {fa fb : Span} {va vb va' vb' : List Token} {ma mb : Module}
    (statements : Statements (va.map (·.kind))) (alike : Alike va va') (alike' : Alike vb vb')
    (start : startsBlock vb' = false) (ha : moduleFrom fa none va = .ok ma)
    (hb : moduleFrom fb none vb = .ok mb) :
    ∃ rules root mb', rules.map (Rule.place nowhere) = ma.rules.map (Rule.place nowhere) ∧
      root.map (Widget.place nowhere) = ma.root.map (Widget.place nowhere) ∧
      moduleFrom fin none vb' = .ok mb' ∧ mb.place nowhere = mb'.place nowhere ∧
      Continues fin none (va' ++ vb') rules root vb' := by
  have both : BothContinue fa fin none none (va ++ []) (va' ++ vb') [] vb' := by
    have ha' : moduleFrom fa none (va ++ []) = .ok ma := by rwa [append_nil]
    exact bothContinue_statements (statementwise statements alike rfl start) rfl ha'
  obtain ⟨rules, rules', root₁, root₂, run, run', sames, roots⟩ := both
  rw [Continues, append_nil, ha, moduleFrom_nil] at run
  obtain rfl : ma = ⟨rules, root₁⟩ := by simpa [Except.map] using run
  obtain ⟨mb', hb', same⟩ := (moduleFrom_alike alike' rfl).exists_ok hb
  exact ⟨rules', root₂, mb', sames.symm, roots.symm, hb', same, run'⟩

theorem place_join {ma mb mb' : Module}
    (sames : rules.map (Rule.place nowhere) = ma.rules.map (Rule.place nowhere))
    (roots : root.map (Widget.place nowhere) = ma.root.map (Widget.place nowhere))
    (same : mb.place nowhere = mb'.place nowhere) :
    Module.place nowhere ⟨rules ++ mb'.rules, root.or mb'.root⟩ = (ma.join mb).place nowhere := by
  obtain ⟨sames', roots'⟩ := Module.mk.inj same
  rw [Module.place, Module.place, Module.join]
  simp only [map_append, Option.map_or, sames, roots, sames', roots']

/-- Two texts one after the other, the first of which is made of whole lines. Their tokens follow
each other, and so do the rules of the modules they are read as. At most one of these may have a
root: a second one is refused by its name. -/
theorem parse_append {a b : String} {ma mb : Module} (ends : a = "" ∨ a.toList.getLast? = some '\n')
    (ha : parse a = .ok ma) (hb : parse b = .ok mb) :
    (∃ ta tb ts before, tokens a = .ok ta ∧ tokens b = .ok tb ∧ tokens (a ++ b) = .ok ts ∧
      ta.map (·.kind) = before ++ [.eof] ∧ ts.map (·.kind) = before ++ tb.map (·.kind)) ∧
    (ma.root = none ∨ mb.root = none → ∃ m, parse (a ++ b) = .ok m ∧
      m.place nowhere = (ma.join mb).place nowhere ∧ m.structureEq (ma.join mb) = true) ∧
    (∀ v w, ma.root = some v → mb.root = some w → ∃ found span,
      parse (a ++ b) = .error (.parse .singleRoot found span) ∧
        found.describe = "second root widget '" ++ w.name ++ "'") := by
  obtain ⟨ta, hta, -⟩ := exists_of_bind ha
  obtain ⟨tb, htb, -⟩ := exists_of_bind hb
  have whole : a.toList = [] ∨ a.toList.getLast? = some '\n' := ends.imp_left fun h => by simp [h]
  have gapless : readWord.withoutGaps = readWord := readWord_gapless.withoutGaps_eq
  obtain ⟨ts, before, rest, hts, hka, hks, hrest⟩ := exists_tokensOf_append readWord_local
    readWord_layoutBlind whole (by rw [gapless]; exact hta) htb (head?_of_parse htb hb)
  obtain rfl : rest = tb.map (·.kind) := hrest.resolve_right fun h => h.1 readWord_gapless
  refine ⟨⟨ta, tb, ts, before, hta, htb, hts, hka, hks⟩, ?_⟩
  obtain ⟨kb, hkb, -⟩ := (skeleton_of_tokensOf htb).eof_last
  obtain ⟨va, fa, rfl, hva⟩ := exists_until_end hta hka
  obtain ⟨vb, fb, rfl, hvb⟩ := exists_until_end htb hkb
  rw [hkb, ← append_assoc] at hks
  obtain ⟨v, fin, hv, hparse⟩ := exists_until_end hts hks
  obtain ⟨va', vb', rfl, hva', hvb'⟩ := map_eq_append_iff.mp hv
  obtain ⟨ks, hs, statements⟩ := statements_of_tokensOf readWord_gapless hta (head?_of_parse hta ha)
  obtain rfl : ks = va.map (·.kind) := append_inj_left' (hs.symm.trans hka) rfl
  have start : startsBlock vb' = false := by
    apply startsBlock_eq_false.mpr
    have head := head?_of_parse htb hb
    rw [hvb']
    rw [hkb] at head
    exact fun indent => head (by rw [head?_append, indent]; rfl)
  obtain ⟨rules, root, mb', sames, roots, hb', same, run⟩ := moduleFrom_append fin statements
    hva'.symm hvb'.symm start (hva ▸ ha) (hvb ▸ hb)
  have values : ∀ v ∈ (ma.join mb).values, v.same v = true := fun v hv =>
    (Module.values_join hv).elim (values_same_self ha v) (values_same_self hb v)
  obtain ⟨once, twice⟩ := run.joined hb'
  have rootless : mb'.root = none ↔ mb.root = none := by
    have image := (Module.mk.inj same).2
    rw [← Option.map_eq_none_iff, ← image, Option.map_eq_none_iff]
  have rootless' : root = none ↔ ma.root = none := by
    rw [← Option.map_eq_none_iff, roots, Option.map_eq_none_iff]
  rw [hparse]
  refine ⟨fun hr => ⟨_, once (hr.imp rootless'.mpr rootless.mpr), ?_, ?_⟩, fun v w hv hw => ?_⟩
  · exact place_join sames roots same
  · exact structureEq_of_place (place_join sames roots same) values
  · obtain ⟨v', hv'⟩ := Option.ne_none_iff_exists'.mp (mt rootless'.mp (hv ▸ nofun))
    obtain ⟨w', hw'⟩ := Option.ne_none_iff_exists'.mp (mt rootless.mp (hw ▸ nofun))
    have image := (Module.mk.inj same).2
    rw [hw, hw'] at image
    have name : w.name = w'.name := Widget.name_of_place (Option.some.inj image)
    exact ⟨_, _, twice v' w' hv' hw', by rw [name]; rfl⟩

def rootedText : String := "<A>:\n    x: 1.5\n\nB:\n    C:\n        y: ['c', (2,)]\n"

/-- A rule behind a comment. -/
def drawnText : String := "# D\n<D>:\n    canvas:\n        E:\n"

/-- A root behind an empty line. -/
def secondText : String := "\nF:\n    G:\n"

theorem parse_append_rooted :
    (∃ ma mb m, parse rootedText = .ok ma ∧ parse drawnText = .ok mb ∧
      parse (rootedText ++ drawnText) = .ok m ∧ m.structureEq (ma.join mb) = true) ∧
    ∃ found span, parse (rootedText ++ secondText) = .error (.parse .singleRoot found span) ∧
      found.describe = "second root widget 'F'" := by
  have first : (parse rootedText).toOption.any (·.root.isSome) = true := by decide +kernel
  have drawn : (parse drawnText).toOption.any (·.root.isNone) = true := by decide +kernel
  have second : (parse secondText).toOption.any (·.root.any (·.name == "F")) = true := by
    decide +kernel
  obtain ⟨ma, ha, rooted⟩ := (Option.any_eq_true _ _).mp first
  obtain ⟨mb, hb, rootless⟩ := (Option.any_eq_true _ _).mp drawn
  obtain ⟨mc, hc, named⟩ := (Option.any_eq_true _ _).mp second
  obtain ⟨v, hv⟩ := Option.isSome_iff_exists.mp rooted
  obtain ⟨w, hw, name⟩ := (Option.any_eq_true _ _).mp named
  have ends : rootedText = "" ∨ rootedText.toList.getLast? = some '\n' := .inr (by decide)
  have ha := eq_ok_of_toOption ha
  have hb := eq_ok_of_toOption hb
  obtain ⟨m, hm, _, same⟩ :=
    (parse_append ends ha hb).2.1 (.inr (Option.isNone_iff_eq_none.mp rootless))
  obtain ⟨found, span, refused, text⟩ :=
    (parse_append ends ha (eq_ok_of_toOption hc)).2.2 v w hv hw
  rw [beq_iff_eq.mp name] at text
  exact ⟨⟨ma, mb, m, ha, hb, hm, same⟩, found, span, refused, text⟩

end ViewBridge.Markup
