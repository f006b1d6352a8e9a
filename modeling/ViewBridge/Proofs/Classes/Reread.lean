import ViewBridge.Proofs.Classes.Concat
import ViewBridge.Proofs.Classes.Interface

namespace ViewBridge.Classes

open List

variable {us : List Token}

section Signature

variable {fin s s₁ : Span} {name type : String} {ts rest : List Token}

theorem paramEntry_comma {hint : Option TypeHint}
    (ht : typeBehind fin isColon ts = .ok (hint, ⟨.word .comma, s₁⟩ :: rest)) :
    paramEntry fin (⟨.word (.identifier name), s⟩ :: ts) =
      .ok (some ⟨name, hint, s⟩, ⟨.word .comma, s₁⟩ :: rest) := by
  simp only [paramEntry, ht]
  rfl

def tokensAt (s : Span) (ks : List Kind) : List Token := ks.map (⟨·, s⟩)

theorem map_kind_tokensAt (s : Span) (ks : List Kind) :
    (tokensAt s ks).map (·.kind) = ks := by
  simp [tokensAt, Function.comp_def]

def constructorParams (type : String) : List Kind :=
  [.word (.identifier "self"), .word .comma, .word (.identifier "data"), .word .colon,
    .word (.identifier type), .word .comma, .word .doubleStar, .word (.identifier "kwargs")]

theorem enclosed_constructorParams (type : String) : Enclosed (constructorParams type) :=
  .word _ (.word _ (.word _ (.word _ (.word _ (.word _ (.word _ (.word _ .nil)))))))

theorem exists_params (fin s : Span) (type : String) (rest : List Token) :
    ∃ ps : List Param, ps.map (·.name) = ["self", "data"] ∧
      params fin (tokensAt s (constructorParams type) ++ ⟨.closing .round, s⟩ :: rest) =
        .ok (ps, rest) := by
  have entries := entries_params fin
  have starred : paramEntry fin (⟨.word .doubleStar, s⟩ :: ⟨.word (.identifier "kwargs"), s⟩ ::
      ⟨.closing .round, s⟩ :: rest) = .ok (none, ⟨.closing .round, s⟩ :: rest) := rfl
  obtain ⟨hint, ht⟩ := exists_typeBehind_name .comma fin s s s type
    (⟨.word .doubleStar, s⟩ :: ⟨.word (.identifier "kwargs"), s⟩ :: ⟨.closing .round, s⟩ :: rest)
  have data : paramEntry fin (⟨.word (.identifier "data"), s⟩ :: _) = _ := paramEntry_comma ht
  have behind := entries.read_comma (by nofun) data (by simp) (entries.read_last (by nofun) starred)
  have shorter : 7 < (tokensAt s (constructorParams type)).length := by simp [tokensAt, constructorParams]
  exact ⟨_, rfl, entries.read_comma (by nofun) (paramEntry_comma rfl) (by simp; omega) behind⟩

theorem behindBlock_inner (h : ∀ t ∈ us, t.kind.isIndent = false ∧ t.kind.isDedent = false) :
    behindBlock 0 (us ++ ⟨.dedent, s⟩ :: rest) = rest := by
  induction us with
  | nil => rfl
  | cons t us ih =>
    obtain ⟨⟨indent, dedent⟩, others⟩ := forall_mem_cons.mp h
    obtain ⟨k, s⟩ := t
    cases k with
    | indent => cases indent
    | dedent => cases dedent
    | _ => exact ih others

def constructorSignature : Signature := ⟨"__init__", ["data"], [], false, true⟩

theorem exists_method (h : ∀ t ∈ us, t.kind.isIndent = false ∧ t.kind.isDedent = false)
    (fin s : Span) (type : String) (rest : List Token) :
    ∃ m : Method, m.signature = constructorSignature ∧
      method fin [] s (⟨.word (.identifier "__init__"), s⟩ :: ⟨.opening .round, s⟩ ::
        (tokensAt s (constructorParams type) ++ ⟨.closing .round, s⟩ :: ⟨.word .colon, s⟩ ::
          ⟨.newline, s⟩ :: ⟨.indent, s⟩ :: (us ++ ⟨.dedent, s⟩ :: rest))) = .ok (m, rest) := by
  obtain ⟨ps, names, hp⟩ := exists_params fin s type
    (⟨.word .colon, s⟩ :: ⟨.newline, s⟩ :: ⟨.indent, s⟩ :: (us ++ ⟨.dedent, s⟩ :: rest))
  have body : skipStatement (⟨.newline, s⟩ :: ⟨.indent, s⟩ :: (us ++ ⟨.dedent, s⟩ :: rest)) = rest :=
    behindBlock_inner h
  have returns : typeBehind fin isArrow (⟨.word .colon, s⟩ :: ⟨.newline, s⟩ :: ⟨.indent, s⟩ ::
      (us ++ ⟨.dedent, s⟩ :: rest)) = .ok (none, _) := rfl
  have ends : atLineEnd (⟨.newline, s⟩ :: ⟨.indent, s⟩ :: (us ++ ⟨.dedent, s⟩ :: rest)) = true := rfl
  simp only [method, hp, returns, bind, Except.bind, ends, if_true, body]
  refine ⟨_, ?_, rfl⟩
  rw [Method.signature, constructorSignature]
  simp [names]

def constructorLine (type : String) : List Kind :=
  .word .defKeyword :: .word (.identifier "__init__") :: .opening .round ::
    (constructorParams type ++ [.closing .round, .word .colon])

theorem isLine_constructorLine (type : String) : IsLine (constructorLine type) where
  nonempty := nofun
  text := by simp [constructorLine, constructorParams, TokenKind.isText]
  nested := .word _ (.word _ (.group .round (enclosed_constructorParams type) (.word _ .nil)))

/-- A constructor that takes data, with two lines as its body. -/
theorem reads_constructor (type : String) {first second : List Kind}
    (hf : IsLine first) (hs : IsLine second) :
    Reads [] (constructorLine type ++ .newline :: .indent ::
      (first ++ .newline :: (second ++ .newline :: [.dedent])))
      ⟨[], [constructorSignature]⟩ [] := by
  generalize hk : constructorLine type ++ .newline :: .indent ::
    (first ++ .newline :: (second ++ .newline :: [.dedent])) = ks
  have statement : Statement ks := hk ▸
    .block (isLine_constructorLine type) (.line hf (.line hs (.dedent .nil)))
  have flat {l : List Kind} (isLine : IsLine l) :
      ∀ k ∈ l, k.isIndent = false ∧ k.isDedent = false := by
    intro k hk
    have text := isLine.text k hk
    cases k with
    | indent | dedent => cases text
    | _ => exact ⟨rfl, rfl⟩
  have inner : ∀ k ∈ first ++ .newline :: (second ++ [.newline]),
      k.isIndent = false ∧ k.isDedent = false := by
    refine forall_mem_append.mpr ⟨flat hf, forall_mem_cons.mpr ⟨⟨rfl, rfl⟩, ?_⟩⟩
    exact forall_mem_append.mpr ⟨flat hs, forall_mem_singleton.mpr ⟨rfl, rfl⟩⟩
  have tokens : ∀ t ∈ tokensAt .origin (first ++ .newline :: (second ++ [.newline])),
      t.kind.isIndent = false ∧ t.kind.isDedent = false := by
    intro t ht
    obtain ⟨k, hk, rfl⟩ := mem_map.mp ht
    exact inner k hk
  -- reading depends on the kinds alone, so one run at places that are made up tells of all
  obtain ⟨m, shown, read⟩ := exists_method tokens .origin .origin type []
  have line : member .origin [] (tokensAt .origin ks ++ []) = .ok (⟨⟨[], [m]⟩, []⟩, []) := by
    have spelled : tokensAt .origin ks ++ [] = ⟨.word .defKeyword, .origin⟩ ::
        ⟨.word (.identifier "__init__"), .origin⟩ :: ⟨.opening .round, .origin⟩ ::
        (tokensAt .origin (constructorParams type) ++ ⟨.closing .round, .origin⟩ ::
          ⟨.word .colon, .origin⟩ :: ⟨.newline, .origin⟩ :: ⟨.indent, .origin⟩ ::
          (tokensAt .origin (first ++ .newline :: (second ++ [.newline])) ++
            [⟨.dedent, .origin⟩])) := by
      rw [← hk]
      simp [tokensAt, constructorLine]
    have defined (ts : List Token) : member .origin [] (⟨.word .defKeyword, .origin⟩ :: ts) =
        (method .origin [] .origin ts).bind fun p => .ok (⟨⟨[], [p.1]⟩, []⟩, p.2) := rfl
    rw [spelled, defined, read]
    rfl
  have reads := Reads.of_statement (by rw [map_kind_tokensAt]; exact statement)
    (by rw [map_kind_tokensAt, ← hk]; rfl) line rfl
  rw [map_kind_tokensAt] at reads
  rw [← shown]
  exact reads

end Signature

section Classes

variable {fin : Span} {ts rest : List Token} {ks ls : List Kind} {name base : String}

/-- Whether tokens go on with a dotted name. -/
def startsDot : List Token → Bool
  | ⟨.word .dot, _⟩ :: _ => true
  | _ => false

theorem dottedTail_of_kinds {more : String} (h : DottedTail more ks) (hk : SameKinds ts ks)
    (hr : startsDot rest = false) : dottedTail fin (ts ++ rest) = .ok (more, rest) := by
  induction h generalizing ts with
  | nil =>
    obtain rfl := SameKinds.eq_nil hk
    rw [dottedTail.eq_def]
    cases rest with
    | nil => rfl
    | cons t rest =>
      obtain ⟨k, s⟩ := t
      cases k with
      | word w =>
        cases w with
        | dot => cases hr
        | _ => rfl
      | _ => rfl
  | dot hn _ ih =>
    obtain ⟨s₁, us₁, rfl, hk₁⟩ := hk.exists_cons (by simp)
    obtain ⟨s₂, us₂, rfl, hk₂⟩ := hk₁.exists_cons (by simp)
    simp only [cons_append, dottedTail, ih hk₂]
    rfl

theorem baseClass_of_kinds (h : Dotted base ks) (hk : SameKinds ts ks) (s : Span) :
    baseClass fin (ts ++ ⟨.closing .round, s⟩ :: rest) =
      .ok (some base, ⟨.closing .round, s⟩ :: rest) := by
  obtain @⟨first, more, ks, hn, hm⟩ := h
  obtain ⟨s₁, us, rfl, hu⟩ := hk.exists_cons nofun
  have ends : startsDot (⟨.closing .round, s⟩ :: rest) = false := rfl
  have tail : dottedTail fin _ = _ := dottedTail_of_kinds hm hu ends
  have named : dottedName fin .baseClass (⟨.word (.identifier first), s₁⟩ ::
      (us ++ ⟨.closing .round, s⟩ :: rest)) = .ok (first ++ more, ⟨.closing .round, s⟩ :: rest) := by
    rw [dottedName, tail]
    rfl
  have other : ∀ s₂ us', us ++ ⟨.closing .round, s⟩ :: rest ≠ ⟨.word .equals, s₂⟩ :: us' := by
    cases hm with
    | nil =>
      obtain rfl := SameKinds.eq_nil hu
      nofun
    | dot =>
      obtain ⟨s₂, us, rfl, -⟩ := hu.exists_cons nofun
      nofun
  rw [cons_append, baseClass.eq_def]
  split
  next eq => exact absurd (List.cons.inj eq).2 (other _ _)
  next =>
    rw [named]
    rfl

theorem baseClasses_of_kinds (h : Dotted base ks) (hk : SameKinds ts ks) (s : Span) :
    baseClasses fin (ts ++ ⟨.closing .round, s⟩ :: rest) = .ok ([base], rest) := by
  refine (entries_baseClasses fin).read_last ?_ (baseClass_of_kinds h hk s)
  obtain ⟨hn, hm⟩ := h
  obtain ⟨s₁, us, rfl, hu⟩ := hk.exists_cons nofun
  nofun

/-- What a class shows of itself: its name, those of its bases, and what its members show. -/
structure Shape where
  name : String
  bases : List String
  members : Interface
  deriving DecidableEq

def ClassDef.shape (c : ClassDef) : Shape :=
  ⟨c.name, c.bases, Members.interface ⟨c.fields, c.methods⟩⟩

/-- Statements that are read as classes of these shapes, whatever the strings in them say. -/
structure ReadsShapes (ks : List Kind) (shapes : List Shape) : Prop where
  start : ks.head? ≠ some .indent
  read (fin : Span) {ts rest : List Token} {classes : List ClassDef} : SameKinds ts ks →
    startsBlock rest = false → classesFrom fin [] rest = .ok classes →
    ∃ cs, cs.map ClassDef.shape = shapes ∧ classesFrom fin [] (ts ++ rest) = .ok (cs ++ classes)

theorem readsShapes_nil : ReadsShapes [] [] where
  start := nofun
  read fin {ts rest classes} hk _ h := by
    obtain rfl := SameKinds.eq_nil hk
    exact ⟨[], rfl, h⟩

theorem ReadsShapes.append {first second : List Shape} (h : ReadsShapes ks first)
    (hs : ReadsShapes ls second) : ReadsShapes (ks ++ ls) (first ++ second) where
  start := by
    cases ks with
    | nil => exact hs.start
    | cons k ks => exact h.start
  read fin {ts rest classes} hk hr hc := by
    obtain ⟨us, vs, rfl, hfirst, hsecond⟩ := hk.exists_append
    obtain ⟨ds, shown, run⟩ := hs.read fin hsecond hr hc
    obtain ⟨cs, shown', run'⟩ := h.read fin hfirst (startsBlock_append hsecond hs.start hr) run
    refine ⟨cs ++ ds, ?_, ?_⟩
    · rw [map_append, shown', shown]
    · rw [append_assoc, append_assoc, run']

theorem skipStatement_line {s : Span} (text : ∀ t ∈ us, t.kind.isText = true)
    (hr : startsBlock rest = false) : skipStatement (us ++ ⟨.newline, s⟩ :: rest) = rest := by
  rw [skipStatement, skipLine_line text, skipBlock_eq_self hr]

/-- A line that is no class and no decorator is passed over. -/
theorem readsShapes_line {k : Kind} (hk : isPassed k = true)
    (plain : ∀ text, k ≠ .word (.string text)) (text : ∀ j ∈ k :: ks, TokenKind.isText j = true) :
    ReadsShapes (k :: ks ++ [.newline]) [] where
  start := by
    rintro ⟨⟩
    cases text _ mem_cons_self
  read fin {ts rest classes} hts hr hc := by
    obtain ⟨us, vs, rfl, hu, hv⟩ := hts.exists_append
    obtain ⟨s', none, rfl, hnone⟩ := hv.exists_cons nofun
    obtain rfl := SameKinds.eq_nil hnone
    have passed : skipStatement (us ++ [⟨.newline, s'⟩] ++ rest) = rest := by
      rw [append_assoc]
      exact skipStatement_line (hu.text text) hr
    refine ⟨[], rfl, ?_⟩
    obtain ⟨s, behind, rfl, -⟩ := hu.exists_cons plain
    rw [cons_append, cons_append] at passed ⊢
    rw [classesFrom_passed hk, if_pos (by simp), passed]
    exact hc

def classHeader (name : String) (base : List Kind) : List Kind :=
  .word .classKeyword :: .word (.identifier name) :: .opening .round ::
    (base ++ [.closing .round, .word .colon])

/-- A class with one base and a block below its header. -/
theorem readsShapes_class {shown : Interface} (hb : Dotted base ls) (reads : Reads [] ks shown []) :
    ReadsShapes (classHeader name ls ++ [.newline] ++ .indent :: (ks ++ [.dedent]))
      [⟨name, [base], shown⟩] where
  start := nofun
  read fin {ts rest classes} hts _ hc := by
    -- the tokens of the header, then those of the block and its end
    obtain ⟨s₁, ts₁, rfl, h₁⟩ := hts.exists_cons nofun
    obtain ⟨s₂, ts₂, rfl, h₂⟩ := h₁.exists_cons nofun
    obtain ⟨s₃, ts₃, rfl, h₃⟩ := h₂.exists_cons nofun
    rw [append_eq, append_eq, append_assoc, append_assoc] at h₃
    obtain ⟨bs, ts₄, rfl, hbs, h₄⟩ := h₃.exists_append
    obtain ⟨s₅, ts₅, rfl, h₅⟩ := h₄.exists_cons nofun
    obtain ⟨s₆, ts₆, rfl, h₆⟩ := h₅.exists_cons nofun
    obtain ⟨s₇, ts₇, rfl, h₇⟩ := h₆.exists_cons nofun
    obtain ⟨s₈, ts₈, rfl, h₈⟩ := h₇.exists_cons nofun
    obtain ⟨body, ts₉, rfl, hbody, h₉⟩ := h₈.exists_append
    obtain ⟨s₁₀, ts₁₀, rfl, h₁₀⟩ := h₉.exists_cons nofun
    obtain rfl := SameKinds.eq_nil h₁₀
    obtain ⟨ms, ds, hms, -, run⟩ := reads.read fin hbody (map_nil : [].map Decorator.label = [])
      (rfl : startsBlock (⟨.dedent, s₁₀⟩ :: rest) = false)
    have members : classMembers fin (⟨.newline, s₇⟩ :: ⟨.indent, s₈⟩ ::
        (body ++ ⟨.dedent, s₁₀⟩ :: rest)) = .ok (ms.append {}, rest) :=
      run ({}, rest) (by rw [classBody])
    have head : classHead fin (⟨.word (.identifier name), s₂⟩ :: ⟨.opening .round, s₃⟩ ::
        (bs ++ ⟨.closing .round, s₅⟩ :: ⟨.word .colon, s₆⟩ :: ⟨.newline, s₇⟩ :: ⟨.indent, s₈⟩ ::
          (body ++ ⟨.dedent, s₁₀⟩ :: rest))) = .ok ((name, [base]), ⟨.newline, s₇⟩ ::
            ⟨.indent, s₈⟩ :: (body ++ ⟨.dedent, s₁₀⟩ :: rest)) := by
      simp only [classHead, classBases, baseClasses_of_kinds hb hbs]
      rfl
    have whole : classDef fin [] s₁ (⟨.word (.identifier name), s₂⟩ :: ⟨.opening .round, s₃⟩ ::
        (bs ++ ⟨.closing .round, s₅⟩ :: ⟨.word .colon, s₆⟩ :: ⟨.newline, s₇⟩ :: ⟨.indent, s₈⟩ ::
          (body ++ ⟨.dedent, s₁₀⟩ :: rest))) =
        .ok (⟨name, [base], [], (ms.append {}).fields, (ms.append {}).methods, s₁⟩, rest) := by
      rw [classDef_eq, head, Except.bind, members]
      rfl
    refine ⟨[⟨name, [base], [], (ms.append {}).fields, (ms.append {}).methods, s₁⟩], ?_, ?_⟩
    · have same : (ms.append {}).interface = shown := by
        rw [Members.interface_append, hms]
        simp [Interface.append, Members.interface]
      rw [← same]
      rfl
    · simp only [cons_append, append_assoc, nil_append]
      rw [classesFrom_class, whole, Except.bind, if_pos, hc]
      · rfl
      · exact ((classDef_sound [] _).of_ok whole).length_le

end Classes

end ViewBridge.Classes
