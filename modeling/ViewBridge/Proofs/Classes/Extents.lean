import ViewBridge.Proofs.Classes.Bodies

namespace ViewBridge.Classes

open List

variable {fin start s e : Span} {ts rest v w pre waiting after left us : List Token}
  {ds : List Decorator} {m : Method} {f : Field} {es : List Span} {members : Members}
  {name source : String} {t : Token} {fs : List Field} {ms : List Method}

section Places

theorem Spanned.holds {extent : Span} (h : Spanned v extent) (order : InOrder v)
    (ht : t ∈ v) (text : t.kind.isText = true) :
    extent.start ≤ t.span.start ∧ t.span.stop ≤ extent.stop := by
  obtain ⟨a, u, first, last, rfl⟩ := h
  constructor
  · obtain ⟨us, rfl⟩ := head?_eq_some_iff.mp first
    rcases mem_cons.mp ht with rfl | ht
    · exact Nat.le_refl _
    · have before := (pairwise_cons.mp order.ordered).1 t ht
      exact Nat.le_trans (order.within a mem_cons_self) before
  · have mem : t ∈ v.filter (·.kind.isText) := mem_filter.mpr ⟨ht, text⟩
    have kept := order.sublist (filter_sublist (p := (·.kind.isText)))
    obtain ⟨us, eq⟩ := getLast?_eq_some_iff.mp last
    rw [eq] at mem kept
    rcases mem_append.mp mem with mem | mem
    · have before := (pairwise_append.mp kept.ordered).2.2 t mem u mem_cons_self
      exact Nat.le_trans before (kept.within u (by simp))
    · obtain rfl := mem_singleton.mp mem
      exact Nat.le_refl _

/-- Tokens in order, with names that are not empty. -/
structure Shown (ts : List Token) : Prop where
  order : InOrder ts
  names : ∀ name s, ⟨.word (.identifier name), s⟩ ∈ ts → s.start < s.stop

theorem Shown.sublist (h : Shown ts) (sub : us.Sublist ts) : Shown us :=
  ⟨h.order.sublist sub, fun name s hs => h.names name s (sub.subset hs)⟩

/-- An extent that starts and ends with tokens of a list. -/
def Covered (ts : List Token) (e : Span) : Prop :=
  e.start < e.stop ∧ (∃ t ∈ ts, e.start = t.span.start) ∧ ∃ u ∈ ts, e.stop = u.span.stop

theorem Covered.mono (h : Covered ts e) (sub : ts ⊆ us) : Covered us e := by
  obtain ⟨lt, ⟨t, ht, first⟩, u, hu, last⟩ := h
  exact ⟨lt, ⟨t, sub ht, first⟩, u, sub hu, last⟩

/-- Extents of which one ends before the other starts. -/
def Apart (e e' : Span) : Prop := e.stop ≤ e'.start ∨ e'.stop ≤ e.start

theorem Spanned.cons_apart (h : Spanned v e) (shown : Shown (v ++ ts))
    (mem : ⟨.word (.identifier name), s⟩ ∈ v) (covered : ∀ e' ∈ es, Covered ts e')
    (apart : es.Pairwise Apart) :
    (e :: es).Pairwise Apart ∧ ∀ e' ∈ e :: es, Covered (v ++ ts) e' := by
  have part := shown.sublist (sublist_append_left v ts)
  have inside := h.holds part.order mem rfl
  have lt := part.names name s mem
  obtain ⟨t, u, first, last, rfl⟩ := h
  have hu : u ∈ v := (mem_filter.mp (mem_of_getLast? last)).1
  refine ⟨pairwise_cons.mpr ⟨fun e' he' => .inl ?_, apart⟩, forall_mem_cons.mpr ⟨?_, ?_⟩⟩
  · obtain ⟨_, ⟨t', ht', first⟩, _⟩ := covered e' he'
    rw [first]
    exact (pairwise_append.mp shown.order.ordered).2.2 u hu t' ht'
  · refine ⟨by dsimp only at *; omega, ⟨t, ?_, rfl⟩, u, mem_append_left _ hu, rfl⟩
    exact mem_append_left _ (mem_of_mem_head? first)
  · exact fun e' he' => (covered e' he').mono (subset_append_right v ts)

/-- The extent of a method has its name and its parameters inside. -/
def HoldsNames (m : Method) : Prop :=
  ∀ s ∈ m.span :: m.params.map (·.span), m.extent.start ≤ s.start ∧ s.stop ≤ m.extent.stop

theorem SignatureAt.holdsNames (h : SignatureAt w after m) (order : InOrder (v ++ w))
    (spanned : Spanned (v ++ w) m.extent) : HoldsNames m := by
  obtain ⟨inner, _, type, s, body, rfl, ⟨_⟩, params, _⟩ := h
  have held (name : String) {s : Span} (mem : ⟨.word (.identifier name), s⟩ ∈ _) :=
    spanned.holds order mem rfl
  refine forall_mem_cons.mpr ⟨held m.name (by simp), fun s hs => ?_⟩
  obtain ⟨p, hp, rfl⟩ := mem_map.mp hs
  exact held p.name (by simp [params p hp])

/-- A line gives no member, a field or a method, which starts where something waits for it. -/
theorem LineAt.cases {p p' : Pending} (h : LineAt after p v p' fs ms) (order : InOrder (p.tokens ++ v)) :
    (fs = [] ∧ ms = [] ∧ p'.tokens <:+ p.tokens ++ v) ∨
      (p'.tokens = [] ∧ ∃ e name s, ⟨.word (.identifier name), s⟩ ∈ v ∧
        ((∃ f, fs = [f] ∧ ms = [] ∧ f.extent = e ∧ Spanned v e) ∨
          ∃ m, fs = [] ∧ ms = [m] ∧ m.extent = e ∧ HoldsNames m ∧ Spanned (p.tokens ++ v) e)) := by
  cases h with
  | blank | quiet => exact .inl ⟨rfl, rfl, p.kept_suffix _⟩
  | decorator => exact .inl ⟨rfl, rfl, suffix_refl _⟩
  | nested | reserved => exact .inl ⟨rfl, rfl, nil_suffix⟩
  | field here =>
    obtain ⟨l, s, rfl, -, -, -, spanned⟩ := here
    exact .inr ⟨rfl, _, _, _, mem_cons_self, .inl ⟨_, rfl, rfl, rfl, spanned⟩⟩
  | method _ signature _ spanned =>
    rw [← append_assoc] at spanned order
    have holds := signature.holdsNames order spanned
    obtain ⟨inner, _, type, s, body, rfl, _⟩ := signature
    rw [append_assoc] at spanned
    exact .inr ⟨rfl, _, _, _, mem_append_right _ mem_cons_self,
      .inr ⟨_, rfl, rfl, rfl, holds, spanned⟩⟩

theorem Laid.extents {p : Pending} (h : Laid after p ts fs ms) (shown : Shown (p.tokens ++ ts)) :
    (fs.map (·.extent) ++ ms.map (·.extent)).Pairwise Apart ∧
      (∀ e ∈ fs.map (·.extent) ++ ms.map (·.extent), Covered (p.tokens ++ ts) e) ∧
        ∀ m ∈ ms, HoldsNames m := by
  induction h with
  | nil => simp
  | @line p p' v ts fs fs' ms ms' here _ ih =>
    rw [← append_assoc] at shown ⊢
    have whole := shown.sublist (sublist_append_left _ ts)
    rcases here.cases whole.order with ⟨rfl, rfl, sub⟩ | ⟨none, e, name, s, named, member⟩
    · have sub : (p'.tokens ++ ts).Sublist (p.tokens ++ v ++ ts) := sub.sublist.append_right ts
      obtain ⟨apart, covered, held⟩ := ih (shown.sublist sub)
      exact ⟨apart, fun e he => (covered e he).mono sub.subset, held⟩
    · rw [none, nil_append] at ih
      obtain ⟨apart, covered, held⟩ := ih (shown.sublist (sublist_append_right _ ts))
      rcases member with ⟨f, rfl, rfl, rfl, spanned⟩ | ⟨m, rfl, rfl, rfl, holds, spanned⟩
      · have sub : (v ++ ts).Sublist (p.tokens ++ v ++ ts) :=
          (sublist_append_right _ v).append_right ts
        have all := spanned.cons_apart (shown.sublist sub) named covered apart
        exact ⟨all.1, fun e he => (all.2 e he).mono sub.subset, held⟩
      · have all := spanned.cons_apart shown (mem_append_right _ named) covered apart
        have perm : (fs'.map (·.extent) ++ m.extent :: ms'.map (·.extent)).Perm
            (m.extent :: (fs'.map (·.extent) ++ ms'.map (·.extent))) := perm_middle
        exact ⟨(perm.pairwise_iff fun h => h.symm).mpr all.1, fun e he => all.2 e (perm.mem_iff.mp he),
          forall_mem_cons.mpr ⟨holds, held⟩⟩

theorem MembersAt.extents (h : MembersAt after ts fs ms) (shown : Shown ts) :
    (fs.map (·.extent) ++ ms.map (·.extent)).Pairwise Apart ∧
      (∀ e ∈ fs.map (·.extent) ++ ms.map (·.extent), Covered ts e) ∧ ∀ m ∈ ms, HoldsNames m := by
  cases h with
  | @block s s₁ lines s₂ _ _ laid =>
    have sub : lines.Sublist (⟨.newline, s⟩ :: ⟨.indent, s₁⟩ :: (lines ++ [⟨.dedent, s₂⟩])) :=
      ((sublist_append_left lines _).cons _).cons _
    obtain ⟨apart, covered, held⟩ := laid.extents (shown.sublist sub)
    exact ⟨apart, fun e he => (covered e he).mono sub.subset, held⟩
  | none => simp
  | line here =>
    have laid : Laid after {} (ts ++ []) (fs ++ []) (ms ++ []) := .line here .nil
    rw [append_nil, append_nil, append_nil] at laid
    exact laid.extents shown

theorem pairwise_mergeSort_of_apart (apart : es.Pairwise Apart)
    (proper : ∀ e ∈ es, e.start < e.stop) :
    (es.mergeSort fun e e' => e.start ≤ e'.start).Pairwise fun e e' => e.stop ≤ e'.start := by
  have perm := mergeSort_perm es fun e e' => e.start ≤ e'.start
  have sorted : (es.mergeSort fun e e' => e.start ≤ e'.start).Pairwise fun e e' =>
      decide (e.start ≤ e'.start) = true :=
    pairwise_mergeSort (by simp; omega) (by simp; omega) es
  refine (sorted.and ((perm.pairwise_iff fun h => h.symm).mpr apart)).imp_of_mem ?_
  rintro e e' _ mem ⟨le, apart⟩
  have lt := proper e' (perm.mem_iff.mp mem)
  have le : e.start ≤ e'.start := of_decide_eq_true le
  rcases apart with apart | apart
  · exact apart
  · omega

theorem shown_of_tokens (h : tokens source = .ok ts) : Shown ts := by
  have tiles := tiles_of_tokensOf readWord_faithful h
  refine ⟨inOrder_of_tokens h, fun name s hs => ?_⟩
  have text : s.text source = name := tiles.spelled _ hs _ name rfl rfl
  have named : isName name = true := named_of_tokens h _ hs name rfl
  by_contra le
  have none : s.stop - s.start = 0 := by omega
  rw [Span.text, none] at text
  subst text
  cases named

end Places

def ClassDef.extents (c : ClassDef) : List Span :=
  c.fields.map (·.extent) ++ c.methods.map (·.extent)

/-- The members of a class stand one behind the other in its body, each where its extent says. The
body is its lines, one behind the other, each with the block that belongs to it. -/
theorem extents_of_parse {m : Module} {c : ClassDef} (ht : tokens source = .ok ts)
    (hm : parse source = .ok m) (hc : c ∈ m.classes) :
    (c.extents.mergeSort fun e e' => e.start ≤ e'.start).Pairwise (fun e e' => e.stop ≤ e'.start) ∧
      (∀ e ∈ c.extents, e.start < e.stop ∧ e.stop ≤ source.toList.length) ∧
      (∀ d ∈ c.methods, HoldsNames d) ∧
      ∃ before header s body after fin, ts = before ++ ⟨.word .classKeyword, c.span⟩ ::
          (header ++ ⟨.word .colon, s⟩ :: (body ++ (after ++ [⟨.eof, fin⟩]))) ∧
        HeaderAt c.name header ∧ MembersAt after body c.fields c.methods := by
  obtain ⟨whole, fin, rfl, parsed⟩ := exists_parse_eq ht
  obtain ⟨cs, run, rfl⟩ := exists_of_map (parsed.symm.trans hm)
  obtain ⟨ds, rest, left, ⟨before, eq⟩, read⟩ := exists_classDef run hc
  rw [classDef_eq] at read
  obtain ⟨⟨head, behind⟩, hh, read⟩ := exists_of_bind read
  obtain ⟨⟨members, after⟩, hb, built⟩ := exists_of_map read
  obtain ⟨same, rfl⟩ : _ = c ∧ after = left := Prod.mk.inj built
  subst eq
  have shown := (shown_of_tokens ht).sublist (sublist_append_left _ _)
  have lexed := lexed_of_tokens ht
  rw [append_cons] at lexed
  obtain ⟨header, s, rfl, headerAt⟩ := exists_headerAt lexed.skeleton hh
  rw [← append_assoc] at lexed
  obtain ⟨body, rfl, membersAt⟩ := exists_membersAt lexed hb
  have named : head.1 = c.name := congrArg ClassDef.name same
  have fields : members.fields = c.fields := congrArg ClassDef.fields same
  have methods : members.methods = c.methods := congrArg ClassDef.methods same
  rw [fields, methods] at membersAt
  have sub : body.Sublist (before ++ ⟨.word .classKeyword, c.span⟩ ::
      (header ++ ⟨.word .colon, s⟩ :: (body ++ after))) :=
    ((((sublist_append_left body after).cons _).trans (sublist_append_right header _)).cons _).trans
      (sublist_append_right before _)
  obtain ⟨apart, covered, held⟩ := membersAt.extents (shown.sublist sub)
  refine ⟨pairwise_mergeSort_of_apart apart fun e he => (covered e he).1, fun e he => ?_, held,
    before, header, s, body, after, fin, by simp, named ▸ headerAt, membersAt⟩
  obtain ⟨lt, _, u, hu, stop⟩ := covered e he
  have inside := ((tiles_of_tokensOf readWord_faithful ht).within u
    (mem_append_left _ (sub.subset hu))).2
  exact ⟨lt, stop ▸ inside⟩

/-- Fields on both sides of a decorated method and of one with a block. -/
theorem extents_of_parse_members :
    let source := "class A:\n    x: int = 1\n    @p\n    async def f(self, a: int) -> int: pass\n" ++
      "    def g(self):\n        return 1\n    y = 2\n"
    ∃ ts m c, tokens source = .ok ts ∧ parse source = .ok m ∧ c ∈ m.classes ∧
      c.extents.map (fun e => (e.start, e.stop)) = [(13, 23), (112, 117), (28, 73), (78, 107)] ∧
      (c.extents.mergeSort fun e e' => e.start ≤ e'.start).Pairwise (fun e e' => e.stop ≤ e'.start) ∧
      ∀ d ∈ c.methods, HoldsNames d := by
  intro source
  have read : (parse source).toOption.map (·.classes.map fun c =>
      c.extents.map fun e => (e.start, e.stop)) =
      some [[(13, 23), (112, 117), (28, 73), (78, 107)]] := by decide +kernel
  have lexed : (tokens source).isOk = true := by decide +kernel
  obtain ⟨m, hm, shape⟩ := Option.map_eq_some_iff.mp read
  have hm := eq_ok_of_toOption hm
  obtain ⟨ts, ht⟩ := exists_ok_of_isOk lexed
  obtain ⟨c, only, placed⟩ := map_eq_singleton_iff.mp shape
  have hc : c ∈ m.classes := by simp [only]
  obtain ⟨sorted, _, held, _⟩ := extents_of_parse ht hm hc
  exact ⟨ts, m, c, ht, hm, hc, placed, sorted, held⟩

end ViewBridge.Classes
