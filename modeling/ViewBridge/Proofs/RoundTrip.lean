import ViewBridge.Proofs.Markup.Apart
import ViewBridge.Proofs.Markup.Formed

namespace ViewBridge.Markup

/-- The values that are no expressions: any strings, integers, truth values and doubles that are
read from their own text, names, and lists, tuples and calls of such values. -/
def ExpressionFree : Literal → Prop := Plain FloatReadsBack fun _ => False

instance : DecidablePred ExpressionFree := inferInstanceAs (DecidablePred (Plain _ _))

/-- Parsing undoes formatting, at every width, on modules without expressions whose names are
names of the markup and stand where it reads them. -/
theorem parse_format_expressionFree (m : Module) (formed : m.Formed ExpressionFree)
    (width : Nat) : ∃ n, parse (m.format width) = .ok n ∧ n.structureEq m = true := by
  have legible : m.Formed Legible := formed.imp fun v hv =>
    legible_of_plain (hv.imp (fun _ _ => trivial) fun _ h => h.elim)
  rw [parse_format_iff legible]
  intro v hm
  have hv := (m.formed_iff.mp formed).2 v hm
  exact readsBack_of_plain (hv.imp (fun _ h => h) fun _ h => h.elim)

/-- A rule and a root with nested values, drawing blocks and children, and no places. -/
def nestedModule : Module where
  rules := [⟨[⟨"A", ["B", "C.d"]⟩, ⟨"E", []⟩], [⟨"canvas", .tuple [.integer (-5)], .origin⟩],
    [⟨"F", [], [], [⟨"canvas.before", [], .origin⟩], .origin⟩], [], .origin⟩]
  root := some ⟨"g", [⟨"h.i", .list [.tuple [.string "'\\\n"], .tuple [],
      .call "j" [.float (-0.5), .bool true, .name "and"]], .origin⟩,
      ⟨"k", .tuple [.name "l", .tuple [.integer 1, .list []]], .origin⟩], [],
    [⟨"canvas", [⟨"M", [], [], [], .origin⟩], .origin⟩], .origin⟩

theorem parse_format_expressionFree_nested :
    nestedModule.Formed ExpressionFree ∧
      ∃ n, parse (nestedModule.format 0) = .ok n ∧ n.structureEq nestedModule = true := by
  have formed : nestedModule.Formed ExpressionFree := by decide
  exact ⟨formed, parse_format_expressionFree nestedModule formed 0⟩

def numberReadsBack : Kind → Prop
  | .word (.float f) => FloatReadsBack f
  | _ => True

instance : DecidablePred numberReadsBack
  | .word (.float f) => inferInstanceAs (Decidable (FloatReadsBack f))
  | .word (.identifier _) | .word (.integer _) | .word (.string _) | .word (.formatString _)
  | .word .colon | .word .comma | .word .openAngle | .word .closeAngle | .word (.operator _)
  | .indent | .dedent | .newline | .eof | .opening _ | .closing _ => .isTrue trivial

/-- The tokens of a text whose expressions stand apart and whose doubles are read from their own
text. -/
def Respellable (ks : List Kind) : Prop :=
  (∀ slice ∈ itemSlices 0 ks, apart {} slice = true) ∧ ∀ k ∈ ks, numberReadsBack k

instance : DecidablePred Respellable := fun _ => inferInstanceAs (Decidable (_ ∧ _))

theorem readText_accepted {among : List Kind → Prop} {float : Float → Prop}
    {item : Literal} (h : ItemAccepted among float item)
    (ha : ∀ slice, among slice → apart {} slice = true) (hf : ∀ f, float f → FloatReadsBack f) :
    ∃ u, readText item.spelled = some u ∧ u.same item = true := by
  rcases h with plain | ⟨slice, hs, floats, expression, rfl⟩
  · exact readText_plain (plain.imp hf fun _ h => h)
  · have read := expression.readText_apart (fun f hm => hf f (floats f hm)) (ha slice hs)
    exact ⟨_, read, by simp [Literal.same]⟩

/-- Formatting a module that was read from a text, at every width. Its text can always be split
into tokens. It is read as the same module exactly where each item of a value is read from its own
text. And it is if the tokens of the expressions stand apart. -/
theorem parse_format_parsed {source : String} {m : Module} (read : parse source = .ok m)
    (width : Nat) :
    (∃ ts, tokens (m.format width) = .ok ts) ∧
      ((∃ n, parse (m.format width) = .ok n ∧ n.structureEq m = true) ↔
        ∀ v ∈ m.values, ∀ item ∈ parts v,
          ∃ u, readText item.spelled = some u ∧ u.same item = true) ∧
      ∀ ts, tokens source = .ok ts → Respellable (ts.map (·.kind)) →
        ∃ n, parse (m.format width) = .ok n ∧ n.structureEq m = true := by
  obtain ⟨ts, ht, hm⟩ := exists_of_bind read
  have formed := ofTokens_formed ht hm
  have legible : m.Formed Legible := formed.imp fun _ hv => legible_of_accepted hv
  have condition := (parse_format_iff legible width).trans
    (forall₂_congr fun v _ => readsBack_iff v)
  obtain ⟨written, writes, _⟩ := tokens_format legible width
  refine ⟨⟨written, writes⟩, condition, fun ts' ht' respellable => ?_⟩
  obtain rfl : ts = ts' := Except.ok.inj (ht.symm.trans ht')
  rw [condition]
  intro v hv item hi
  have accepted := (m.formed_iff.mp formed).2 v hv item hi
  exact readText_accepted accepted respellable.1 fun f hf => respellable.2 _ hf

/-- A text with operators, calls, dotted names and format strings in its expressions. -/
def operatorsText : String :=
  "<A@B>:\n    x: self.y-1.5 if a<b else f'\x7bc\x7d'\n    y: g(k=-1, * m)[0] .n, \x7bp: ~ q\x7d\n"

theorem parse_format_parsed_operators :
    ∃ m, parse operatorsText = .ok m ∧
      ∃ n, parse (m.format 2) = .ok n ∧ n.structureEq m = true := by
  have accepted : (parse operatorsText).toOption.isSome = true := by decide +kernel
  have respellable : (tokens operatorsText).toOption.any
      (fun ts => decide (Respellable (ts.map (·.kind)))) = true := by
    decide +kernel
  obtain ⟨m, hm⟩ := Option.isSome_iff_exists.mp accepted
  obtain ⟨ts, ht, hr⟩ := (Option.any_eq_true _ _).mp respellable
  have read := eq_ok_of_toOption hm
  exact ⟨m, read, (parse_format_parsed read 2).2.2 ts (eq_ok_of_toOption ht) (of_decide_eq_true hr)⟩

/-- A minus that is apart from its digits in the text is written before them, and is read as a part
of the number then. -/
theorem parse_format_minus_digits :
    ∃ m, parse "A:\n    x: - 5\n" = .ok m ∧
      ¬∃ n, parse (m.format 4) = .ok n ∧ n.structureEq m = true := by
  have differs : (parse "A:\n    x: - 5\n").toOption.any (fun m =>
      !(parse (m.format 4)).toOption.any (·.structureEq m)) = true := by
    decide +kernel
  obtain ⟨m, hm, hn⟩ := (Option.any_eq_true _ _).mp differs
  refine ⟨m, eq_ok_of_toOption hm, ?_⟩
  rintro ⟨n, read, same⟩
  rw [read] at hn
  simp [Except.toOption, same] at hn

end ViewBridge.Markup
