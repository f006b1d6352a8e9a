import ViewBridge.Proofs.Markup.Represented

namespace ViewBridge.Markup

variable {lines : List (SourceLine Word)} {b : Body} {line : SourceLine Word}

mutual

/-- The number of parts of a widget: itself, its properties, and all below it. -/
def Widget.partCount : Widget → Nat
  | ⟨_, properties, children, canvas, _⟩ =>
    1 + (properties.length + widgetsPartCount children + canvasPartCount canvas)

def widgetsPartCount : List Widget → Nat
  | [] => 0
  | w :: ws => w.partCount + widgetsPartCount ws

def canvasPartCount : List (Canvas Widget) → Nat
  | [] => 0
  | ⟨_, instructions, _⟩ :: blocks => 1 + widgetsPartCount instructions + canvasPartCount blocks

end

def Body.partCount (b : Body) : Nat :=
  b.properties.length + widgetsPartCount b.children + canvasPartCount b.canvas

def Rule.partCount (r : Rule) : Nat :=
  1 + (r.properties.length + widgetsPartCount r.children + canvasPartCount r.canvas)

def rulesPartCount : List Rule → Nat
  | [] => 0
  | r :: rs => r.partCount + rulesPartCount rs

/-- The number of rules, widgets, drawing blocks, instructions and properties of a module. -/
def Module.partCount (m : Module) : Nat :=
  rulesPartCount m.rules + (m.root.map (·.partCount)).getD 0

def isCanvasLine (line : SourceLine Word) : Bool := (headerOf? line).any (isCanvasName ·.1)

/-- Whether no drawing block stands directly in another one below a line. -/
def drawsApart : SourceLine Word → Bool
  | ⟨_, block⟩ => allDrawApart block
where
  allDrawApart : List (SourceLine Word) → Bool
    | [] => true
    | line :: lines =>
      (!isCanvasLine line || !line.block.any isCanvasLine) && drawsApart line && allDrawApart lines

theorem headerOf?_eq_none {p : Property} (h : PropertyOf line p) : headerOf? line = none := by
  cases h
  rfl

theorem BlockOf.canvas_eq_nil_iff (h : BlockOf lines b) :
    b.canvas = [] ↔ lines.any isCanvasLine = false := by
  induction lines generalizing b with
  | nil =>
    cases h
    simp
  | cons line lines ih =>
    rw [List.any_cons, Bool.or_eq_false_iff, isCanvasLine]
    cases h with
    | property ofProperty ofLines => simp [headerOf?_eq_none ofProperty, ih ofLines]
    | child name ofWidget ofLines =>
      cases ofWidget with
      | mk header =>
        simp only [widgetOf] at name
        simp [header, name, ih ofLines]
    | canvas name ofCanvas ofLines =>
      cases ofCanvas with
      | mk header => simp [header, show isCanvasName _ = true from name]

theorem canvasPartCount_eq_zero_iff {blocks : List (Canvas Widget)} :
    canvasPartCount blocks = 0 ↔ blocks = [] := by
  cases blocks with
  | nil => simp [canvasPartCount]
  | cons c blocks => simp [canvasPartCount]

theorem count_eq (line : SourceLine Word) :
    line.count = 1 + SourceLine.count.countAll line.block := by
  cases line
  rfl

theorem drawsApart_eq (line : SourceLine Word) :
    drawsApart line = drawsApart.allDrawApart line.block := by
  cases line
  rfl

/-- A block has a part for each line, unless a drawing block is lost inside another one. -/
theorem blockOf_partCount (size : Nat) (hn : SourceLine.count.countAll lines < size)
    (h : BlockOf lines b) : b.partCount ≤ SourceLine.count.countAll lines ∧
      (b.partCount = SourceLine.count.countAll lines ↔ drawsApart.allDrawApart lines = true) := by
  induction size generalizing lines b with
  | zero => exact absurd hn (Nat.not_lt_zero _)
  | succ size ih =>
    cases h with
    | nil =>
      simp [Body.partCount, widgetsPartCount, canvasPartCount, drawsApart.allDrawApart,
        SourceLine.count.countAll]
    | @property line lines p b ofProperty ofLines =>
      have alone : line.block = [] := by
        cases ofProperty
        rfl
      rw [SourceLine.count.countAll, count_eq, alone] at hn ⊢
      obtain ⟨le, eq⟩ := ih (by omega) ofLines
      have parts : Body.partCount { b with properties := p :: b.properties } =
          1 + b.partCount := by
        simp only [Body.partCount, List.length_cons]
        omega
      have apart : drawsApart.allDrawApart (line :: lines) = true ↔
          drawsApart.allDrawApart lines = true := by
        simp [drawsApart.allDrawApart, drawsApart_eq, alone]
      rw [parts, apart, ← eq, SourceLine.count.countAll]
      omega
    | @child line lines w b name ofWidget ofLines =>
      rw [SourceLine.count.countAll, count_eq] at hn ⊢
      obtain ⟨le, eq⟩ := ih (by omega) ofLines
      cases ofWidget with
      | @mk _ name' span body header ofBlock =>
        obtain ⟨le', eq'⟩ := ih (by omega) ofBlock
        have parts : Body.partCount { b with children := widgetOf name' span body :: b.children } =
            1 + body.partCount + b.partCount := by
          simp only [Body.partCount, widgetsPartCount, widgetOf, Widget.partCount]
          omega
        have apart : drawsApart.allDrawApart (line :: lines) = true ↔
            drawsApart.allDrawApart line.block = true ∧ drawsApart.allDrawApart lines = true := by
          simp [drawsApart.allDrawApart, drawsApart_eq, isCanvasLine, header,
            show isCanvasName name' = false from name]
        rw [parts, apart, ← eq, ← eq']
        omega
    | @canvas line lines c b name ofCanvas ofLines =>
      rw [SourceLine.count.countAll, count_eq] at hn ⊢
      obtain ⟨le, eq⟩ := ih (by omega) ofLines
      cases ofCanvas with
      | @mk _ name' span body header ofBlock none =>
        obtain ⟨le', eq'⟩ := ih (by omega) ofBlock
        have inner : body.partCount =
            widgetsPartCount body.children + canvasPartCount body.canvas := by
          simp [Body.partCount, none]
        have parts : Body.partCount
            { b with canvas := ⟨name', body.children, span⟩ :: b.canvas } =
              1 + widgetsPartCount body.children + b.partCount := by
          simp only [Body.partCount, canvasPartCount]
          omega
        have lost : canvasPartCount body.canvas = 0 ↔ line.block.any isCanvasLine = false := by
          rw [canvasPartCount_eq_zero_iff, ofBlock.canvas_eq_nil_iff]
        have apart : drawsApart.allDrawApart (line :: lines) = true ↔
            line.block.any isCanvasLine = false ∧ drawsApart.allDrawApart line.block = true ∧
              drawsApart.allDrawApart lines = true := by
          simp [drawsApart.allDrawApart, drawsApart_eq, isCanvasLine, header, and_assoc,
            show isCanvasName name' = true from name]
        rw [parts, apart, ← eq, ← eq', ← lost, inner]
        omega

theorem headed_partCount {body : Body} (h : BlockOf line.block body) :
    1 + body.partCount ≤ line.count ∧
      (1 + body.partCount = line.count ↔ drawsApart line = true) := by
  obtain ⟨le, eq⟩ := blockOf_partCount _ (Nat.lt_succ_self _) h
  rw [count_eq, drawsApart_eq, ← eq]
  omega

/-- So has a text. -/
theorem ModuleOf.partCount {m : Module} (h : ModuleOf lines m) :
    m.partCount ≤ SourceLine.count.countAll lines ∧
      (m.partCount = SourceLine.count.countAll lines ↔ ∀ l ∈ lines, drawsApart l = true) := by
  induction h with
  | nil => simp [Module.partCount, rulesPartCount, SourceLine.count.countAll]
  | @rule line lines r m ofRule _ ih =>
    obtain ⟨le, eq⟩ := ih
    have own : r.partCount ≤ line.count ∧ (r.partCount = line.count ↔ drawsApart line = true) := by
      cases ofRule with
      | mk _ ofBlock => exact headed_partCount ofBlock
    obtain ⟨le', eq'⟩ := own
    have parts : Module.partCount { m with rules := r :: m.rules } =
        r.partCount + m.partCount := by
      simp only [Module.partCount, rulesPartCount]
      omega
    rw [parts, SourceLine.count.countAll, List.forall_mem_cons, ← eq, ← eq']
    omega
  | @root line lines w rules ofWidget _ ih =>
    obtain ⟨le, eq⟩ := ih
    have own : w.partCount ≤ line.count ∧ (w.partCount = line.count ↔ drawsApart line = true) := by
      cases ofWidget with
      | mk _ ofBlock => exact headed_partCount ofBlock
    obtain ⟨le', eq'⟩ := own
    have parts : Module.partCount ⟨rules, some w⟩ =
        w.partCount + Module.partCount ⟨rules, none⟩ := by
      simp only [Module.partCount, Option.map_some, Option.map_none, Option.getD_some,
        Option.getD_none]
      omega
    rw [parts, SourceLine.count.countAll, List.forall_mem_cons, ← eq, ← eq']
    omega

/-- Every line of an accepted text stands for one part of its module, under the part in whose block
it is and in its order: a header for the root, a child, a drawing block or an instruction, a line
with a value for a property, a line with an opening angle for a rule. Only what stands in a drawing
block directly inside another one is lost. -/
theorem parse_represents_lines {source : String} {m : Module} (h : parse source = .ok m) :
    ∃ ts fin lines, tokens source = .ok (ts ++ [⟨.eof, fin⟩]) ∧ SpellsLines ts lines ∧
      ModuleOf lines m ∧
      (m.partCount = SourceLine.count.countAll lines ↔ ∀ l ∈ lines, drawsApart l = true) := by
  obtain ⟨ts, fin, lines, ht, spelled, ofLines, _⟩ := exists_represents h
  exact ⟨ts, fin, lines, ht, spelled, ofLines, ofLines.partCount.2⟩

def drawnRule : String :=
  "<A, B@C>:\n    x: 1, 'b'\n    canvas.before:\n        Color:\n            rgb: 1, 0, 0\n" ++
  "Root:\n    y: self.f(2) + 1\n    D:\n"

theorem parse_represents_lines_drawn :
    ∃ m ts fin lines, parse drawnRule = .ok m ∧ m.partCount = 8 ∧
      tokens drawnRule = .ok (ts ++ [⟨.eof, fin⟩]) ∧ SpellsLines ts lines ∧ ModuleOf lines m ∧
      (m.partCount = SourceLine.count.countAll lines ↔ ∀ l ∈ lines, drawsApart l = true) := by
  have read : (parse drawnRule).toOption.any (·.partCount == 8) = true := by decide +kernel
  obtain ⟨m, hm, count⟩ := (Option.any_eq_true _ _).mp read
  have hm := eq_ok_of_toOption hm
  obtain ⟨ts, fin, lines, represented⟩ := parse_represents_lines hm
  exact ⟨m, ts, fin, lines, hm, beq_iff_eq.mp count, represented⟩

/-- A drawing block inside another one. -/
def nestedCanvas : String := "A:\n    canvas:\n        canvas.before:\n            Color:\n"

/-- Two of the four headers are parts of the module, and no others are written again. -/
theorem parse_loses_nested_canvas :
    ∃ m, parse nestedCanvas = .ok m ∧ (Text.lines nestedCanvas.toList).length = 4 ∧
      m.partCount = 2 ∧ m.format 4 = "A:\n    canvas:\n" := by
  have read : (parse nestedCanvas).toOption.any (fun m =>
      m.partCount == 2 && m.format 4 == "A:\n    canvas:\n") = true := by
    decide +kernel
  obtain ⟨m, hm, parts⟩ := (Option.any_eq_true _ _).mp read
  rw [Bool.and_eq_true, beq_iff_eq, beq_iff_eq] at parts
  exact ⟨m, eq_ok_of_toOption hm, by decide, parts⟩

end ViewBridge.Markup
