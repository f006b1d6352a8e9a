import ViewBridge.Classes.Token
import ViewBridge.Proofs.Source.Tiling

namespace ViewBridge.Classes

open List

variable {c : Char} {lexeme : Lexeme Word} {cs rest : List Char} {before : Nat}

/-- The text of a word that is kept as it is written. -/
def Word.spelling? : Word → Option String
  | .identifier text | .operator text => some text
  | _ => none

def Word.isNumber : Word → Bool
  | .integer _ | .float _ => true
  | _ => false

theorem exists_string_of_readString {raw : Bool} {quote : Char}
    (h : readString raw quote before rest = .ok lexeme) : ∃ said n, lexeme = .word (.string said) n := by
  unfold readString at h
  simp only at h
  split at h <;> split at h <;> cases h <;> exact ⟨_, _, rfl⟩

theorem exists_number_of_readNumber (h : readNumber c cs = .ok lexeme) :
    ∃ w n, lexeme = .word w n ∧ w.isNumber = true := by
  unfold readNumber readRadixNumber at h
  generalize (if c = '-' then (['-'], cs) else ([], c :: cs)) = parts at h
  obtain ⟨sign, digits⟩ := parts
  simp only at h
  split at h
  next =>
    split at h <;> cases h
    exact ⟨_, _, rfl, rfl⟩
  next =>
    split at h
    next => cases h
    next => split at h <;> split at h <;> cases h <;> exact ⟨_, _, rfl, rfl⟩

theorem keyword?_eq_some {text : String} {w : Word} (h : keyword? text = some w) :
    w = .classKeyword ∨ w = .defKeyword ∨ w = .passKeyword := by
  unfold keyword? at h
  split at h
  next => exact .inl (Option.some.inj h).symm
  split at h
  next => exact .inr (.inl (Option.some.inj h).symm)
  split at h
  next => exact .inr (.inr (Option.some.inj h).symm)
  next => cases h

theorem keyword?_spelling {text s : String}
    (h : ((keyword? text).getD (.identifier text)).spelling? = some s) : text = s := by
  cases hk : keyword? text with
  | none =>
    rw [hk] at h
    exact Option.some.inj h
  | some w =>
    rw [hk] at h
    rcases keyword?_eq_some hk with rfl | rfl | rfl <;> cases h

/-- The name or keyword that a text starts with. -/
def nameWord (c : Char) (cs : List Char) : Word :=
  (keyword? (String.ofList (c :: cs.takeWhile Text.isNamePart))).getD
    (.identifier (String.ofList (c :: cs.takeWhile Text.isNamePart)))

theorem operatorRun_isPrefix (cs : List Char) : operatorRun cs <+: cs := by
  induction cs with
  | nil => exact nil_prefix
  | cons c rest ih =>
    unfold operatorRun
    split
    next => exact (prefix_cons_inj c).mpr ih
    next => exact nil_prefix

theorem operatorWord_spelling {text s : String} (h : (operatorWord text).spelling? = some s) :
    text = s := by
  unfold operatorWord at h
  split at h
  next => cases h
  split at h
  next => cases h
  split at h
  next => cases h
  next => exact Option.some.inj h

/-- Words that are one fixed text each. -/
def Word.isPunctuation : Word → Bool
  | .ellipsis | .dot | .comma | .at | .colon | .pipe | .arrow => true
  | _ => false

/-- The first character of a string and what stands between it and the text behind the quote, with
whether escapes are kept and the quote. -/
inductive Opening (c : Char) : List Char → Bool → Char → Prop
  | bare : c = '\'' ∨ c = '"' → Opening c [] false c
  | marked {name quote} : Text.isNameStart c = true → (∀ d ∈ name, Text.isNamePart d = true) →
      quote = '\'' ∨ quote = '"' →
      stringPrefixes.contains (String.ofList ((c :: name).map Decimal.lowerAscii)) = true →
      Opening c (name ++ [quote]) (((c :: name).map Decimal.lowerAscii).contains 'r') quote

/-- The ways to read a word of class declarations, by its first character. -/
inductive Reading (previous : Option Kind) (c : Char) (cs : List Char) :
    Except Misread (Lexeme Word) → Prop
  | join {lineEnd rest} : c = '\\' → lineEnd = ['\n'] ∨ lineEnd = ['\r', '\n'] →
      cs = lineEnd ++ rest → Reading previous c cs (.ok (.gap lineEnd.length))
  | unjoined : Reading previous c cs (.error ⟨.afterContinuation, 0, 1⟩)
  | string {front body raw quote} : Opening c front raw quote → cs = front ++ body →
      Reading previous c cs (readString raw quote front.length body)
  | number : Text.isDigit c ∨ (c = '.' ∧ cs.head?.any Text.isDigit) ∨
      (c = '-' ∧ cs.head?.any Text.isDigit ∧ !previous.any endsOperand) →
      Reading previous c cs (readNumber c cs)
  | name : Text.isNameStart c = true →
      Reading previous c cs (.ok (.word (nameWord c cs) (cs.takeWhile Text.isNamePart).length))
  | mark {w more} : w.isPunctuation = true → more ≤ cs.length → Reading previous c cs (.ok (.word w more))
  | sign {text more} : cs = text ++ more → String.ofList (c :: text) ∈ [";", ":=", "|="] →
      Reading previous c cs (.ok (.word (.operator (String.ofList (c :: text))) text.length))
  | operator : operatorChars.contains c = true →
      Reading previous c cs (.ok (.word (operatorWord (String.ofList (c :: operatorRun cs)))
        (operatorRun cs).length))
  | invalid : Reading previous c cs (.error ⟨.invalidCharacter c, 0, 1⟩)

section Reading

variable {previous : Option Kind} {n : Nat}

theorem readContinuation_reading (hc : c = '\\') : Reading previous c cs (readContinuation cs) := by
  unfold readContinuation
  split
  next rest => exact .join hc (.inl rfl) (show _ = ['\n'] ++ rest from rfl)
  next rest => exact .join hc (.inr rfl) (show _ = ['\r', '\n'] ++ rest from rfl)
  next => exact .unjoined

theorem readIdentifier_reading (hc : Text.isNameStart c = true) :
    Reading previous c cs (readIdentifier c cs) := by
  unfold readIdentifier
  dsimp only
  split
  next => exact .name hc
  next quote rest eq =>
    split
    next hq =>
      have opening := Opening.marked hc (fun d hd => mem_takeWhile_imp hd) hq.1 hq.2
      have split := takeWhile_append_dropWhile (p := Text.isNamePart) (l := cs)
      rw [eq, append_cons] at split
      have reading : Reading previous c cs _ := .string opening split.symm
      rw [length_append] at reading
      exact reading
    next => exact .name hc

theorem readWord_reading (previous : Option Kind) (c : Char) (cs : List Char) :
    Reading previous c cs (readWord previous c cs) := by
  unfold readWord
  dsimp only
  have mark {w : Word} (hw : w.isPunctuation = true) : Reading previous c cs (.ok (.word w 0)) :=
    .mark hw (Nat.zero_le _)
  refine iteInduction readContinuation_reading fun _ => ?_
  refine iteInduction (fun hc => .string (.bare hc) rfl) fun _ => ?_
  refine iteInduction .number fun _ => ?_
  refine iteInduction readIdentifier_reading fun _ => ?_
  refine iteInduction (fun _ => iteInduction (fun dots => .mark rfl ?_) fun _ => mark rfl) fun _ => ?_
  · rw [← take_append_drop 2 cs, dots]
    exact Nat.le_add_left 2 _
  refine iteInduction (fun _ => mark rfl) fun _ => ?_
  refine iteInduction (fun _ => mark rfl) fun _ => ?_
  refine iteInduction (fun hc => ?_) fun _ => ?_
  · subst hc
    exact .sign (nil_append cs).symm (by decide)
  refine iteInduction (fun hc => iteInduction (fun hn => ?_) fun _ => mark rfl) fun _ => ?_
  · subst hc
    obtain ⟨rest, rfl⟩ := head?_eq_some_iff.mp hn
    exact .sign (show _ = ['='] ++ rest from rfl) (by decide)
  refine iteInduction (fun hc => iteInduction (fun hn => ?_) fun _ => mark rfl) fun _ => ?_
  · subst hc
    obtain ⟨rest, rfl⟩ := head?_eq_some_iff.mp hn
    exact .sign (show _ = ['='] ++ rest from rfl) (by decide)
  refine iteInduction (fun h => .mark rfl ?_) fun _ => ?_
  · obtain ⟨rest, rfl⟩ := head?_eq_some_iff.mp h.2
    exact Nat.le_add_left 1 _
  exact iteInduction .operator fun _ => .invalid

/-- Nothing but the join of two lines is text without a token. -/
theorem exists_of_gap (h : readWord previous c cs = .ok (.gap n)) :
    c = '\\' ∧ ∃ lineEnd rest, cs = lineEnd ++ rest ∧ n = lineEnd.length ∧
      (lineEnd = ['\n'] ∨ lineEnd = ['\r', '\n']) := by
  have hr := readWord_reading previous c cs
  generalize readWord previous c cs = r at h hr
  cases hr with
  | join hc hl eq =>
    cases h
    exact ⟨hc, _, _, eq, rfl, hl⟩
  | string =>
    obtain ⟨said, n, eq⟩ := exists_string_of_readString h
    cases eq
  | number =>
    obtain ⟨w, n, eq, _⟩ := exists_number_of_readNumber h
    cases eq
  | _ => cases h

theorem readWord_faithful : Lexicon.Faithful true Word.spelling? readWord := by
  intro previous c cs lexeme h
  have hr := readWord_reading previous c cs
  generalize readWord previous c cs = r at h hr
  cases hr with
  | join hc hl eq =>
    cases h
    subst hc eq
    rcases hl with rfl | rfl
    · exact .join rfl .nil
    · exact .returnJoin rfl .nil
  | string =>
    obtain ⟨said, n, rfl⟩ := exists_string_of_readString h
    exact fun _ hs => by cases hs
  | number =>
    obtain ⟨w, n, rfl, hw⟩ := exists_number_of_readNumber h
    intro s hs
    cases w <;> cases hw <;> cases hs
  | name =>
    cases h
    intro s hs
    rw [take_takeWhile_length]
    exact keyword?_spelling hs
  | @mark w _ hw =>
    cases h
    intro s hs
    cases w <;> cases hw <;> cases hs
  | sign eq =>
    cases h
    subst eq
    intro s hs
    rw [take_left]
    exact Option.some.inj hs
  | operator =>
    cases h
    intro s hs
    rw [(prefix_iff_eq_take.mp (operatorRun_isPrefix cs)).symm]
    exact operatorWord_spelling hs
  | unjoined | invalid => cases h

end Reading

end ViewBridge.Classes
