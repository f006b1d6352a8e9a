import ViewBridge.Proofs.Classes.Hushed
import ViewBridge.Proofs.Model.Copied

namespace ViewBridge.Model

open List

open Classes (Quoted StringBody Shut closing Kind Word readWord)

variable {margin width : Nat} {quote b : Char} {long : Bool} {cs cs' body lead more : List Char}

theorem Copied.prefix_of_copy {word : List Char} (h : Copied margin width cs cs')
    (hw : ∀ c ∈ word, Text.isBlank c = false) (hp : word <+: cs') : word <+: cs := by
  induction word generalizing cs cs' with
  | nil => exact nil_prefix
  | cons c word ih =>
    obtain ⟨hc, hw⟩ := forall_mem_cons.mp hw
    obtain ⟨more, rfl⟩ := hp
    generalize eq : c :: word ++ more = text at h
    cases h with
    | done => cases eq
    | char _ rest =>
      cases eq
      exact cons_prefix_cons.mpr ⟨rfl, ih rest hw (prefix_append ..)⟩
    | lineEnd =>
      cases eq
      rw [isBlank_newline] at hc
      cases hc

section Strings

theorem isBlank_backslash : Text.isBlank '\\' = false := by decide

theorem closing_code (hq : Text.isBlank quote = false) :
    ∀ c ∈ closing quote long, Text.isBlank c = false := by
  intro c hc
  rw [eq_of_mem_replicate hc]
  exact hq

theorem closing_prefix_ne_blank (hq : Text.isBlank quote = false) (hb : Text.isBlank b = true) :
    ¬closing quote long <+: b :: cs := by
  intro hp
  have first : b = quote := by
    cases long with
    | false => exact (cons_prefix_cons.mp hp).1.symm
    | true => exact (Classes.closing_prefix_iff.mp hp).1
  rw [first, hq] at hb
  cases hb

theorem quoted_of_blank (h : Quoted quote long (b :: cs)) (hq : Text.isBlank quote = false)
    (hb : Text.isBlank b = true) : Quoted quote long cs ∧ (b = '\n' → long = true) := by
  generalize eq : b :: cs = text at h
  cases h with
  | close =>
    have mem : b ∈ closing quote long := by rw [← eq]; exact mem_cons_self
    rw [closing_code hq b mem] at hb
    cases hb
  | escape =>
    cases eq
    rw [isBlank_backslash] at hb
    cases hb
  | char _ _ hn quoted =>
    cases eq
    exact ⟨quoted, hn⟩

theorem quoted_of_blanks (h : Quoted quote long (lead ++ cs)) (hq : Text.isBlank quote = false)
    (hl : ∀ b ∈ lead, Text.isBlank b = true) : Quoted quote long cs := by
  induction lead with
  | nil => exact h
  | cons b lead ih =>
    obtain ⟨hb, hl⟩ := forall_mem_cons.mp hl
    exact ih (quoted_of_blank h hq hb).1 hl

theorem quoted_blank (h : Quoted quote long cs) (hq : Text.isBlank quote = false)
    (hb : Text.isBlank b = true) (hn : b = '\n' → long = true) : Quoted quote long (b :: cs) := by
  refine .char ?_ (closing_prefix_ne_blank hq hb) hn h
  rintro rfl
  rw [isBlank_backslash] at hb
  cases hb

theorem quoted_blanks (h : Quoted quote long cs) (hq : Text.isBlank quote = false)
    (hl : Blanks lead) : Quoted quote long (lead ++ cs) := by
  induction lead with
  | nil => exact h
  | cons b lead ih =>
    obtain ⟨hb, hl⟩ := forall_mem_cons.mp hl
    exact quoted_blank (ih hl) hq hb.1 fun eq => absurd eq hb.2

theorem quoted_split {d : Char} (h : Quoted quote long body) (hq : Text.isBlank quote = false)
    (hl : ∀ b ∈ lead, Text.isBlank b = true) (eq : body ++ cs = lead ++ d :: more) :
    ∃ rest, body = lead ++ d :: rest ∧ more = rest ++ cs := by
  have code : ¬∀ b ∈ body, Text.isBlank b = true := by
    intro blank
    have mark := blank quote h.quote_mem
    rw [hq] at mark
    cases mark
  rcases append_eq_append_iff.mp eq with ⟨rest, rfl, tail⟩ | ⟨rest, rfl, tail⟩
  · exact absurd (fun b hb => hl b (mem_append_left _ hb)) code
  · cases rest with
    | nil => exact absurd (fun b hb => hl b (by simpa using hb)) code
    | cons e rest =>
      obtain ⟨rfl, rfl⟩ := List.cons.inj tail
      exact ⟨rest, rfl, rfl⟩

/-- What the copy of a string and of the text behind it is made of. -/
def CopiesString (margin width : Nat) (quote : Char) (long : Bool) (cs cs' : List Char) : Prop :=
  ∃ body cs'', cs' = body ++ cs'' ∧ Quoted quote long body ∧ Copied margin width cs cs''

theorem CopiesString.newline (h : CopiesString margin width quote long cs cs')
    (hq : Text.isBlank quote = false) (hl : long = true) :
    CopiesString margin width quote long cs ('\n' :: cs') := by
  obtain ⟨body, cs'', rfl, quoted, copied⟩ := h
  exact ⟨'\n' :: body, cs'', rfl, quoted_blank quoted hq isBlank_newline fun _ => hl, copied⟩

theorem CopiesString.escape (h : CopiesString margin width quote long cs cs') (e : Char) :
    CopiesString margin width quote long cs ('\\' :: e :: cs') := by
  obtain ⟨body, cs'', rfl, quoted, copied⟩ := h
  exact ⟨'\\' :: e :: body, cs'', rfl, .escape quoted, copied⟩

theorem CopiesString.blanks (h : CopiesString margin width quote long cs cs')
    (hq : Text.isBlank quote = false) (hl : Blanks lead) :
    CopiesString margin width quote long cs (lead ++ cs') := by
  obtain ⟨body, cs'', rfl, quoted, copied⟩ := h
  exact ⟨lead ++ body, cs'', (append_assoc ..).symm, quoted_blanks quoted hq hl, copied⟩

theorem blanks_indent (h : Blanks lead) :
    Blanks (List.replicate width ' ' ++ lead.drop margin) := by
  intro b hb
  rcases mem_append.mp hb with hb | hb
  · rw [eq_of_mem_replicate hb]
    decide
  · exact h b (mem_of_mem_drop hb)

theorem closing_prefix_of_copy {c : Char} {body' cs'' : List Char} (hq : Text.isBlank quote = false)
    (copied : Copied margin width (body ++ cs) (body' ++ cs'')) (h : Quoted quote long body)
    (hp : closing quote long <+: c :: body') : closing quote long <+: c :: body := by
  obtain ⟨tail, marks⟩ : ∃ tail, closing quote long = quote :: tail := by
    cases long <;> exact ⟨_, rfl⟩
  have length := h.closing_suffix.length_le
  have codes : ∀ d ∈ tail, Text.isBlank d = false :=
    fun d hd => closing_code hq d (by rw [marks]; exact mem_cons_of_mem _ hd)
  rw [marks] at hp length ⊢
  obtain ⟨rfl, rest⟩ := cons_prefix_cons.mp hp
  have start : tail <+: body ++ cs := copied.prefix_of_copy codes (rest.trans (prefix_append ..))
  rw [length_cons] at length
  have within : tail <+: body :=
    prefix_of_prefix_length_le start (prefix_append ..) (by omega)
  exact cons_prefix_cons.mpr ⟨rfl, within⟩

theorem copiesString (hq : Text.isBlank quote = false) (h : Quoted quote long body) :
    (∀ cs', Copied margin width (body ++ cs) cs' → CopiesString margin width quote long cs cs') ∧
      ∀ cs', Begun margin width (body ++ cs) cs' → CopiesString margin width quote long cs cs' := by
  induction hn : body.length using Nat.strong_induction_on generalizing body with
  | _ n ih =>
    -- Behind the end of a line the rest of the string is shorter.
    have behind {blanks body more cs' : List Char} (length : body.length ≤ n)
        (quoted : Quoted quote long body) (hb : Blanks blanks)
        (eq : body ++ cs = blanks ++ '\n' :: more) (begun : Begun margin width more cs') :
        long = true ∧ CopiesString margin width quote long cs cs' := by
      obtain ⟨rest, rfl, rfl⟩ := quoted_split quoted hq (fun b hm => (hb b hm).1) eq
      have line := quoted_of_blanks quoted hq fun b hm => (hb b hm).1
      obtain ⟨inner, spans⟩ := quoted_of_blank line hq isBlank_newline
      rw [length_append, length_cons] at length
      exact ⟨spans rfl, (ih rest.length (by omega) inner rfl).2 cs' begun⟩
    have inside : ∀ body, body.length = n → Quoted quote long body → ∀ cs',
        Copied margin width (body ++ cs) cs' → CopiesString margin width quote long cs cs' := by
      intro body hn quoted cs' copied
      cases quoted with
      | close =>
        obtain ⟨cs'', rfl, rest⟩ := copied.codes (closing_code hq)
        exact ⟨_, cs'', rfl, .close, rest⟩
      | @escape e body inner =>
        obtain ⟨rest', rfl, rest⟩ := copied.code isBlank_backslash
        rw [length_cons, length_cons] at hn
        have shorter : body.length < n := by omega
        generalize eq : (e :: body).append cs = text at rest
        cases rest with
        | done => cases eq
        | char _ rest =>
          cases eq
          exact ((ih _ shorter inner rfl).1 _ rest).escape _
        | @lineEnd blanks more cs' hb begun =>
          cases blanks with
          | nil =>
            cases eq
            exact ((ih _ shorter inner rfl).2 _ begun).escape _
          | cons b blanks =>
            obtain ⟨rfl, tail⟩ := List.cons.inj eq
            have after := behind (by omega) inner (forall_mem_cons.mp hb).2 tail begun
            exact after.2.escape _
      | @char c body hc hp hs inner =>
        generalize eq : (c :: body) ++ cs = text at copied
        cases copied with
        | done => cases eq
        | char _ rest =>
          cases eq
          rw [length_cons] at hn
          obtain ⟨body', cs'', rfl, quoted, behind⟩ := (ih _ (by omega) inner rfl).1 _ rest
          have open_quote : ¬closing quote long <+: c :: body' :=
            fun closed => hp (closing_prefix_of_copy hq rest inner closed)
          exact ⟨c :: body', cs'', rfl, .char hc open_quote hs quoted, behind⟩
        | @lineEnd blanks more cs' hb begun =>
          have after := behind (by omega) (.char hc hp hs inner) hb eq begun
          exact after.2.newline hq after.1
    refine ⟨inside body hn h, fun cs' begun => ?_⟩
    generalize eq : body ++ cs = text at begun
    cases begun with
    | empty hb begun =>
      have after := behind (by omega) h hb eq begun
      exact after.2.newline hq after.1
    | @code lead d more more' hl hd copied =>
      obtain ⟨rest, rfl, rfl⟩ := quoted_split h hq (fun b hm => (hl b hm).1) eq
      have inner := quoted_of_blanks h hq fun b hm => (hl b hm).1
      have line : Copied margin width (d :: rest ++ cs) (d :: more') :=
        .char (ne_newline_of_code hd) copied
      have string : CopiesString margin width quote long cs (d :: more') := by
        rw [length_append] at hn
        by_cases first : lead = []
        · subst first
          exact inside (d :: rest) (by simpa using hn) inner _ line
        · have some := length_pos_iff.mpr first
          exact (ih _ (by omega) inner rfl).1 _ line
      exact string.blanks hq (blanks_indent hl)

theorem copied_stringBody {text : List Char} (hq : Text.isBlank quote = false) (hs : quote ≠ '\\')
    (h : StringBody quote text) (copied : Copied margin width (text ++ cs) cs')
    (shut : Shut quote text (cs ++ more)) (behind : List Char) :
    ∃ text' cs'', cs' = text' ++ cs'' ∧ StringBody quote text' ∧ Copied margin width cs cs'' ∧
      Shut quote text' (cs'' ++ '\n' :: behind) := by
  cases h with
  | @long body quoted =>
    have quotes : ∀ c ∈ [quote, quote], Text.isBlank c = false := by simp [hq]
    have opening : Copied margin width ([quote, quote] ++ (body ++ cs)) cs' := copied
    obtain ⟨rest', rfl, rest⟩ := opening.codes quotes
    obtain ⟨body', cs'', rfl, quoted', rest⟩ := (copiesString hq quoted).1 _ rest
    exact ⟨quote :: quote :: body', cs'', rfl, .long quoted', rest, nofun⟩
  | short quoted =>
    obtain ⟨body', cs'', rfl, quoted', rest⟩ := (copiesString hq quoted).1 _ copied
    refine ⟨body', cs'', rfl, .short quoted', rest, ?_⟩
    rintro rfl next
    -- The text starts with the quote that closes the empty string, as its copy does.
    have start : [quote] <+: text ++ cs := copied.prefix_of_copy (by simp [hq]) ⟨cs'', rfl⟩
    have empty : text = [quote] := by
      cases quoted with
      | close => rfl
      | escape => exact absurd (cons_prefix_cons.mp start).1 hs
      | char _ hp =>
        have first := (cons_prefix_cons.mp start).1
        exact absurd (cons_prefix_cons.mpr ⟨first, nil_prefix⟩) hp
    cases cs'' with
    | nil =>
      obtain rfl : '\n' = quote := Option.some.inj next
      rw [isBlank_newline] at hq
      cases hq
    | cons d cs'' =>
      obtain rfl : d = quote := Option.some.inj next
      have first : [d] <+: cs := rest.prefix_of_copy (by simp [hq]) ⟨cs'', rfl⟩
      obtain ⟨cs, rfl⟩ := first
      exact shut empty rfl

end Strings

section Words

variable {previous previous' : Option Kind} {c : Char} {text behind : List Char}
  {w : Word}

/-- A word does not end with a blank. -/
theorem isBlank_of_readWord_last {n : Nat} (h : readWord previous c cs = .ok (.word w n)) :
    ∀ d ∈ (cs.take n).getLast?, Text.isBlank d = false := by
  by_cases hw : ∃ said, w = .string said
  · obtain ⟨said, rfl⟩ := hw
    obtain ⟨front, body, raw, quote, opening, rfl, string⟩ := Classes.readWord_opensString h
    obtain ⟨text, rest, rfl, rfl, stringBody, _⟩ :=
      Classes.exists_of_readString opening.ne_slash string
    intro d hd
    rw [← append_assoc, ← length_append, take_left, getLast?_append,
      stringBody.getLast?] at hd
    cases hd
    rcases opening.isQuote with rfl | rfl <;> decide
  · have split := takeWhile_append_dropWhile (p := fun d => !Classes.isParting d) (l := cs)
    have parted : Classes.Parted (cs.dropWhile fun d => !Classes.isParting d) := by
      intro d hd
      have stop := head?_dropWhile_not (fun d => !Classes.isParting d) cs
      rw [Option.mem_def.mp hd] at stop
      exact Classes.goesOn_of_isParting (by simpa using stop)
    rw [← split] at h
    obtain ⟨_, length⟩ := Classes.readWord_append_parted (not_exists.mp hw) rfl parted parted h
    intro d hd
    rw [← split, take_append_of_le_length length] at hd
    have word := mem_takeWhile_imp (mem_of_mem_take (mem_of_getLast? hd))
    simp only [Classes.isParting, Bool.not_eq_true', Bool.or_eq_false_iff] at word
    exact word.1.1

theorem isBlank_of_goesOn (h : Classes.goesOn c = true) : Text.isBlank c = false := by
  cases blank : Text.isBlank c with
  | false => rfl
  | true =>
    have parting : Classes.isParting c = true := by simp [Classes.isParting, blank]
    rw [Classes.goesOn_of_isParting parting] at h
    cases h

theorem Opening.code {front : List Char} {raw : Bool} (h : Classes.Opening c front raw quote) :
    ∀ d ∈ front, Text.isBlank d = false := by
  cases h with
  | bare => exact nofun
  | marked _ hn hq =>
    intro d hd
    rcases mem_append.mp hd with hd | hd
    · exact isBlank_of_goesOn (by simp [Classes.goesOn, hn d hd])
    · obtain rfl := mem_singleton.mp hd
      rcases hq with rfl | rfl <;> decide

theorem Copied.word_of_string (copied : Copied margin width (text ++ cs) cs')
    (hw : ∃ said, w = .string said)
    (read : readWord previous c (text ++ (cs ++ behind)) = .ok (.word w text.length))
    (previous' : Option Kind) (more : List Char) :
    ∃ text' cs'' said, cs' = text' ++ cs'' ∧ Copied margin width cs cs'' ∧
      readWord previous' c (text' ++ (cs'' ++ '\n' :: more)) =
        .ok (.word (.string said) text'.length) := by
  obtain ⟨said, rfl⟩ := hw
  obtain ⟨front, body, raw, quote, opening, eq, string⟩ := Classes.readWord_opensString read
  have slash := opening.ne_slash
  obtain ⟨inner, rest, rfl, length, stringBody, shut, _⟩ := Classes.exists_of_readString slash string
  have hq : Text.isBlank quote = false := by rcases opening.isQuote with rfl | rfl <;> decide
  rw [← append_assoc front] at eq
  obtain ⟨rfl, rfl⟩ := append_inj eq (by rw [length_append]; exact length)
  rw [append_assoc] at copied
  obtain ⟨rest', rfl, inside⟩ := copied.codes (Opening.code opening)
  obtain ⟨inner', cs'', rfl, stringBody', copied', shut'⟩ :=
    copied_stringBody hq slash stringBody inside shut more
  obtain ⟨said', hr⟩ := stringBody'.exists_readString slash raw front.length
  refine ⟨front ++ inner', cs'', said', (append_assoc ..).symm, copied', ?_⟩
  rw [append_assoc, opening.readWord_eq, hr _ shut', length_append]

theorem Copied.word_of_ne (copied : Copied margin width (text ++ cs) cs')
    (hw : ∀ said, w ≠ .string said)
    (read : readWord previous c (text ++ (cs ++ behind)) = .ok (.word w text.length))
    (hb : Classes.Parted behind)
    (hp : previous.any Classes.endsOperand = previous'.any Classes.endsOperand)
    (more : List Char) :
    ∃ cs'', cs' = text ++ cs'' ∧ Copied margin width cs cs'' ∧
      readWord previous' c (text ++ (cs'' ++ '\n' :: more)) = .ok (.word w text.length) := by
  obtain ⟨word, rest, rest', eq, eq', plain, parted, parted'⟩ := copied.exists_parted hb more
  rw [append_assoc] at eq
  rw [eq] at read
  obtain ⟨read', length⟩ := Classes.readWord_append_parted hw hp parted parted' read
  have start : text <+: word :=
    prefix_of_prefix_length_le ⟨cs ++ behind, eq⟩ (prefix_append ..) length
  have codes : ∀ d ∈ text, Text.isBlank d = false := by
    intro d hd
    have inside := plain d (start.subset hd)
    simp only [Classes.isParting, Bool.or_eq_false_iff] at inside
    exact inside.1.1
  obtain ⟨cs'', rfl, copied'⟩ := copied.codes codes
  refine ⟨cs'', rfl, copied', ?_⟩
  rw [← append_assoc, eq']
  exact read'

/-- A word of a text and the word that its copy is read as, which may say something else if it is a
string. -/
theorem Copied.word (copied : Copied margin width (text ++ cs) cs')
    (read : readWord previous c (text ++ (cs ++ behind)) = .ok (.word w text.length))
    (hb : Classes.Parted behind)
    (hp : previous.any Classes.endsOperand = previous'.any Classes.endsOperand)
    (more : List Char) :
    ∃ text' cs'' w', cs' = text' ++ cs'' ∧ Copied margin width cs cs'' ∧
      readWord previous' c (text' ++ (cs'' ++ '\n' :: more)) = .ok (.word w' text'.length) ∧
      w'.hushed = w.hushed := by
  by_cases hw : ∃ said, w = .string said
  · obtain ⟨text', cs'', said', eq, copied', read'⟩ :=
      copied.word_of_string hw read previous' more
    obtain ⟨said, rfl⟩ := hw
    exact ⟨text', cs'', .string said', eq, copied', read', rfl⟩
  · rw [not_exists] at hw
    obtain ⟨cs'', eq, copied', read'⟩ := copied.word_of_ne hw read hb hp more
    exact ⟨text, cs'', w, eq, copied', read', rfl⟩

end Words

end ViewBridge.Model
