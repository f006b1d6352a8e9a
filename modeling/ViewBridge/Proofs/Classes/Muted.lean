import ViewBridge.Proofs.Classes.Hushed
import ViewBridge.Proofs.Classes.Members

namespace ViewBridge.Classes

open List

/-- Tokens without what their strings say. -/
def mute (ts : List Token) : List Token := ts.map fun t => ⟨hushed t.kind, t.span⟩

def Decorator.label (d : Decorator) : String × Bool := (d.name, d.hasArgs)

/-- What a method shows of itself: its name, those of its parameters, its decorators and what sort
of method it is. -/
structure Signature where
  name : String
  params : List String
  decorators : List (String × Bool)
  isStatic : Bool
  isConstructor : Bool
  deriving DecidableEq

def Method.signature (m : Method) : Signature :=
  ⟨m.name, m.params.map (·.name), m.decorators.map Decorator.label, m.isStatic, m.isConstructor⟩

/-- The names of fields and the signatures of methods. -/
structure Interface where
  fields : List String := []
  methods : List Signature := []
  deriving DecidableEq

def Interface.append (i j : Interface) : Interface := ⟨i.fields ++ j.fields, i.methods ++ j.methods⟩

def Members.interface (ms : Members) : Interface :=
  ⟨ms.fields.map (·.name), ms.methods.map Method.signature⟩

theorem Members.interface_append (ms ns : Members) :
    (ms.append ns).interface = ms.interface.append ns.interface := by
  simp only [Members.append, Members.interface, Interface.append, map_append]

theorem Method.signature_shown (loud : Bool) (m : Method) :
    (m.shown loud).signature = m.signature := by
  simp only [Method.signature, Method.shown, Method.unplaced, map_map]
  rfl

theorem mute_append (ts us : List Token) : mute (ts ++ us) = mute ts ++ mute us := map_append

theorem length_mute (ts : List Token) : (mute ts).length = ts.length := length_map _

theorem mute_cons (k : Kind) (s : Span) (ts : List Token) :
    mute (⟨k, s⟩ :: ts) = ⟨hushed k, s⟩ :: mute ts := rfl

theorem startsBlock_mute (ts : List Token) : startsBlock (mute ts) = startsBlock ts := by
  cases ts with
  | nil => rfl
  | cons t ts =>
    obtain ⟨k, s⟩ := t
    cases k <;> rfl

theorem behindClosing_mute {opens closes : Kind → Bool}
    (ho : ∀ k, opens (hushed k) = opens k) (hc : ∀ k, closes (hushed k) = closes k) (depth : Nat)
    (ts : List Token) :
    behindClosing opens closes depth (mute ts) = mute (behindClosing opens closes depth ts) := by
  induction ts generalizing depth with
  | nil => rfl
  | cons t ts ih =>
    obtain ⟨k, s⟩ := t
    simp only [mute_cons, behindClosing, ho, hc]
    split
    · exact ih (depth + 1)
    · split
      · cases depth with
        | zero => rfl
        | succ depth => exact ih depth
      · exact ih depth

theorem behindGroup_mute (depth : Nat) (ts : List Token) :
    behindGroup depth (mute ts) = mute (behindGroup depth ts) :=
  behindClosing_mute (fun k => by cases k <;> rfl) (fun k => by cases k <;> rfl) depth ts

theorem behindBlock_mute (depth : Nat) (ts : List Token) :
    behindBlock depth (mute ts) = mute (behindBlock depth ts) :=
  behindClosing_mute (fun k => by cases k <;> rfl) (fun k => by cases k <;> rfl) depth ts

/-- Two lists of tokens that are related but for what strings say. -/
def Quiet (R : TokenRel Word) (ts ts' : List Token) : Prop :=
  R (mute ts) (mute ts')

section Quiet

variable {m n depth : Nat} {R : TokenRel Word}
  {B : Nat → TokenRel Word} {ts ts' : List Token}

theorem exists_of_mute {k : Kind} {s : Span} {us : List Token}
    (h : mute ts = ⟨k, s⟩ :: us) : ∃ j ts', ts = ⟨j, s⟩ :: ts' ∧ hushed j = k ∧ mute ts' = us := by
  obtain ⟨⟨j, p⟩, ts', rfl, first, others⟩ := map_eq_cons_iff.mp h
  cases first
  exact ⟨j, ts', rfl, rfl, others⟩

theorem steps_quiet (hR : Lockstep m n R) : Steps false m n (Quiet R) where
  tops {ts ts'} h := by
    have heads : Heads R (mute ts) (mute ts') := hR.heads h
    generalize eq : mute ts = us at heads
    generalize eq' : mute ts' = us' at heads
    cases heads with
    | nil =>
      obtain rfl := map_eq_nil_iff.mp eq
      obtain rfl := map_eq_nil_iff.mp eq'
      exact .nil
    | @cons k _ _ _ _ next =>
      obtain ⟨j, ts, rfl, hj, rfl⟩ := exists_of_mute eq
      obtain ⟨j', ts', rfl, hj', rfl⟩ := exists_of_mute eq'
      by_cases string : ∃ text, k = .word (.string text)
      · obtain ⟨text, rfl⟩ := string
        obtain ⟨text, rfl⟩ := exists_string_of_hushed hj
        obtain ⟨text', rfl⟩ := exists_string_of_hushed hj'
        exact .string (by simp) (next (by simp))
      · obtain rfl := eq_of_hushed hj fun text eq => string ⟨text, eq⟩
        obtain rfl := eq_of_hushed hj' fun text eq => string ⟨text, eq⟩
        exact .cons next
  length {ts ts'} h := by
    rw [← length_mute ts, ← length_mute ts']
    exact hR.length h
  group h := by
    rw [Quiet, ← behindGroup_mute, ← behindGroup_mute]
    exact hR.group h

theorem behind_quiet (h : Behind B depth (mute ts) (mute ts')) :
    Behind (fun depth => Quiet (B depth)) depth ts ts' := by
  generalize eq : mute ts = us at h
  generalize eq' : mute ts' = us' at h
  cases h with
  | line start start' hb =>
    subst eq eq'
    exact .line ((startsBlock_mute ts).symm.trans start) ((startsBlock_mute ts').symm.trans start') hb
  | block hb =>
    obtain ⟨k, ts, rfl, hk, rfl⟩ := exists_of_mute eq
    obtain ⟨k', ts', rfl, hk', rfl⟩ := exists_of_mute eq'
    obtain rfl := eq_of_hushed hk (by simp)
    obtain rfl := eq_of_hushed hk' (by simp)
    exact .block hb

theorem lineEnds_quiet (ends : LineEnds R B depth) :
    LineEnds (Quiet R) (fun depth => Quiet (B depth)) depth where
  nil h := ends.nil h
  newline h := behind_quiet (ends.newline h)

theorem block_quiet (hB : Frame m n B) (h : Quiet (B (depth + 1)) ts ts') :
    Quiet (B depth) (behindBlock 0 ts) (behindBlock 0 ts') := by
  rw [Quiet, ← behindBlock_mute, ← behindBlock_mute]
  exact hB.block h

end Quiet

end ViewBridge.Classes
