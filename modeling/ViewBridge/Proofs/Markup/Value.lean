import ViewBridge.Proofs.Markup.Faults

namespace ViewBridge.Markup

variable {fin s s' : Span} {rest : List Token}

theorem atom_name {text : String} (h : headKind rest ≠ some (.opening .round)) :
    atom fin (⟨.word (.identifier text), s⟩ :: rest) = .ok (.ofName text, rest) := by
  rw [atom_named rfl]
  show nameEnd fin text rest = _
  unfold nameEnd
  split
  next => exact absurd rfl h
  next => rfl

theorem atom_call {callee : String} :
    atom fin (⟨.word (.identifier callee), s⟩ :: ⟨.opening .round, s'⟩ :: rest) =
      (sequence fin .round rest).map fun p => (.call callee p.1, p.2) :=
  atom_named rfl

end ViewBridge.Markup
