import ViewBridge.Proofs.View.References

namespace ViewBridge.Output

/-- The constructors that take a binding: the label of the parameter, and the type of the variable
that is bound. -/
def bindingParameters : List (String × String × String) :=
  [("TextField", "text", "String"), ("Slider", "value", "Double"), ("Toggle", "isOn", "Bool")]

/-- A call that is passed a binding to a variable of a type. -/
def Call.Binds (call : Call) (name type : String) : Prop :=
  ∃ label args, (call.callee, label, type) ∈ bindingParameters ∧ call.args = some args ∧
    labeled label (.raw ("$" ++ name)) ∈ args

/-- A view that is bound to a variable, itself or below. -/
def View.Binds (v : View) (name type : String) : Prop :=
  ∃ call, v.Calls call ∧ call.Binds name type

/-- A declared view whose variables fit what its body is bound to: no name is declared twice, each
binding is to a variable of its type, and a variable that is not for a size is bound somewhere. -/
structure ViewStruct.StateFits (s : ViewStruct) : Prop where
  distinct : (s.state.map (·.name)).Nodup
  declared : ∀ name type, s.body.Binds name type → ∃ v ∈ s.state, v.name = name ∧ v.type = type
  bound : ∀ v ∈ s.state, v.name ≠ "dynamicWidth" → v.name ≠ "dynamicHeight" →
    s.body.Binds v.name v.type

theorem View.Binds.of_append_modifiers {v : View} {name type : String} {ms : List (Modifier View)}
    (flat : ∀ m ∈ ms, m.IsFlat)
    (h : View.Binds { v with modifiers := v.modifiers ++ ms } name type) : v.Binds name type := by
  obtain ⟨call, ⟨n, hn, hc⟩, hb⟩ := h
  rw [v.nodes_append_flat flat 0] at hn
  refine ⟨call, ?_, hb⟩
  rcases List.mem_cons.mp hn with rfl | hn
  · exact ⟨(0, v), by rw [View.nodes_eq]; exact List.mem_cons_self, hc⟩
  · exact ⟨n, List.mem_of_mem_tail hn, hc⟩

theorem Call.not_binds_bare (callee name type : String) : ¬(Call.bare callee).Binds name type := by
  rintro ⟨_, _, _, args, _⟩
  cases args

theorem Call.not_binds_nil (callee name type : String) :
    ¬(Call.withArgs callee []).Binds name type := by
  rintro ⟨_, _, _, args, hm⟩
  cases args
  cases hm

end ViewBridge.Output

namespace ViewBridge.View

open List

open Markup (Widget Rule)
open Output

variable {table : WidgetTable} {v : StateVar} {type callee name type' : String} {vs : List StateVar}
  {seen : List String}

theorem binding_injective {a b : String} (h : "$" ++ a = "$" ++ b) : a = b := by
  have chars := congrArg String.toList h
  rw [String.toList_append, String.toList_append] at chars
  exact String.toList_inj.mp (append_cancel_left chars)

theorem bindingParameters_unique {label label' : String}
    (h : (callee, label, type) ∈ bindingParameters)
    (h' : (callee, label', type') ∈ bindingParameters) : label = label' ∧ type = type' := by
  simp only [bindingParameters, mem_cons, not_mem_nil, or_false, Prod.mk.injEq] at h h'
  rcases h with ⟨rfl, rfl, rfl⟩ | ⟨rfl, rfl, rfl⟩ | ⟨rfl, rfl, rfl⟩ <;> simp_all

theorem withArgs_binds {bound : String} {args : List (Argument Expr)} (label : String)
    (parameter : (callee, label, type) ∈ bindingParameters)
    (only : ∀ a ∈ args, a.label = some label → a = labeled label (.raw ("$" ++ bound)))
    (passed : labeled label (.raw ("$" ++ bound)) ∈ args) :
    (Call.withArgs callee args).Binds name type' ↔ bound = name ∧ type = type' := by
  constructor
  · rintro ⟨label', args', parameter', hargs, hm⟩
    cases hargs
    obtain ⟨rfl, rfl⟩ := bindingParameters_unique parameter parameter'
    have code := congrArg Argument.value (only _ hm rfl)
    exact ⟨(binding_injective (Expr.raw.inj code)).symm, rfl⟩
  · rintro ⟨rfl, rfl⟩
    exact ⟨label, args, parameter, rfl, passed⟩

theorem construct_stack_callee (comments : Bool) (w : Widget) :
    (construct comments w .stack).call.callee ∉ bindingParameters.map Prod.fst := by
  have callee : (construct comments w .stack).call.callee =
      if isHorizontal w then "HStack" else "VStack" := by
    rw [construct]
    cases propertyExpr? w "spacing" <;> rfl
  rw [callee]
  cases isHorizontal w <;> decide

/-- The constructor of a kind binds the variable that the kind asks for, and no other. -/
theorem construct_binds (comments : Bool) (w : Widget) (kind : ViewKind) :
    (construct comments w kind).call.Binds name type ↔
      ∃ v, bindingVar? kind w = some v ∧ v.name = name ∧ v.type = type := by
  have asked {v : StateVar} (hv : bindingVar? kind w = some v) :
      (∃ u, bindingVar? kind w = some u ∧ u.name = name ∧ u.type = type) ↔
        v.name = name ∧ v.type = type := by
    rw [hv]
    simp
  have unasked (hv : bindingVar? kind w = none)
      (callee : (construct comments w kind).call.callee ∉ bindingParameters.map Prod.fst) :
      (construct comments w kind).call.Binds name type ↔
        ∃ u, bindingVar? kind w = some u ∧ u.name = name ∧ u.type = type := by
    rw [hv]
    constructor
    · rintro ⟨label, args, parameter, _⟩
      exact absurd (mem_map_of_mem parameter) callee
    · rintro ⟨u, hu, _⟩
      cases hu
  cases kind with
  | textField =>
    rw [asked rfl]
    apply withArgs_binds "text"
    · simp [bindingParameters]
    · simp [positional, labeled, binding, bindingName?]
    · simp [binding, bindingName?]
  | slider =>
    rw [asked rfl]
    apply withArgs_binds "value"
    · simp [bindingParameters]
    · intro a ha labels
      rcases mem_cons.mp ha with rfl | ha
      · rfl
      · split at ha
        · cases mem_singleton.mp ha
          simp [labeled] at labels
        · cases ha
    · simp [binding, bindingName?]
  | toggle =>
    rw [asked rfl]
    apply withArgs_binds "isOn"
    · simp [bindingParameters]
    · simp [positional, labeled, binding, bindingName?]
    · simp [binding, bindingName?]
  | custom callee =>
    -- The name of a view that is declared elsewhere may be one of those that take bindings.
    constructor
    · intro h
      exact absurd h (Call.not_binds_nil callee name type)
    · rintro ⟨u, hu, _⟩
      cases hu
  | stack => exact unasked rfl (construct_stack_callee comments w)
  | _ => exact unasked rfl (by simp [construct, Call.bare, Call.withArgs, bindingParameters])

def typeByName (name : String) : String :=
  match name.toList.reverse with
  | 't' :: 'x' :: _ => "String"
  | 'e' :: _ => "Double"
  | 'n' :: _ => "Bool"
  | _ => "CGFloat"

theorem typeByName_bindingVar {kind : ViewKind} {w : Widget} (h : bindingVar? kind w = some v) :
    v.type = typeByName v.name := by
  cases kind with
  | textField | slider | toggle =>
    cases h
    simp [typeByName]
  | _ => cases h

theorem typeByName_ownVars {w : Widget} (h : v ∈ ownVars table w) : v.type = typeByName v.name := by
  rcases mem_append.mp h with h | h
  · obtain ⟨kind, _, hv⟩ := Option.bind_eq_some_iff.mp (Option.mem_toList.mp h)
    exact typeByName_bindingVar hv
  · split at h
    · simp only [dynamicVars, mem_cons, not_mem_nil, or_false] at h
      rcases h with rfl | rfl <;> decide
    · cases h

mutual

theorem mem_treeVars (t : Widget) :
    v ∈ treeVars table t ↔ ∃ w, w.Within t ∧ v ∈ ownVars table w := by
  match t with
  | ⟨name, properties, children, canvas, span⟩ =>
    rw [treeVars, mem_append, mem_forestVars children]
    constructor
    · rintro (own | ⟨c, hc, w, hw, hv⟩)
      · exact ⟨_, .self, own⟩
      · exact ⟨w, .child hc hw, hv⟩
    · rintro ⟨w, hw, hv⟩
      cases hw with
      | self => exact .inl hv
      | child hc hw => exact .inr ⟨_, hc, w, hw, hv⟩

theorem mem_forestVars (ts : List Widget) :
    v ∈ treeVars.forestVars table ts ↔ ∃ t ∈ ts, ∃ w, w.Within t ∧ v ∈ ownVars table w := by
  match ts with
  | [] => simp [treeVars.forestVars]
  | t :: ts =>
    rw [treeVars.forestVars, mem_append, mem_treeVars t, mem_forestVars ts]
    simp

end

theorem mem_of_mem_distinctVars (h : v ∈ distinctVars seen vs) : v ∈ vs ∧ v.name ∉ seen := by
  fun_induction distinctVars seen vs with
  | case1 => cases h
  | case2 seen u vs hu ih => exact ⟨List.mem_cons_of_mem _ (ih h).1, (ih h).2⟩
  | case3 seen u vs hu ih =>
    rcases List.mem_cons.mp h with rfl | h
    · exact ⟨List.mem_cons_self, fun hs => hu (List.contains_iff_mem.mpr hs)⟩
    · exact ⟨List.mem_cons_of_mem _ (ih h).1, fun hs => (ih h).2 (List.mem_cons_of_mem _ hs)⟩

theorem nodup_distinctVars (seen : List String) (vs : List StateVar) :
    ((distinctVars seen vs).map (·.name)).Nodup := by
  fun_induction distinctVars seen vs with
  | case1 => exact .nil
  | case2 seen u vs hu ih => exact ih
  | case3 seen u vs hu ih =>
    rw [List.map_cons, List.nodup_cons]
    refine ⟨?_, ih⟩
    intro hm
    obtain ⟨v, hv, same⟩ := List.mem_map.mp hm
    exact (mem_of_mem_distinctVars hv).2 (same ▸ List.mem_cons_self)

theorem exists_mem_distinctVars (h : v ∈ vs) (new : v.name ∉ seen) :
    ∃ u ∈ distinctVars seen vs, u.name = v.name := by
  fun_induction distinctVars seen vs with
  | case1 => cases h
  | case2 seen u vs hu ih =>
    rcases List.mem_cons.mp h with rfl | h
    · exact absurd (List.contains_iff_mem.mp hu) new
    · exact ih h new
  | case3 seen u vs hu ih =>
    by_cases same : u.name = v.name
    · exact ⟨u, List.mem_cons_self, same⟩
    · rcases List.mem_cons.mp h with rfl | h
      · exact absurd rfl same
      · obtain ⟨u', hu', same'⟩ := ih h (by simp [new, Ne.symm same])
        exact ⟨u', List.mem_cons_of_mem _ hu', same'⟩

namespace Builder

open List

variable (b : Builder) {name type : String}

theorem view_call_binds (w : Widget) : (b.view w).call.Binds name type ↔
      ∃ v, (b.table.lookup? w.name).bind (bindingVar? · w) = some v ∧ v.name = name ∧
        v.type = type := by
  have kinds : (b.view w).call.Binds name type ↔
      ∃ v, (b.kind? w.name).bind (bindingVar? · w) = some v ∧ v.name = name ∧ v.type = type := by
    obtain ⟨className, properties, children, canvas, span⟩ := w
    rw [view_eq, node]
    cases b.kind? className with
    | none => simp [Call.not_binds_bare]
    | some kind =>
      rw [Option.bind_some, ← construct_binds b.config.includeComments]
      dsimp only
      split <;> rfl
  rw [kinds, kind?]
  cases b.table.lookup? w.name with
  | some kind => rfl
  | none =>
    rw [Option.none_or]
    split <;> rfl

mutual

theorem within_of_mem_spread {depth d : Nat} {w : Widget} (t : Widget)
    (h : (d, w) ∈ b.spread depth t) : w.Within t := by
  match t with
  | ⟨name, properties, children, canvas, span⟩ =>
    rw [spread, mem_cons] at h
    rcases h with h | h
    · cases h
      exact .self
    · obtain ⟨c, hc, hw⟩ := within_of_mem_spreadAll children h
      exact .child hc hw

theorem within_of_mem_spreadAll {depth d : Nat} {w : Widget} (ts : List Widget)
    (h : (d, w) ∈ b.spreadAll depth ts) : ∃ t ∈ ts, w.Within t := by
  match ts with
  | [] => cases h
  | t :: ts =>
    rw [spreadAll, mem_append] at h
    rcases h with h | h
    · exact ⟨t, mem_cons_self, within_of_mem_spread t h⟩
    · obtain ⟨t', ht', hw⟩ := within_of_mem_spreadAll ts h
      exact ⟨t', mem_cons_of_mem _ ht', hw⟩

end

theorem view_binds (t : Widget) :
    (b.view t).Binds name type ↔ ∃ w, w.Within t ∧ (b.view w).call.Binds name type := by
  constructor
  · rintro ⟨call, ⟨n, hn, rfl⟩, hb⟩
    rw [view_nodes] at hn
    obtain ⟨⟨d, w⟩, hw, rfl⟩ := List.mem_map.mp hn
    exact ⟨w, b.within_of_mem_spread t hw, hb⟩
  · rintro ⟨w, hw, hb⟩
    exact ⟨_, b.view_calls hw, hb⟩

theorem stack_binds (ts : List Widget) : (stack (b.views ts)).Binds name type ↔
      ∃ t ∈ ts, ∃ w, w.Within t ∧ (b.view w).call.Binds name type := by
  constructor
  · rintro ⟨call, ⟨n, hn, rfl⟩, hb⟩
    rw [views_eq_map] at hn
    match ts with
    | [] =>
      cases List.mem_singleton.mp hn
      exact absurd hb (Call.not_binds_nil _ _ _)
    | [only] =>
      obtain ⟨w, hw, hb⟩ := (b.view_binds only).mp ⟨_, ⟨n, hn, rfl⟩, hb⟩
      exact ⟨only, List.mem_singleton_self only, w, hw, hb⟩
    | first :: second :: others =>
      rw [map_cons, map_cons, stack_nodes, ← map_cons, ← map_cons, views_nodes] at hn
      rcases List.mem_cons.mp hn with rfl | hn
      · exact absurd hb (Call.not_binds_bare _ _ _)
      · obtain ⟨⟨d, w⟩, hw, rfl⟩ := List.mem_map.mp hn
        obtain ⟨t, ht, hw⟩ := b.within_of_mem_spreadAll _ hw
        exact ⟨t, ht, w, hw, hb⟩
  · rintro ⟨t, ht, w, hw, hb⟩
    exact ⟨_, b.stack_calls ht hw, hb⟩

/-- The variables that some trees of widgets ask for fit a body that binds what their views bind. -/
theorem stateFits_of_binds {s : ViewStruct} {ts : List Widget}
    (state : s.state = View.stateVars b.table ts)
    (binds : ∀ name type, s.body.Binds name type ↔
      ∃ t ∈ ts, ∃ w, w.Within t ∧ (b.view w).call.Binds name type) : s.StateFits where
  distinct := by
    rw [state]
    exact nodup_distinctVars [] _
  declared := by
    intro name type h
    obtain ⟨t, ht, w, hw, hb⟩ := (binds name type).mp h
    obtain ⟨v, hv, rfl, rfl⟩ := (b.view_call_binds w).mp hb
    have own : v ∈ ownVars b.table w := List.mem_append_left _ (Option.mem_toList.mpr hv)
    have asked := (mem_forestVars ts).mpr ⟨t, ht, w, hw, own⟩
    obtain ⟨u, hu, same⟩ := exists_mem_distinctVars asked List.not_mem_nil
    obtain ⟨_, _, w', _, own'⟩ := (mem_forestVars ts).mp (mem_of_mem_distinctVars hu).1
    refine ⟨u, state ▸ hu, same, ?_⟩
    rw [typeByName_ownVars own', typeByName_ownVars own, same]
  bound := by
    intro v hv width height
    rw [state] at hv
    obtain ⟨t, ht, w, hw, own⟩ := (mem_forestVars ts).mp (mem_of_mem_distinctVars hv).1
    rcases List.mem_append.mp own with own | size
    · apply (binds _ _).mpr
      exact ⟨t, ht, w, hw, (b.view_call_binds w).mpr ⟨v, Option.mem_toList.mp own, rfl, rfl⟩⟩
    · split at size
      · simp only [dynamicVars, List.mem_cons, List.not_mem_nil, or_false] at size
        rcases size with rfl | rfl
        · exact absurd rfl width
        · exact absurd rfl height
      · cases size

theorem stateVars_eq (on : b.config.generateStateProperties = true) (ts : List Widget) :
    b.stateVars ts = View.stateVars b.table ts := if_pos on

theorem ruleStruct_stateFits (on : b.config.generateStateProperties = true) (r : Rule) :
    (b.ruleStruct r).StateFits := by
  apply b.stateFits_of_binds (b.stateVars_eq on r.trees)
  intro name type
  rw [← stack_binds]
  constructor
  · exact View.Binds.of_append_modifiers (b.ruleModifiers_flat r)
  · rintro ⟨call, hc, hb⟩
    exact ⟨call, hc.append_modifiers (b.ruleModifiers_flat r), hb⟩

theorem rootStruct_stateFits (on : b.config.generateStateProperties = true) (w : Widget) :
    (b.rootStruct w).StateFits := by
  apply b.stateFits_of_binds (b.stateVars_eq on [w])
  intro name type
  simp [rootStruct, declareRoot, view_binds]

end Builder

/-- In every declared view of a file that keeps state, the variables have different names and fit
the bindings that the body is built with. -/
theorem declared_state_fits {config : Config} (table : WidgetTable) (m : Markup.Module)
    (on : config.generateStateProperties = true) {s : ViewStruct}
    (declared : Item.viewStruct s ∈ (file config table m).items) : s.StateFits := by
  rcases List.mem_append.mp declared with hs | hs
  · obtain ⟨r, _, hr⟩ := List.mem_map.mp hs
    cases hr
    exact (builderFor config table m).ruleStruct_stateFits on r
  · obtain ⟨root, _, hr⟩ := Option.map_eq_some_iff.mp (Option.mem_toList.mp hs)
    obtain ⟨_, _, rfl⟩ := (Builder.rootItem_eq_viewStruct _).mp hr
    exact (builderFor config table m).rootStruct_stateFits on root

/-- Two fields of text share a variable, and a switch laid over a label has one of its own. -/
theorem declared_state_fits_form :
    let field : Widget := ⟨"TextInput", [], [], [], .origin⟩
    let switch : Widget := ⟨"Switch", [⟨"id", .name "dark", .origin⟩], [], [], .origin⟩
    let label : Widget := ⟨"Label", [], [switch], [], .origin⟩
    let r : Rule := ⟨[⟨"Form", []⟩], [], [field, label, field], [], .origin⟩
    let s := (builderFor {} .builtin ⟨[r], none⟩).ruleStruct r
    Item.viewStruct s ∈ (file {} .builtin ⟨[r], none⟩).items ∧
      s.state.map (fun v => (v.name, v.type)) = [("text", "String"), ("dark_isOn", "Bool")] ∧
      s.body.Binds "dark_isOn" "Bool" := by
  intro field switch label r s
  have declared : Item.viewStruct s ∈ (file {} .builtin ⟨[r], none⟩).items := List.mem_cons_self
  have state : s.state.map (fun v => (v.name, v.type)) =
      [("text", "String"), ("dark_isOn", "Bool")] := by decide
  refine ⟨declared, state, ?_⟩
  have hm : ("dark_isOn", "Bool") ∈ s.state.map (fun v => (v.name, v.type)) := by simp [state]
  obtain ⟨v, hv, same⟩ := List.mem_map.mp hm
  obtain ⟨name, type⟩ := Prod.mk.inj same
  have bound := (declared_state_fits .builtin ⟨[r], none⟩ rfl declared).bound v hv
    (by rw [name]; decide) (by rw [name]; decide)
  rwa [name, type] at bound

end ViewBridge.View
