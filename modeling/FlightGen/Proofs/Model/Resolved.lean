import FlightGen.Proofs.Model.Building

/-! Built activities are resolved: references lead to nodes and record types that exist,
and no two nodes share an id or a variable, nor does a variable clash with a pin. -/

namespace FlightGen

/-! ### References -/

/-- The nodes that an action refers to lie below `size`, its record types below
`records`. -/
def Action.Within (size records : Nat) : Action → Prop
  | .opaqueAction _ _ inputs _ => ∀ pin ∈ inputs, ∀ o ∈ pin.source, o.node < size
  | .call _ arguments => ∀ a ∈ arguments, a.source.node < size
  | .read object _ => object.node < size
  | .write object _ value => object.node < size ∧ value.node < size
  | .fork nodes | .join nodes => ∀ n ∈ nodes, n < size
  | .create record => record < records
  | .parameter _ _ type source =>
    (∀ i, type = .record i → i < records) ∧ ∀ o ∈ source, o.node < size
  | .literal _ => True

/-- A node refers to what exists, and a parameter is named like its node. -/
structure Node.Resolved (size records : Nat) (n : Node) : Prop where
  within : n.action.Within size records
  parameter : ∀ direction name type source,
    n.action = .parameter direction name type source → name.ident = n.ident

/-- References of the activity lead to its own nodes, and the nodes are told apart by
their ids and by their variables. -/
structure Activity.Resolved (records : Nat) (a : Activity) : Prop where
  nodes : ∀ n ∈ a.nodes, n.Resolved a.nodes.length records
  edges : ∀ e ∈ a.edges, e.1 < a.nodes.length ∧ e.2 < a.nodes.length
  ids : (a.nodes.map (·.id)).Nodup
  idents : (a.nodes.map (·.ident)).Nodup

def Action.pins : Action → List Pin
  | .opaqueAction _ _ inputs outputs => inputs ++ outputs
  | _ => []

/-- The variables of the nodes are none of `names`, and no pin is called like one of them. -/
structure Activity.Apart (names : List String) (a : Activity) : Prop where
  names : ∀ n ∈ a.nodes, n.ident ∉ names
  pins : ∀ n ∈ a.nodes, ∀ n' ∈ a.nodes, ∀ pin ∈ n'.action.pins, n.ident ≠ pin.name.ident

/-- The activities that an activity calls lie below `activities`. -/
def Activity.CallsBelow (activities : Nat) (a : Activity) : Prop :=
  ∀ n ∈ a.nodes, ∀ target arguments, n.action = .call target arguments → target < activities

def Definition.Action.pins : Definition.Action → List Definition.Pin
  | .opaqueAction _ _ inputs outputs => inputs ++ outputs
  | _ => []

theorem Definition.Activity.Leads.lt {a : Definition.Activity} {ref : Definition.ValueRef}
    {o : Outlet} (h : a.Leads ref o) : o.node < a.nodes.length :=
  h.node.lt

theorem ParameterType.Resolves.lt {records : List RecordType} {name : String} {type : ParameterType}
    (h : type.Resolves records name) : ∀ i, type = .record i → i < records.length := by
  rintro i rfl
  cases h with
  | record hi => exact lt_of_findIdx? hi

namespace Action.Resolves

variable {s : ActivityScope} {ident : String} {idents : List (String × String)}
  {d : Definition.Action} {action : Action} (h : action.Resolves s ident idents d)

include h

/-- A resolved action refers to what exists. -/
theorem within : action.Within s.activity.nodes.length s.records.length := by
  cases h with
  | opaqueAction _ _ hpins =>
    refine forall_of_forall₂ hpins ?_
    rintro d pin ⟨ref, o, -, ho, rfl⟩
    simpa using ho.lt
  | call _ _ hargs => exact forall_of_forall₂ hargs fun _ _ harg => harg.source.lt
  | read ho => exact ho.lt
  | write ho hv => exact ⟨ho.lt, hv.lt⟩
  | fork hnodes => exact forall_of_forall₂ hnodes fun _ _ hn => hn.lt
  | join hnodes => exact forall_of_forall₂ hnodes fun _ _ hn => hn.lt
  | create hindex => exact lt_of_findIdx? hindex
  | input htype => exact ⟨htype.lt, by simp⟩
  | output htype hsource =>
    refine ⟨htype.lt, ?_⟩
    cases hsource with
    | none => simp
    | some ho => simpa using ho.lt
  | literal => trivial

theorem parameter_ident {direction : Direction} {name : Name} {type : ParameterType}
    {source : Option Outlet} (heq : action = .parameter direction name type source) :
    name.ident = ident := by
  subst heq
  cases h <;> rfl

theorem target_lt {target : Nat} {arguments : List Argument}
    (heq : action = .call target arguments) : target < s.component.activities.length := by
  subst heq
  cases h with
  | call hindex => exact lt_of_findIdx? hindex

/-- Pins have the names that were found for them. -/
theorem pin_name : ∀ pin ∈ action.pins, ∃ pin' ∈ d.pins, pin.name = pinName idents pin'.name := by
  cases h with
  | opaqueAction _ _ hpins =>
    intro pin hpin
    obtain hpin | hpin := List.mem_append.1 hpin
    · obtain ⟨d, hd, ref, o, -, -, rfl⟩ := exists_of_forall₂ hpins.flip hpin
      exact ⟨d, List.mem_append_left _ hd, rfl⟩
    · obtain ⟨d, hd, rfl⟩ := List.mem_map.1 hpin
      exact ⟨d, List.mem_append_right _ hd, rfl⟩
  | _ => simp [pins]

end Action.Resolves

/-! ### Pins -/

theorem namePins_eq_mapM (path : String) (n : Definition.Node) :
    namePins path n = n.action.pins.mapM fun pin => do
      return (pin.name, ← Naming.assign (path ++ "::" ++ n.id) .localVar pin.name) := by
  unfold namePins
  cases n.action <;> rfl

theorem namePin_eq_ok {scope : String} {pin : Definition.Pin} {e : String × String} {t t' : NameTable}
    (h : (do return (pin.name, ← Naming.assign scope .localVar pin.name) : Naming _) t = .ok (e, t')) :
    e.1 = pin.name ∧ t.assign scope .localVar pin.name = .ok (e.2, t') := by
  obtain ⟨ident, t₁, hident, h⟩ := Naming.bind_eq_ok.1 h
  obtain ⟨rfl, rfl⟩ := Naming.pure_eq_ok.1 h
  exact ⟨rfl, hident⟩

theorem namePins_eq_ok {path : String} {n : Definition.Node} {idents : List (String × String)}
    {t t' : NameTable} (h : namePins path n t = .ok (idents, t')) :
    idents.map Prod.fst = n.action.pins.map (·.name) := by
  rw [namePins_eq_mapM] at h
  refine map_eq_of_forall₂ (Naming.forall₂_mapM h) ?_
  rintro pin e ⟨_, _, he⟩
  exact (namePin_eq_ok he).1

theorem ident_pinName_mem {idents : List (String × String)} {raw : String}
    (h : raw ∈ idents.map Prod.fst) : (pinName idents raw).ident ∈ idents.map Prod.snd := by
  unfold pinName
  cases hlookup : idents.lookup raw with
  | none =>
    obtain ⟨entry, hentry, rfl⟩ := List.mem_map.1 h
    exact absurd (List.lookup_eq_none_iff.1 hlookup _ hentry) (by simp)
  | some ident =>
    obtain ⟨before, after, rfl, -⟩ := List.lookup_eq_some_iff.1 hlookup
    simp

/-- The pins of all nodes have identifiers among those that were found. -/
theorem ident_mem_of_namePins {path : String} {ds : List Definition.Node}
    {pins : List (List (String × String))} {nodes : List Node} {t t' : NameTable}
    (hpins : ds.mapM (namePins path) t = .ok (pins, t'))
    (hnodes : List.Forall₂ (fun p (n : Node) => ∀ pin ∈ n.action.pins,
      ∃ pin' ∈ p.1.action.pins, pin.name = pinName p.2 pin'.name) (ds.zip pins) nodes) :
    ∀ n ∈ nodes, ∀ pin ∈ n.action.pins, pin.name.ident ∈ pins.flatten.map (·.2) := by
  have hnamed : ∀ p ∈ ds.zip pins,
      p.2 ∈ pins ∧ p.2.map Prod.fst = p.1.action.pins.map (·.name) := by
    rintro ⟨d, idents⟩ hp
    obtain ⟨_, _, hname⟩ := List.forall₂_zip (Naming.forall₂_mapM hpins) hp
    exact ⟨(List.of_mem_zip hp).2, namePins_eq_ok hname⟩
  refine forall_of_forall₂ ((List.forall₂_and_left _ _).2 ⟨hnamed, hnodes⟩) ?_
  rintro ⟨d, idents⟩ n ⟨⟨hmem, hidents⟩, hpins⟩ pin hpin
  obtain ⟨pin', hpin', hname⟩ := hpins pin hpin
  have hident : (pinName idents pin'.name).ident ∈ idents.map Prod.snd :=
    ident_pinName_mem (hidents ▸ List.mem_map.2 ⟨pin', hpin', rfl⟩)
  obtain ⟨entry, hentry, heq⟩ := List.mem_map.1 hident
  refine List.mem_map.2 ⟨entry, List.mem_flatten.2 ⟨idents, hmem, hentry⟩, ?_⟩
  rw [heq, hname]

/-! ### Activities -/

theorem buildNode_eq_ok {s : ActivityScope} {n : Definition.Node} {idents : List (String × String)}
    {t t' : NameTable} {node : Node} (h : s.buildNode n idents t = .ok (node, t')) :
    node.id = n.id ∧ node.action.Resolves s node.ident idents n.action := by
  obtain ⟨ident, t₁, -, h⟩ := Naming.bind_eq_ok.1 h
  obtain ⟨action, t₂, haction, h⟩ := Naming.bind_eq_ok.1 h
  obtain ⟨rfl, -⟩ := Naming.pure_eq_ok.1 h
  obtain ⟨haction, -⟩ := Naming.lift_eq_ok.1 haction
  exact ⟨rfl, resolveAction_eq_ok.1 haction⟩

theorem fresh_buildNode (s : ActivityScope) (n : Definition.Node)
    (idents : List (String × String)) :
    Naming.Fresh s.path (fun node : Node => [node.ident]) (s.buildNode n idents) := by
  intro t node t' h
  obtain ⟨ident, t₁, hident, h⟩ := Naming.bind_eq_ok.1 h
  obtain ⟨action, t₂, haction, h⟩ := Naming.bind_eq_ok.1 h
  obtain ⟨rfl, rfl⟩ := Naming.pure_eq_ok.1 h
  obtain ⟨-, rfl⟩ := Naming.lift_eq_ok.1 haction
  exact Naming.fresh_assignFresh _ _ _ _ _ hident

/-- A node with the id and the resolved action of its definition. -/
structure Node.Realizes (s : ActivityScope) (d : Definition.Node) (n : Node) : Prop where
  id : n.id = d.id
  action : ∃ idents, n.action.Resolves s n.ident idents d.action

theorem Node.Realizes.resolved {s : ActivityScope} {d : Definition.Node} {n : Node}
    (h : n.Realizes s d) : n.Resolved s.activity.nodes.length s.records.length := by
  obtain ⟨idents, haction⟩ := h.action
  exact ⟨haction.within, fun _ _ _ _ => haction.parameter_ident⟩

namespace ActivityStages

variable {s : ActivityScope} {classNames : List String} {name : Name} {t t' : NameTable}
  {a : Activity} (S : ActivityStages s classNames name t a t')

include S

theorem length_pins : s.activity.nodes.length = S.pins.length :=
  (Naming.forall₂_mapM S.pins_eq).length_eq

theorem built : List.Forall₂ (fun p (n : Node) => n.id = p.1.id ∧
    n.action.Resolves s n.ident p.2 p.1.action) (s.activity.nodes.zip S.pins) a.nodes :=
  (Naming.forall₂_mapM S.nodes_eq).imp fun _ _ ⟨_, _, h⟩ => buildNode_eq_ok h

theorem nodes : List.Forall₂ (Node.Realizes s) s.activity.nodes a.nodes := by
  have hfst := List.map_fst_zip S.length_pins.le
  rw [← hfst, List.forall₂_map_left_iff]
  exact S.built.imp fun p n ⟨hid, haction⟩ => ⟨hid, p.2, haction⟩

theorem edges : List.Forall₂ (fun (e : Definition.Edge) edge => s.activity.Locates e.source edge.1 ∧
    s.activity.Locates e.target edge.2) s.activity.edges a.edges :=
  (mapM_eq_ok_iff fun _ _ => buildEdge_eq_ok).1 S.edges_eq

theorem map_id : a.nodes.map (·.id) = s.activity.nodes.map (·.id) :=
  map_eq_of_forall₂ S.nodes fun _ _ h => h.id

theorem fresh : (a.nodes.map (·.ident)).Nodup ∧ ∀ ident ∈ a.nodes.map (·.ident),
    ident ∉ (S.beforeNodes.names s.path .localVar).taken := by
  obtain ⟨-, hidents, hfresh⟩ :=
    Naming.Fresh.mapM (fun p : Definition.Node × _ => fresh_buildNode s p.1 p.2) _ _ _ _ S.nodes_eq
  rw [← List.map_eq_flatMap] at hidents hfresh
  exact ⟨hidents, fun ident hident => (hfresh ident hident).1⟩

theorem resolved : a.Resolved s.records.length := by
  have hlength := S.nodes.length_eq
  refine ⟨?_, ?_, S.map_id ▸ S.ids, S.fresh.1⟩
  · rw [← hlength]
    exact forall_of_forall₂ S.nodes fun _ _ h => h.resolved
  · rw [← hlength]
    exact forall_of_forall₂ S.edges fun _ _ h => ⟨h.1.lt, h.2.lt⟩

theorem callsBelow : a.CallsBelow s.component.activities.length :=
  forall_of_forall₂ S.built fun _ _ h _ _ => h.2.target_lt

/-- The names of the class and of the pins are taken when the variables are drawn. -/
theorem apart : a.Apart classNames := by
  constructor
  · intro n hn hmem
    have htaken := Naming.mem_taken_reserveAll S.class_eq _ hmem
    have hpins := (Naming.Within.mapM (within_namePins (P := fun _ _ => True) (fun _ => trivial) _)
      _ _ _ _ S.pins_eq).grows
    have hreserve := (Naming.Within.reserveAll (P := fun _ _ => True) _ trivial _ _ _
      S.reserve_eq).grows
    exact S.fresh.2 _ (List.mem_map.2 ⟨n, hn, rfl⟩) ((hpins.trans hreserve).taken _ _ htaken)
  · intro n hn n' hn' pin hpin heq
    have hpin' := ident_mem_of_namePins S.pins_eq (S.built.imp fun _ _ h => h.2.pin_name) n' hn' pin hpin
    have htaken := Naming.mem_taken_reserveAll S.reserve_eq _ hpin'
    exact S.fresh.2 _ (List.mem_map.2 ⟨n, hn, rfl⟩) (heq ▸ htaken)

end ActivityStages

end FlightGen
