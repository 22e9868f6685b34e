import FlightGen.Proofs.Model.Built
import FlightGen.Proofs.Naming.Account

/-! How the pins of a built model are named. Bodies name their pins verbatim, and a pin whose
text is an identifier already is called by it, unless something else that is named in the same
scope has come to that identifier first. -/

namespace FlightGen

open NameTable (Leads)

variable {takes renews : String → String → Prop} {t t' : NameTable}

/-! ### The pins of a node -/

theorem leads_namePins {path : String} {n : Definition.Node} {idents : List (String × String)}
    (h : namePins path n t = .ok (idents, t'))
    (htakes : ∀ e ∈ idents, takes (path ++ "::" ++ n.id) e.2) : Leads takes renews t t' := by
  rw [namePins_eq_mapM] at h
  refine (Naming.leads_mapM takes renews h fun p hp s s' hs => ?_).1
  exact .assign (namePin_eq_ok hs).2 (htakes p.2 (List.of_mem_zip hp).2)

/-- While the pins are named, none of them loses its name again. -/
theorem lookup_namePins {path : String} {n : Definition.Node} {idents : List (String × String)}
    (h : namePins path n t = .ok (idents, t')) :
    ∀ e ∈ idents, t'.lookup (path ++ "::" ++ n.id) .localVar e.1 = some e.2 := by
  rw [namePins_eq_mapM] at h
  obtain ⟨-, hbuilt⟩ := Naming.leads_mapM (fun _ _ => True) (fun _ _ => False) h
    fun p _ s s' hs => .assign (namePin_eq_ok hs).2 trivial
  intro e he
  obtain ⟨pin, hp⟩ := Naming.exists_mem_zip h he
  obtain ⟨s, s', -, hs, honward⟩ := hbuilt _ hp
  obtain ⟨hraw, hassign⟩ := namePin_eq_ok hs
  rw [hraw]
  exact (honward.kept _ _ _ (NameTable.lookup_assign hassign)).resolve_right id

/-- An entry is found by its text, since all entries of the text agree. -/
theorem pinName_eq {scope : String} {kind : NameKind} {idents : List (String × String)}
    (h : ∀ e ∈ idents, t.lookup scope kind e.1 = some e.2) {e : String × String} (he : e ∈ idents) :
    pinName idents e.1 = ⟨e.1, e.2⟩ := by
  unfold pinName
  cases hlookup : idents.lookup e.1 with
  | none => exact absurd (List.lookup_eq_none_iff.1 hlookup e he) (by simp)
  | some ident =>
    cases (h _ (mem_of_lookup hlookup)).symm.trans (h e he)
    rfl

theorem Action.Resolves.map_name_pins {s : ActivityScope} {ident : String}
    {idents : List (String × String)} {d : Definition.Action} {action : Action}
    (h : action.Resolves s ident idents d) :
    action.pins.map (·.name) = d.pins.map fun pin => pinName idents pin.name := by
  cases h with
  | @opaqueAction body language inputs outputs pins _ _ hpins =>
    have hinputs : pins.map (·.name) = inputs.map fun pin => pinName idents pin.name := by
      refine map_eq_of_forall₂ hpins ?_
      rintro d pin ⟨ref, o, -, -, rfl⟩
      rfl
    simp [Action.pins, Definition.Action.pins, hinputs]
  | _ => rfl

/-- The tables hold the names of all the pins at some point between two tables. -/
def NameTable.Passes (takes renews : String → String → Prop) (t t' : NameTable) (scope : String)
    (pins : List Pin) : Prop :=
  ∃ t₁, Leads takes renews t t₁ ∧ Leads takes renews t₁ t' ∧
    ∀ pin ∈ pins, t₁.Holds scope .localVar pin.name

theorem NameTable.Passes.extend {t₀ t'' : NameTable} {scope : String} {pins : List Pin}
    (h : Passes takes renews t t' scope pins) (hfrom : Leads takes renews t₀ t)
    (hto : Leads takes renews t' t'') : Passes takes renews t₀ t'' scope pins := by
  obtain ⟨t₁, hbefore, hafter, hheld⟩ := h
  exact ⟨t₁, hfrom.trans hbefore, hafter.trans hto, hheld⟩

/-! ### Activities -/

/-- The variables that an activity takes, each in its scope. Pins are named in the scope of their
node, and out of reach for the variables of the activity. -/
inductive Activity.Takes (path : String) (names : List String) (a : Activity) :
    String → String → Prop
  | pin {n : Node} {pin : Pin} : n ∈ a.nodes → pin ∈ n.action.pins →
      Takes path names a (path ++ "::" ++ n.id) pin.name.ident
  | name {x : String} : x ∈ names → Takes path names a path x
  | reserved {n : Node} {pin : Pin} : n ∈ a.nodes → pin ∈ n.action.pins →
      Takes path names a path pin.name.ident
  | node {n : Node} : n ∈ a.nodes → Takes path names a path n.ident

/-- The texts whose variables an activity may draw afresh. -/
inductive Activity.Renews (path : String) (a : Activity) : String → String → Prop
  | node {n : Node} {raw base : String} : n ∈ a.nodes → Identifier.render? raw = some base →
      Names.Extends base n.ident → Renews path a path raw

theorem NameTable.extends_assignFresh {scope raw ident : String} {kind : NameKind}
    (h : t.assignFresh scope kind raw = .ok (ident, t')) :
    ∃ base, Identifier.render? raw = some base ∧ Names.Extends base ident := by
  obtain hl | hnew := NameTable.lookup_of_assign h (NameTable.lookup_assign h)
  · rw [NameTable.lookup_forget, if_pos ⟨rfl, rfl, rfl⟩] at hl
    cases hl
  · exact hnew.built

theorem leads_buildNode {s : ActivityScope} {n : Definition.Node} {idents : List (String × String)}
    {node : Node} (h : s.buildNode n idents t = .ok (node, t')) (htakes : takes s.path node.ident)
    (hrenews : ∀ raw base, Identifier.render? raw = some base → Names.Extends base node.ident →
      renews s.path raw) : Leads takes renews t t' := by
  obtain ⟨ident, t₁, hident, h⟩ := Naming.bind_eq_ok.1 h
  obtain ⟨action, t₂, haction, h⟩ := Naming.bind_eq_ok.1 h
  obtain ⟨rfl, rfl⟩ := Naming.pure_eq_ok.1 h
  obtain ⟨-, rfl⟩ := Naming.lift_eq_ok.1 haction
  obtain ⟨base, hbase, hextends⟩ := NameTable.extends_assignFresh hident
  exact .assignFresh hident htakes (hrenews _ base hbase hextends)

namespace ActivityStages

variable {s : ActivityScope} {classNames : List String} {name : Name} {a : Activity}
  (S : ActivityStages s classNames name t a t')

include S

/-- The pins of a built node bear the names that were found for them. -/
theorem named : List.Forall₂ (fun p (n : Node) => n.id = p.1.id ∧
    n.action.pins.map (·.name) = p.2.map fun e => ⟨e.1, e.2⟩)
    (s.activity.nodes.zip S.pins) a.nodes := by
  have hfound : ∀ p ∈ s.activity.nodes.zip S.pins, ∃ t₁ t₂, namePins s.path p.1 t₁ = .ok (p.2, t₂) :=
    fun p hp => List.forall₂_zip (Naming.forall₂_mapM S.pins_eq) hp
  refine ((List.forall₂_and_left _ _).2 ⟨hfound, S.built⟩).imp ?_
  rintro ⟨d, idents⟩ n ⟨⟨t₁, t₂, hpins⟩, hid, haction⟩
  refine ⟨hid, ?_⟩
  have hraws : d.action.pins.map (fun pin => pinName idents pin.name) =
      (idents.map Prod.fst).map (pinName idents) := by
    rw [namePins_eq_ok hpins, List.map_map]
    rfl
  rw [haction.map_name_pins, hraws, List.map_map]
  exact List.map_congr_left fun e he => pinName_eq (lookup_namePins hpins) he

/-- What is found for the pins of a node goes to the pins of a built node. -/
theorem exists_pin {p : Definition.Node × List (String × String)}
    (hp : p ∈ s.activity.nodes.zip S.pins) {e : String × String} (he : e ∈ p.2) :
    ∃ n ∈ a.nodes, n.id = p.1.id ∧ ∃ pin ∈ n.action.pins, pin.name.ident = e.2 := by
  obtain ⟨n, hn, hid, hpins⟩ := exists_of_forall₂ S.named hp
  have hmem : (⟨e.1, e.2⟩ : Name) ∈ n.action.pins.map (·.name) :=
    hpins ▸ List.mem_map.2 ⟨e, he, rfl⟩
  obtain ⟨pin, hpin, hname⟩ := List.mem_map.1 hmem
  exact ⟨n, hn, hid, pin, hpin, by rw [hname]⟩

theorem leads (htakes : ∀ scope x, a.Takes s.path classNames scope x → takes scope x)
    (hrenews : ∀ scope raw, a.Renews s.path scope raw → renews scope raw) :
    Leads takes renews t t' ∧ ∀ n ∈ a.nodes,
      NameTable.Passes takes renews t t' (s.path ++ "::" ++ n.id) n.action.pins := by
  have hclass : Leads takes renews t S.afterClass :=
    Naming.leads_reserveAll S.class_eq fun x hx => htakes _ _ (.name hx)
  have htaken : ∀ p ∈ s.activity.nodes.zip S.pins, ∀ e ∈ p.2, takes (s.path ++ "::" ++ p.1.id) e.2 := by
    intro p hp e he
    obtain ⟨n, hn, hid, pin, hpin, hident⟩ := S.exists_pin hp he
    rw [← hid, ← hident]
    exact htakes _ _ (.pin hn hpin)
  obtain ⟨hpins, hfound⟩ := Naming.leads_mapM takes renews S.pins_eq
    fun p hp t₁ t₂ h => leads_namePins h (htaken p hp)
  have hreserve : Leads takes renews S.afterPins S.beforeNodes := by
    refine Naming.leads_reserveAll S.reserve_eq fun x hx => ?_
    obtain ⟨e, he, rfl⟩ := List.mem_map.1 hx
    obtain ⟨idents, hidents, he⟩ := List.mem_flatten.1 he
    obtain ⟨d, hp⟩ := Naming.exists_mem_zip S.pins_eq hidents
    obtain ⟨n, hn, -, pin, hpin, hident⟩ := S.exists_pin hp he
    exact hident ▸ htakes _ _ (.reserved hn hpin)
  have hnodes : Leads takes renews S.beforeNodes t' := by
    refine (Naming.leads_mapM takes renews S.nodes_eq fun p hp t₁ t₂ h => ?_).1
    have hn : p.2 ∈ a.nodes := (List.of_mem_zip hp).2
    exact leads_buildNode h (htakes _ _ (.node hn)) fun raw base hbase hextends =>
      hrenews _ _ (.node hn hbase hextends)
  refine ⟨hclass.trans (hpins.trans (hreserve.trans hnodes)), fun n hn => ?_⟩
  obtain ⟨p, hp, hid, hnames⟩ := exists_of_forall₂ S.named.flip hn
  obtain ⟨t₁, t₂, hbefore, hname, hafter⟩ := hfound p hp
  refine ⟨t₂, hclass.trans (hbefore.trans ?_), hafter.trans (hreserve.trans hnodes), ?_⟩
  · exact leads_namePins hname (htaken p hp)
  · intro pin hpin
    have hmem : pin.name ∈ p.2.map fun e => ⟨e.1, e.2⟩ := hnames ▸ List.mem_map.2 ⟨pin, hpin, rfl⟩
    obtain ⟨e, he, heq⟩ := List.mem_map.1 hmem
    rw [NameTable.Holds, ← heq, hid]
    exact lookup_namePins hname e he

end ActivityStages

/-! ### Components -/

namespace ActivitiesStages

variable {d : Definition.Component} {records : List RecordType} {activities : List Activity}
  (S : ActivitiesStages d records t activities t')

include S

theorem raw_of_mem_zip {p : Definition.Activity × Name} (hp : p ∈ d.activities.zip S.names) :
    p.2.raw = p.1.name := by
  obtain ⟨_, _, hname⟩ := List.forall₂_zip (Naming.forall₂_mapM S.names_eq) hp
  exact (buildActivityName_eq_ok hname).1

theorem trail_afterNames : t.Trail (fun _ kind => kind ≠ .localVar) S.afterNames :=
  (Naming.Within.reserveAll _ (by simp) _ _ _ S.methods_eq).trans <|
    Naming.Within.mapM (within_buildActivityName (by simp)) _ _ _ _ S.names_eq

theorem leads {names : List String} (hnames : names = classScopeNames
      (d.machine.transitions.countP (·.guard.isSome)) (activities.map (·.name.ident))
      (records.map (·.name.ident)))
    (htakes : ∀ a ∈ activities, ∀ scope x,
      a.Takes (d.name ++ "::" ++ a.name.raw) names scope x → takes scope x)
    (hrenews : ∀ a ∈ activities, ∀ scope raw,
      a.Renews (d.name ++ "::" ++ a.name.raw) scope raw → renews scope raw) :
    Leads takes renews t t' ∧ ∀ a ∈ activities, ∀ n ∈ a.nodes, NameTable.Passes takes renews t t'
      (d.name ++ "::" ++ a.name.raw ++ "::" ++ n.id) n.action.pins := by
  subst hnames
  rw [S.map_ident] at htakes
  -- The path of an activity is told by its own name, which is that of its definition.
  have hstep : ∀ p ∈ (d.activities.zip S.names).zip activities, ∀ s s',
      buildActivity ⟨records, d, p.1.1, d.name ++ "::" ++ p.1.1.name⟩ (classScopeNames
        (d.machine.transitions.countP (·.guard.isSome)) (S.names.map (·.ident))
        (records.map (·.name.ident))) p.1.2 s = .ok (p.2, s') →
      Leads takes renews s s' ∧ ∀ n ∈ p.2.nodes, NameTable.Passes takes renews s s'
        (d.name ++ "::" ++ p.2.name.raw ++ "::" ++ n.id) n.action.pins := by
    intro p hp s s' h
    obtain ⟨hzip, ha⟩ := List.of_mem_zip hp
    obtain ⟨A⟩ := exists_activityStages h
    have hraw : p.2.name.raw = p.1.1.name := A.name_eq ▸ S.raw_of_mem_zip hzip
    have htakes := htakes p.2 ha
    have hrenews := hrenews p.2 ha
    rw [hraw] at htakes hrenews ⊢
    exact A.leads htakes hrenews
  have hnamed : Leads takes renews t S.afterNames := .of_trail S.trail_afterNames
  obtain ⟨hleads, hbuilt⟩ := Naming.leads_mapM takes renews S.activities_eq
    fun p hp s s' h => (hstep p hp s s' h).1
  refine ⟨hnamed.trans hleads, fun a ha n hn => ?_⟩
  obtain ⟨p, hp⟩ := Naming.exists_mem_zip S.activities_eq ha
  obtain ⟨s, s', hbefore, h, hafter⟩ := hbuilt _ hp
  exact ((hstep _ hp s s' h).2 n hn).extend (hnamed.trans hbefore) hafter

end ActivitiesStages

/-- The path of an activity, which is the scope of its variables. -/
def Component.path (c : Component) (a : Activity) : String :=
  c.name.raw ++ "::" ++ a.name.raw

/-- The scope of the pins of a node. -/
def Component.pinScope (c : Component) (a : Activity) (n : Node) : String :=
  c.path a ++ "::" ++ n.id

namespace ComponentStages

variable {records : List RecordType} {d : Definition.Component} {c : Component}
  (S : ComponentStages records d t c t')

include S

theorem trail_afterActivities : S.afterActivities.Trail (fun _ kind => kind ≠ .localVar) t' :=
  (Naming.Within.mapM (within_buildState (by simp) _ _) _ _ _ _ S.states_eq).trans <|
    (Naming.Within.reserveAll _ (by simp) _ _ _ S.lifecycle_eq).trans <|
    (within_buildTransitions (by simp) _ _ _ _ _ _ _ S.transitions_eq).trans <|
    Naming.Within.assign d.machine.name (by simp) _ _ _ S.machine_eq

theorem leads (htakes : ∀ a ∈ c.activities, ∀ scope x,
      a.Takes (c.path a) (c.classNames records) scope x → takes scope x)
    (hrenews : ∀ a ∈ c.activities, ∀ scope raw, a.Renews (c.path a) scope raw → renews scope raw) :
    Leads takes renews t t' ∧ ∀ a ∈ c.activities, ∀ n ∈ a.nodes,
      NameTable.Passes takes renews t t' (c.pinScope a n) n.action.pins := by
  obtain ⟨A⟩ := exists_activitiesStages S.activities_eq
  have hbefore : Leads takes renews t S.afterAttributes :=
    .of_trail (S.trail_afterAttributes (by grind))
  have hafter : Leads takes renews S.afterActivities t' := .of_trail S.trail_afterActivities
  have hpath : ∀ a, c.path a = d.name ++ "::" ++ a.name.raw := fun a => by
    rw [Component.path, S.raw_eq]
  have hclass : c.classNames records = classScopeNames (d.machine.transitions.countP (·.guard.isSome))
      (c.activities.map (·.name.ident)) (records.map (·.name.ident)) := by
    rw [← S.transitionRun.countP_guard]
    rfl
  simp only [Component.pinScope, hpath] at htakes hrenews ⊢
  obtain ⟨hleads, hpins⟩ := A.leads hclass htakes hrenews
  exact ⟨hbefore.trans (hleads.trans hafter), fun a ha n hn => (hpins a ha n hn).extend hbefore hafter⟩

end ComponentStages

/-! ### Models -/

namespace Model

/-- The variables that a model takes, each in its scope. -/
def Takes (m : Model) (scope x : String) : Prop :=
  ∃ c ∈ m.components, ∃ a ∈ c.activities,
    a.Takes (c.path a) (c.classNames m.recordTypes) scope x

def Renews (m : Model) (scope raw : String) : Prop :=
  ∃ c ∈ m.components, ∃ a ∈ c.activities, a.Renews (c.path a) scope raw

/-- Something else that may come to the identifier `raw` in a scope: a pin of another text, or,
where the scope is also the path of an activity, what is named there. -/
inductive Rival (m : Model) (scope raw : String) : Prop
  | pin {c : Component} {a : Activity} {n : Node} {pin : Pin} (hc : c ∈ m.components)
      (ha : a ∈ c.activities) (hn : n ∈ a.nodes) (hpin : pin ∈ n.action.pins)
      (hscope : c.pinScope a n = scope) (hraw : pin.name.raw ≠ raw) (hident : pin.name.ident = raw)
  | className {c : Component} {a : Activity} (hc : c ∈ m.components) (ha : a ∈ c.activities)
      (hscope : c.path a = scope) (hname : raw ∈ c.classNames m.recordTypes)
  | reserved {c : Component} {a : Activity} {n : Node} {pin : Pin} (hc : c ∈ m.components)
      (ha : a ∈ c.activities) (hn : n ∈ a.nodes) (hpin : pin ∈ n.action.pins)
      (hscope : c.path a = scope) (hident : pin.name.ident = raw)
  | node {c : Component} {a : Activity} {n : Node} (hc : c ∈ m.components)
      (ha : a ∈ c.activities) (hn : n ∈ a.nodes) (hscope : c.path a = scope)
      (hident : Names.Extends raw n.ident)

theorem Renews.rival {m : Model} {scope raw : String} (h : m.Renews scope raw)
    (hraw : Identifier.render? raw = some raw) : m.Rival scope raw := by
  obtain ⟨c, hc, a, ha, h⟩ := h
  generalize hpath : c.path a = path at h
  cases h with
  | node hn hbase hextends =>
    cases hraw.symm.trans hbase
    exact .node hc ha hn hpath hextends

end Model

namespace ModelStages

variable {d : Definition} {m : Model} (S : ModelStages d m)

include S

/-- All that is named in a model is on the way from the empty table to the last. -/
theorem leads : Leads m.Takes m.Renews {} S.afterComponents ∧
    ∀ c ∈ m.components, ∀ a ∈ c.activities, ∀ n ∈ a.nodes,
      NameTable.Passes m.Takes m.Renews {} S.afterComponents (c.pinScope a n) n.action.pins := by
  have hrecords : Leads m.Takes m.Renews {} S.afterRecords :=
    .of_trail (S.trail_afterRecords (by simp) (by simp))
  have hstep : ∀ c ∈ m.components, ∀ d s s', buildComponent m.recordTypes d s = .ok (c, s') →
      Leads m.Takes m.Renews s s' ∧ ∀ a ∈ c.activities, ∀ n ∈ a.nodes,
        NameTable.Passes m.Takes m.Renews s s' (c.pinScope a n) n.action.pins := by
    intro c hc d s s' h
    obtain ⟨C⟩ := exists_componentStages h
    exact C.leads (fun a ha _ _ h => ⟨c, hc, a, ha, h⟩) fun a ha _ _ h => ⟨c, hc, a, ha, h⟩
  obtain ⟨hleads, hbuilt⟩ := Naming.leads_mapM m.Takes m.Renews S.components_eq
    fun p hp s s' h => (hstep p.2 (List.of_mem_zip hp).2 p.1 s s' h).1
  refine ⟨hrecords.trans hleads, fun c hc a ha n hn => ?_⟩
  obtain ⟨d, hp⟩ := Naming.exists_mem_zip S.components_eq hc
  obtain ⟨s, s', hbefore, h, hafter⟩ := hbuilt _ hp
  exact ((hstep c hc d s s' h).2 a ha n hn).extend (hrecords.trans hbefore) hafter

/-- A text whose plain spelling went to something else has a rival. -/
theorem rival_of_ne {t : NameTable} (hfrom : Leads m.Takes m.Renews {} t)
    (honto : Leads m.Takes m.Renews t S.afterComponents) {scope raw ident : String}
    (h : t.lookup scope .localVar raw = some ident) (hraw : Identifier.render? raw = some raw)
    (hne : ident ≠ raw) : m.Rival scope raw := by
  have hclaimed : raw ∈ t.locals scope :=
    hfrom.reaches.claimed NameTable.claimed_empty _ _ _ _ _ h hraw
  obtain hempty | ⟨c, hc, a, ha, htakes⟩ := hfrom.taken scope raw hclaimed
  · cases hempty
  generalize hpath : c.path a = path at htakes
  cases htakes with
  | @pin n pin hn hpin =>
    obtain ⟨t', -, honto', hheld⟩ := S.leads.2 c hc a ha n hn
    have hscope : c.pinScope a n = path ++ "::" ++ n.id := by rw [Component.pinScope, hpath]
    by_cases hother : pin.name.raw = pin.name.ident
    · -- The text has had its plain spelling at one time and another identifier at this one.
      have hplain : t'.lookup _ .localVar pin.name.raw = some pin.name.ident := hheld pin hpin
      rw [hscope, hother] at hplain
      obtain hlast | hrenews := honto.kept _ _ _ h
      · obtain hlast' | hrenews := honto'.kept _ _ _ hplain
        · exact absurd (Option.some.inj (hlast.symm.trans hlast')) hne
        · exact hrenews.rival hraw
      · exact hrenews.rival hraw
    · exact .pin hc ha hn hpin hscope hother rfl
  | name hname => exact .className hc ha hpath hname
  | reserved hn hpin => exact .reserved hc ha hn hpin hpath rfl
  | node hn => exact .node hc ha hn hpath .self

end ModelStages

namespace Model

variable {d : Definition} {m : Model} (hm : Model.build d = .ok m) {c : Component} {a : Activity}
  {n : Node} (hc : c ∈ m.components) (ha : a ∈ c.activities) (hn : n ∈ a.nodes) {pin pin' : Pin}
  (hpin : pin ∈ n.action.pins)

include hm hc ha hn hpin

/-- Pins of one node share their identifier if they share their text, and only then. -/
theorem pin_ident_inj (hpin' : pin' ∈ n.action.pins) :
    pin.name.ident = pin'.name.ident ↔ pin.name.raw = pin'.name.raw := by
  obtain ⟨S⟩ := exists_modelStages hm
  obtain ⟨t, hfrom, -, hheld⟩ := S.leads.2 c hc a ha n hn
  have hvalid : t.Valid := hfrom.reaches.grows.valid NameTable.valid_empty
  constructor
  · intro h
    exact (hvalid _ _).injective _ _ _ _ (hheld pin hpin) (hheld pin' hpin') (by rw [h])
  · intro h
    have hlookup : t.lookup _ .localVar pin.name.raw = some pin.name.ident := hheld pin hpin
    rw [h] at hlookup
    exact Option.some.inj (hlookup.symm.trans (hheld pin' hpin'))

/-- A pin whose text is an identifier is called by it, unless it has a rival. -/
theorem pin_ident_eq_raw (hraw : Identifier.render? pin.name.raw = some pin.name.raw)
    (hrival : ¬ m.Rival (c.pinScope a n) pin.name.raw) : pin.name.ident = pin.name.raw := by
  obtain ⟨S⟩ := exists_modelStages hm
  obtain ⟨t, hfrom, honto, hheld⟩ := S.leads.2 c hc a ha n hn
  by_contra hne
  exact hrival (S.rival_of_ne hfrom honto (hheld pin hpin) hraw hne)

end Model

end FlightGen
