import FlightGen.Proofs.Flow.Footprint
import FlightGen.Proofs.Run.Commute
import FlightGen.Proofs.Run.Fits

/-! What the steps of a lowered activity deliver. Where the variables that a step uses hold
data of the types that were found for them, the step binds the variables of its node to
such data, and fails only inside a block. -/

namespace FlightGen.Flow

open Relation (TransGen)

variable {f : Flow} {r : Routine}

/-- What the run of a lowered activity rests on: arguments, callees and blocks that fit, with
no other errors than `E`. -/
structure Setting (f : Flow) (r : Routine) (ok : Scalar → Value → Prop) (m : Model)
    (E : RunError → Prop) (call : Callee) (arguments : List Datum) : Prop where
  of : f.Of m
  model : m.Resolved
  admits : ∀ v, ok v.scalar v
  arguments : Datum.FitAll f.records ok r.inputs arguments
  link : ∀ n target arguments routine, f.action n = .call target arguments →
    f.callees.lookup n = some routine → f.Takes (f.callee target) routine.inputs
  callee : ∀ n target arguments routine, f.action n = .call target arguments →
    f.callees.lookup n = some routine → ∀ values, Datum.FitAll f.records ok routine.inputs values →
    Yields E (Datum.FitAll f.records ok routine.outputs) (call routine.qualified values)
  blocks : ∀ s ∈ r.steps, ∀ locals body exports, s.operation = .block locals body exports →
    BlockYields ok E s.node locals body exports

namespace Lowering

variable (L : f.Lowering r) (ok : Scalar → Value → Prop)

/-- The variables of the nodes in `done` hold data of their types. -/
def Bound (done : List Nat) (env : Env Datum) : Prop :=
  ∀ o x type, o.node ∈ done → f.RootOf o.node o.node → L.Stored o x type →
    ∃ d, env.lookup x = some d ∧ Datum.Fits f.records ok type d

/-- A change that binds the variables of node `n`, and none against its type. -/
structure Delivers (n : Nat) (e : Change) : Prop where
  own : ∀ o x type, o.node = n → f.RootOf n n → L.Stored o x type →
    ∃ d, e.bindings.lookup x = some d
  fits : ∀ o x type d, f.RootOf o.node o.node → L.Stored o x type →
    e.bindings.lookup x = some d → Datum.Fits f.records ok type d
  output : ∀ i d, e.output = some (i, d) →
    ∃ slot, r.outputs[i]? = some slot ∧ Datum.Fits f.records ok slot.type d

variable {L ok} {k n : Nat} {done : List Nat} {env : Env Datum} {x : String}

/-! ### Bound variables -/

theorem Bound.append {e : Change} (hb : L.Bound ok done env) (he : L.Delivers ok n e) :
    L.Bound ok (done ++ [n]) (e.bindings ++ env) := by
  intro o x type ho hroot hstored
  rw [lookup_append]
  cases hlookup : e.bindings.lookup x with
  | some d => exact ⟨d, rfl, he.fits o x type d hroot hstored hlookup⟩
  | none =>
    rw [List.mem_append, List.mem_singleton] at ho
    obtain ho | rfl := ho
    · exact hb o x type ho hroot hstored
    · obtain ⟨d, hd⟩ := he.own o x type rfl hroot hstored
      cases hlookup.symm.trans hd

theorem Bound.consumed {o : Outlet} {type : DataType} (hb : L.Bound ok done env)
    (hdone : ∀ a, TransGen f.Stated a n → a ∈ done) (ho : o ∈ (f.action n).consumed)
    (h : L.Stored o x type) : ∃ d, env.lookup x = some d ∧ Datum.Fits f.records ok type d := by
  obtain ⟨o', hroot, hstored, hpath⟩ := h.origin
  refine hb o' x type (hdone _ ?_) hroot hstored
  obtain heq | hpath := hpath
  · exact .single (heq ▸ .value ho)
  · exact hpath.tail (.value ho)

/-- The object of a feature is a record that has the feature. -/
theorem Bound.object (hb : L.Bound ok done env) (hdone : ∀ a, TransGen f.Stated a n → a ∈ done)
    {object : Outlet} (ho : object ∈ (f.action n).consumed) {root : Nat} {name : String}
    {record : RecordType} {field : Field} (hroot : f.RootOf object.node root)
    (h : f.Access root name record field) :
    ∃ rec v, env.lookup (valueVar L.vars root) = some (.record rec) ∧
      Datum.Fits f.records ok (.record record.name.ident) (.record rec) ∧
      rec.get? field.name.ident = some v ∧ ok field.scalar v := by
  obtain ⟨d, hd, hfits⟩ := hb.consumed hdone ho (.value hroot h.type)
  generalize hident : record.name.ident = ident at hfits
  cases hfits with
  | @record rec hrec =>
    obtain ⟨v, hv, hok⟩ := hrec record (List.mem_of_find?_eq_some h.find) hident field
      (List.mem_of_find?_eq_some h.feature)
    exact ⟨rec, v, hd, .record hrec, hv, hok⟩

/-! ### Changes -/

/-- A change of one variable, which belongs to the value of node `a`. -/
theorem delivers_value (hf : f.activity.Resolved k) {a : Nat} (ha : a < f.size) {d : Datum}
    (hown : ∀ o x type, o.node = n → f.RootOf n n → L.Stored o x type → x = valueVar L.vars a)
    (hd : ∀ type, f.typeOf ⟨a, none⟩ = .ok type → Datum.Fits f.records ok type d) :
    L.Delivers ok n ⟨[(valueVar L.vars a, d)], none⟩ where
  own o x type ho hroot hstored := ⟨d, by simp [hown o x type ho hroot hstored]⟩
  fits o x type d' hroot hstored hlookup := by
    cases List.mem_singleton.1 (mem_of_lookup hlookup)
    exact hd type (hstored.root_of_valueVar hf ha).2
  output := nofun

/-- A node other than an opaque action has one variable at most. -/
theorem Stored.eq_valueVar {o : Outlet} {type : DataType} (h : L.Stored o x type)
    (hother : ∀ body language inputs outputs,
      f.action o.node ≠ .opaqueAction body language inputs outputs)
    (hroot : f.RootOf o.node o.node) :
    x = valueVar L.vars o.node ∧ f.typeOf ⟨o.node, none⟩ = .ok type := by
  cases h with
  | output h => exact absurd h (hother _ _ _ _)
  | value hr ht =>
    cases hroot.unique hr
    exact ⟨rfl, ht⟩

theorem Stored.of_opaqueAction {o : Outlet} {type : DataType} {body : String} {language : Option String}
    {inputs outputs : List Pin} (h : L.Stored o x type)
    (haction : f.action o.node = .opaqueAction body language inputs outputs) :
    ∃ (i : Nat) (pin : Pin), outputs[i]? = some pin ∧ (outputVars L.vars o.node)[i]? = some x ∧
      type = .scalar pin.scalar := by
  cases h with
  | output h hpin hx =>
    cases haction.symm.trans h
    exact ⟨_, _, hpin, hx, rfl⟩
  | value hr ht =>
    cases hr.unique (.self (by simp [haction]))
    obtain ⟨_, _, hpin, -⟩ := typeOf_opaqueAction (o := ⟨o.node, none⟩) haction ht
    cases hpin

/-- A node without a value may still give an output. -/
theorem delivers_none (hother : ∀ body language inputs outputs,
      f.action n ≠ .opaqueAction body language inputs outputs)
    (hvalue : ∀ type, f.typeOf ⟨n, none⟩ ≠ .ok type) {output : Option (Nat × Datum)}
    (houtput : ∀ i d, output = some (i, d) →
      ∃ slot, r.outputs[i]? = some slot ∧ Datum.Fits f.records ok slot.type d) :
    L.Delivers ok n ⟨[], output⟩ where
  own o x type ho hroot hstored := by
    subst ho
    exact absurd (hstored.eq_valueVar hother hroot).2 (hvalue type)
  fits := nofun
  output := houtput

/-- Every output pin has a local variable of its name. -/
theorem name_mem_addOutputLocal {locals : List BlockLocal} {outputs : List Pin} :
    (∀ l ∈ locals, l.name ∈ (outputs.foldl addOutputLocal locals).map (·.name)) ∧
    ∀ pin ∈ outputs, pin.name.ident ∈ (outputs.foldl addOutputLocal locals).map (·.name) := by
  induction outputs generalizing locals with
  | nil => exact ⟨fun l hl => List.mem_map.2 ⟨l, hl, rfl⟩, nofun⟩
  | cons pin outputs ih =>
    obtain ⟨hlocals, houtputs⟩ := @ih (addOutputLocal locals pin)
    have hadded : locals ⊆ addOutputLocal locals pin ∧
        ∃ l ∈ addOutputLocal locals pin, l.name = pin.name.ident := by
      unfold addOutputLocal
      split
      · rename_i hany
        obtain ⟨l, hl, hname⟩ := List.any_eq_true.1 hany
        exact ⟨List.Subset.refl _, l, hl, by simpa using hname⟩
      · exact ⟨List.subset_append_left _ _, _, List.mem_append_right _ List.mem_cons_self, rfl⟩
    obtain ⟨hsub, l, hl, hname⟩ := hadded
    refine ⟨fun l hl => hlocals l (hsub hl), List.forall_mem_cons.2 ⟨?_, houtputs⟩⟩
    rw [← hname]
    exact hlocals l hl

/-- Variables that hold what slots ask for make up arguments. -/
theorem exists_values {slots : List Slot} {names : List String}
    (h : List.Forall₂ (fun slot x => ∃ d, env.lookup x = some d ∧
      Datum.Fits f.records ok slot.type d) slots names) :
    ∃ values, names.mapM env.datum = .ok values ∧ Datum.FitAll f.records ok slots values := by
  induction h with
  | nil => exact ⟨[], rfl, .nil⟩
  | cons hx _ ih =>
    obtain ⟨d, hd, hfits⟩ := hx
    obtain ⟨values, hvalues, hall⟩ := ih
    refine ⟨d :: values, ?_, .cons hfits hall⟩
    rw [List.mapM_cons, datum_eq_ok.2 hd, hvalues]
    rfl

/-! ### Steps -/

end Lowering

namespace Setting

open Lowering

variable {L : f.Lowering r} {ok : Scalar → Value → Prop} {m : Model} {E : RunError → Prop}
  {call : Callee} {arguments : List Datum} (S : f.Setting r ok m E call arguments) {n : Nat}
  {done : List Nat} {env : Env Datum} {x : String}
include S

theorem resolved : f.activity.Resolved f.records.length :=
  S.of.resolved S.model

theorem recordIdents : (f.records.map (·.name.ident)).Nodup := by
  rw [S.of.records]
  exact S.model.recordIdents

theorem fieldIdents : ∀ t ∈ f.records, (t.fields.map (·.name.ident)).Nodup := by
  rw [S.of.records]
  exact S.model.fieldIdents

/-- An own value of a node that is no opaque action. -/
theorem delivers (hn : n < f.size) (hother : ∀ body language inputs outputs,
      f.action n ≠ .opaqueAction body language inputs outputs) {d : Datum}
    (hd : ∀ type, f.typeOf ⟨n, none⟩ = .ok type → Datum.Fits f.records ok type d) :
    L.Delivers ok n ⟨[(valueVar L.vars n, d)], none⟩ := by
  refine delivers_value S.resolved hn (fun o x type ho hroot hstored => ?_) hd
  subst ho
  exact (hstored.eq_valueVar hother hroot).1

theorem receive {name : Name} {type : ParameterType} {source : Option Outlet}
    (h : f.action n = .parameter .input name type source) :
    ∃ d, receive r arguments (f.ident n) = .ok d ∧ L.Delivers ok n ⟨[(valueVar L.vars n, d)], none⟩ := by
  obtain ⟨i, hfind, -, hslot⟩ := exists_slot S.resolved h
  rw [← L.inputs_eq] at hfind hslot
  obtain ⟨d, hd, hfits⟩ := getElem?_of_forall₂ S.arguments hslot
  refine ⟨d, ?_, S.delivers (f.lt_size (by simp [h])) (by simp [h]) fun type' htype => ?_⟩
  · unfold FlightGen.receive
    rw [hfind, Option.bind_some, hd]
  · rw [typeOf_own h (by simp) (by simp)] at htype
    cases htype
    exact hfits

theorem create {index : Nat} {record : RecordType} (h : f.action n = .create index)
    (hr : f.records[index]?.getD ⟨⟨"", ""⟩, []⟩ = record) :
    L.Delivers ok n ⟨[(valueVar L.vars n, .record (Record.zeroed record.name.ident
      (record.fields.map fun field => (field.name.ident, field.scalar))))], none⟩ := by
  have hindex : index < f.records.length := by
    have hwithin := f.within (n := n) S.resolved
    rwa [h] at hwithin
  rw [List.getElem?_eq_getElem hindex, Option.getD_some] at hr
  subst hr
  refine S.delivers (f.lt_size (by simp [h])) (by simp [h]) fun type htype => ?_
  rw [typeOf_own h (by simp) (by simp)] at htype
  cases htype
  simp only [dataType, List.getElem?_eq_getElem hindex, Option.map_some, Option.getD_some]
  exact fits_zeroed S.admits S.recordIdents S.fieldIdents (List.getElem_mem hindex)

theorem literal {value : Value} (h : f.action n = .literal value) :
    L.Delivers ok n ⟨[(valueVar L.vars n, .scalar value)], none⟩ := by
  refine S.delivers (f.lt_size (by simp [h])) (by simp [h]) fun type htype => ?_
  rw [typeOf_own h (by simp) (by simp)] at htype
  cases htype
  exact .scalar (S.admits value)

theorem read (hb : L.Bound ok done env) (hdone : ∀ a, TransGen f.Stated a n → a ∈ done)
    {object : Outlet} {name : String} {field : Field} (h : f.action n = .read object name)
    (hfield : f.feature n object name = .ok field) (hx : f.outletVar L.vars object = .ok x) :
    ∃ v, readFeature env x field.name.ident = .ok v ∧
      L.Delivers ok n ⟨[(valueVar L.vars n, .scalar v)], none⟩ := by
  obtain ⟨root, record, hroot, rfl, haccess⟩ := access hfield hx
  obtain ⟨rec, v, hrec, -, hv, hok⟩ := hb.object hdone (by simp [h, Action.consumed]) hroot haccess
  refine ⟨v, readFeature_eq_ok.2 ⟨rec, hrec, hv⟩, ?_⟩
  refine S.delivers (f.lt_size (by simp [h])) (by simp [h]) fun type htype => ?_
  obtain ⟨field', hfield', rfl⟩ := typeOf_read h htype
  cases hfield.symm.trans hfield'
  exact .scalar hok

theorem write (hb : L.Bound ok done env) (hdone : ∀ a, TransGen f.Stated a n → a ∈ done)
    {object value : Outlet} {name y : String} {field : Field}
    (h : f.action n = .write object name value) (hfield : f.feature n object name = .ok field)
    (hx : f.outletVar L.vars object = .ok x) (hy : f.outletVar L.vars value = .ok y)
    (ht : f.typeOf value = .ok (.scalar field.scalar)) :
    ∃ v rec, env.scalar y = .ok v ∧ writeFeature env x field.name.ident v = .ok rec ∧
      L.Delivers ok n ⟨[(x, .record rec)], none⟩ := by
  obtain ⟨root, record, hroot, rfl, haccess⟩ := access hfield hx
  obtain ⟨rec, -, hrec, hfits, -, -⟩ := hb.object hdone (by simp [h, Action.consumed]) hroot haccess
  obtain ⟨d, hd, hvalue⟩ := hb.consumed hdone (by simp [h, Action.consumed]) (L.stored ht hy)
  cases hvalue with
  | @scalar _ v hv =>
    obtain ⟨rec', hset, hfits'⟩ := fits_set S.recordIdents S.fieldIdents
      (List.mem_of_find?_eq_some haccess.find) (List.mem_of_find?_eq_some haccess.feature) hfits hv
    refine ⟨v, rec', scalar_eq_ok.2 hd, writeFeature_eq_ok.2 ⟨rec, hrec, hset⟩, ?_⟩
    refine delivers_value S.resolved (lt_size_of_typeOf haccess.type) ?_ fun type htype => ?_
    · exact fun _ _ _ _ hself => absurd h (hself.not_write _ _ _)
    · cases haccess.type.symm.trans htype
      exact hfits'

theorem output {name : Name} {type : ParameterType} {source : Outlet} (hb : L.Bound ok done env)
    (hdone : ∀ a, TransGen f.Stated a n → a ∈ done)
    (h : f.action n = .parameter .output name type (some source))
    (hx : f.outletVar L.vars source = .ok x) (ht : f.typeOf source = .ok (f.dataType type)) :
    ∃ d, env.datum x = .ok d ∧ L.Delivers ok n
      ⟨[], some (((f.slots .output).findIdx? (·.ident = f.ident n)).getD 0, d)⟩ := by
  obtain ⟨d, hd, hfits⟩ := hb.consumed hdone (by simp [h, Action.consumed]) (L.stored ht hx)
  obtain ⟨i, hfind, -, hslot⟩ := exists_slot S.resolved h
  refine ⟨d, datum_eq_ok.2 hd, delivers_none (by simp [h])
    (typeOf_ne_ok h (by simp) (by simp) rfl) fun j d' heq => ?_⟩
  rw [hfind] at heq
  cases heq
  rw [L.outputs_eq]
  exact ⟨_, hslot, hfits⟩

/-- A block delivers all its outputs, unless it fails. -/
theorem block (hb : L.Bound ok done env) (hdone : ∀ a, TransGen f.Stated a n → a ∈ done) {s : Step}
    (hs : s ∈ r.steps) {body : String} {language : Option String} {inputs outputs : List Pin}
    {locals : List BlockLocal} (h : f.action n = .opaqueAction body language inputs outputs)
    (hl : inputs.mapM (f.inputLocal L.vars) = .ok locals)
    (ht : ∀ pin ∈ inputs, ∀ o ∈ pin.source, f.typeOf o = .ok (.scalar pin.scalar))
    (ho : s.operation = .block (outputs.foldl addOutputLocal locals) (Text.trimmedLines body)
      (blockExports (outputVars L.vars n) outputs)) :
    Yields E (fun bindings => L.Delivers ok n ⟨bindings, none⟩)
      (blockBindings s.node (outputs.foldl addOutputLocal locals) (Text.trimmedLines body)
        (blockExports (outputVars L.vars n) outputs) env) := by
  have hlocals : ∀ l ∈ outputs.foldl addOutputLocal locals, ∀ source ∈ l.source,
      ∃ v, env.lookup source = some (.scalar v) ∧ ok l.scalar v := by
    intro l hmem source hsource
    obtain ⟨pin, hpin, o, hpo, hstored⟩ := source_stored hl ht hmem hsource
    have hconsumed : o ∈ (f.action n).consumed := by
      rw [h]
      exact List.mem_filterMap.2 ⟨pin, hpin, hpo⟩
    obtain ⟨d, hd, hfits⟩ := hb.consumed hdone hconsumed hstored
    cases hfits with
    | scalar hv => exact ⟨_, hd, hv⟩
  have hexports : ∀ e ∈ blockExports (outputVars L.vars n) outputs,
      e.name ∈ (outputs.foldl addOutputLocal locals).map (·.name) := by
    intro e he
    obtain ⟨⟨var, pin⟩, hvar, rfl⟩ := List.mem_map.1 he
    exact name_mem_addOutputLocal.2 pin (List.of_mem_zip hvar).2
  have houter : (blockExports (outputVars L.vars n) outputs).map (·.outer) = outputVars L.vars n := by
    simp only [blockExports, List.map_map, Function.comp_def]
    exact List.map_fst_zip (L.length_outputVars_opaqueAction h).le
  refine (S.blocks s hs _ _ _ ho env hlocals hexports).mono (fun _ he => he) fun bindings hbindings => ?_
  have hkeys := hbindings.outer
  rw [houter] at hkeys
  refine ⟨?_, fun o x type d hroot hstored hlookup => ?_, nofun⟩
  · rintro o x type rfl hroot hstored
    obtain ⟨_, _, -, hx, -⟩ := hstored.of_opaqueAction h
    refine lookup_isSome ?_
    rw [hkeys, List.mem_reverse]
    exact List.mem_of_getElem? hx
  · obtain ⟨e, he, v, heq, hv⟩ :=
      exists_of_forall₂ hbindings.flip (List.mem_reverse.2 (mem_of_lookup hlookup))
    cases heq
    obtain ⟨⟨_, pin⟩, hvar, rfl⟩ := List.mem_map.1 he
    obtain ⟨j, hj⟩ := List.mem_iff_getElem?.1 hvar
    obtain ⟨hx, hpin⟩ := List.getElem?_zip_eq_some.1 hj
    -- A variable has one owner, so that what the block binds belongs to its own node.
    obtain ⟨hlt, hown⟩ := hstored.own hroot
    have hnode : o.node = n := allVars_inj S.resolved hlt (f.lt_size (by simp [h])) hown
      (List.mem_cons_of_mem _ (List.mem_of_getElem? hx))
    subst hnode
    obtain ⟨i, pin', hpin', hx', rfl⟩ := hstored.of_opaqueAction h
    -- Nor do two outputs of the node share a variable.
    have hnodup := (allVars_unique S.resolved.idents L.vars_eq hlt hlt).1.of_cons
    obtain rfl := (List.getElem?_inj (List.getElem?_eq_some_iff.1 hx').1 hnodup).1 (hx'.trans hx.symm)
    cases hpin.symm.trans hpin'
    exact .scalar hv

/-- A call delivers the first result of its callee. -/
theorem call_results (hb : L.Bound ok done env) (hdone : ∀ a, TransGen f.Stated a n → a ∈ done)
    {target : Nat} {args : List Argument} {routine : Routine} {names : List String}
    (h : f.action n = .call target args) (hc : f.callees.lookup n = some routine)
    (hnames : List.Forall₂ (fun parameter x => ∃ a ∈ args,
      f.outletVar L.vars a.source = .ok x ∧ ∀ direction name type source,
        (f.callee target).action parameter = .parameter direction name type source →
        f.typeOf a.source = .ok (f.dataType type)) ((f.callee target).parameters .input) names) :
    ∃ values, names.mapM env.datum = .ok values ∧
      Yields E (Datum.FitAll f.records ok routine.outputs) (call routine.qualified values) := by
  have hslots := forall₂_of_common (S.link n target args routine h hc) hnames
    (T := fun slot x => ∃ d, env.lookup x = some d ∧ Datum.Fits f.records ok slot.type d)
    fun parameter slot x ⟨_, _, _, _, hparameter, hslot⟩ ⟨a, ha, hx, ht⟩ => by
      have hconsumed : a.source ∈ (f.action n).consumed := by
        rw [h]
        exact List.mem_map.2 ⟨a, ha, rfl⟩
      rw [hslot]
      exact hb.consumed hdone hconsumed (L.stored (ht _ _ _ _ hparameter) hx)
  obtain ⟨values, hvalues, hfits⟩ := exists_values hslots
  exact ⟨values, hvalues, S.callee n target args routine h hc values hfits⟩

/-- A step delivers the variables of its node, or fails with one of the errors `E`. -/
theorem yields_change (hb : L.Bound ok done env) (hdone : ∀ a, TransGen f.Stated a n → a ∈ done)
    {s : Step} (hs : s ∈ r.steps) (hstands : L.Stands n s) :
    Yields E (L.Delivers ok n) (s.change call r arguments env) := by
  obtain ⟨hlt, -, hp⟩ := hstands
  unfold Step.change
  generalize ho : s.operation = operation at hp
  cases hp with
  | receive h =>
    obtain ⟨d, hd, hdelivers⟩ := S.receive (L := L) h
    exact .of_eq_ok (bind_eq_ok.2 ⟨d, hd, rfl⟩) hdelivers
  | output h hx ht =>
    obtain ⟨d, hd, hdelivers⟩ := S.output hb hdone h hx ht
    exact .of_eq_ok (bind_eq_ok.2 ⟨d, hd, rfl⟩) hdelivers
  | create h hr => exact S.create h hr
  | literal h => exact S.literal h
  | read h hfield hx =>
    obtain ⟨v, hv, hdelivers⟩ := S.read hb hdone h hfield hx
    exact .of_eq_ok (bind_eq_ok.2 ⟨v, hv, rfl⟩) hdelivers
  | write h hfield hx hy ht =>
    obtain ⟨v, rec, hv, hrec, hdelivers⟩ := S.write hb hdone h hfield hx hy ht
    exact .of_eq_ok (bind_eq_ok.2 ⟨v, hv, bind_eq_ok.2 ⟨rec, hrec, rfl⟩⟩) hdelivers
  | block h hl ht =>
    exact (S.block hb hdone hs h hl ht ho).bind fun bindings hdelivers => hdelivers
  | @call target args routine names h hc hnames =>
    obtain ⟨values, hvalues, hresults⟩ := S.call_results hb hdone h hc hnames
    dsimp only
    rw [hvalues]
    refine hresults.bind fun results hfits => ?_
    cases houtputs : routine.outputs with
    | nil =>
      refine delivers_none (by simp [h]) (fun type htype => ?_) nofun
      rw [typeOf_own h (by simp) (by simp), ownType, hc, Option.bind_some, houtputs] at htype
      cases htype
    | cons slot rest =>
      rw [houtputs] at hfits
      cases hfits with
      | cons hd =>
        refine S.delivers hlt (by simp [h]) fun type htype => ?_
        rw [typeOf_own h (by simp) (by simp), ownType, hc, Option.bind_some, houtputs] at htype
        cases htype
        exact hd
  | fork h => exact delivers_none (by simp [h]) (typeOf_ne_ok h (by simp) (by simp) rfl) nofun
  | join h => exact delivers_none (by simp [h]) (typeOf_ne_ok h (by simp) (by simp) rfl) nofun

end Setting

end FlightGen.Flow
