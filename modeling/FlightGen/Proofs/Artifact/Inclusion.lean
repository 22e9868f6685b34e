import FlightGen.Proofs.Artifact.Emission

/-! Including headers. Each record type and each class stands in a part that counts only where its
macro is not defined. Where no two of them share a macro nothing is lost, in whatever order and how
often the headers are included; and macros are shared exactly by names that differ in case alone. -/

namespace FlightGen

namespace Emitted

/-! ### Conditional parts -/

/-- How far a compiler has come. -/
structure Scan where
  defined : List String := []
  /-- Whether the parts that are open count, innermost first. -/
  parts : List Bool := []
  kept : List Landmark := []
deriving Repr, DecidableEq

/-- A type or class, with the macro under which it stands. -/
structure Entry where
  guard : String
  landmark : Landmark
deriving Repr, DecidableEq

namespace Scan

def counts (s : Scan) : Bool :=
  s.parts.all id

def step (s : Scan) : Landmark → Scan
  | .opens name => { s with parts := decide (name ∉ s.defined) :: s.parts }
  | .defines name => if s.counts then { s with defined := name :: s.defined } else s
  | .closes => { s with parts := s.parts.tail }
  | l => if s.counts then { s with kept := s.kept ++ [l] } else s

def run (s : Scan) (ls : List Landmark) : Scan :=
  ls.foldl step s

@[simp] theorem run_nil (s : Scan) : s.run [] = s := rfl

@[simp] theorem run_cons (s : Scan) (l : Landmark) (ls : List Landmark) :
    s.run (l :: ls) = (s.step l).run ls := rfl

theorem run_append (s : Scan) (ls ls' : List Landmark) : s.run (ls ++ ls') = (s.run ls).run ls' :=
  List.foldl_append

/-- Keeps a type or class unless its macro is defined. -/
def keep (s : Scan) (e : Entry) : Scan :=
  if e.guard ∈ s.defined then s
  else { s with defined := e.guard :: s.defined, kept := s.kept ++ [e.landmark] }

end Scan

end Emitted

open Emitted

def RecordType.entry (r : RecordType) : Entry :=
  ⟨r.includeGuard, .record r.name.ident⟩

namespace Bundle

def classEntry (b : Bundle) : Entry :=
  ⟨b.machine.includeGuard, .component b.className⟩

/-- What the header of a component declares. -/
def entries (b : Bundle) : List Entry :=
  b.classEntry :: b.records.map (·.entry)

/-- What a compiler keeps of some headers that are included one after the other. -/
def included (p : Profile) (bs : List Bundle) : List Landmark :=
  (({} : Scan).run (readings Landmark.read? p (bs.flatMap (Header.lines p)))).kept

end Bundle

/-! ### Macros -/

/-- A record type never shares its macro with a class. -/
theorem RecordType.includeGuard_ne (r : RecordType) (m : Machine) :
    r.includeGuard ≠ m.includeGuard := by
  intro h
  have hlast := congrArg (·.toList.getLast?) h
  simp [RecordType.includeGuard, Machine.includeGuard] at hlast

theorem RecordType.includeGuard_inj {r r' : RecordType} :
    r.includeGuard = r'.includeGuard ↔ r.name.ident.toUpper = r'.name.ident.toUpper := by
  simp [RecordType.includeGuard]

theorem Machine.includeGuard_inj {m m' : Machine} :
    m.includeGuard = m'.includeGuard ↔ m.component.ident.toUpper = m'.component.ident.toUpper := by
  simp [Machine.includeGuard]

/-- The name of a type or class determines its macro. -/
theorem Bundle.guard_eq_of_landmark {b b' : Bundle} {e e' : Entry} (he : e ∈ b.entries)
    (he' : e' ∈ b'.entries) (h : e.landmark = e'.landmark) : e.guard = e'.guard := by
  obtain rfl | he := List.mem_cons.1 he
  · obtain rfl | he' := List.mem_cons.1 he'
    · have hclass : b.machine.component.ident ++ "ComponentImpl" =
          b'.machine.component.ident ++ "ComponentImpl" := Landmark.component.inj h
      refine Machine.includeGuard_inj.2 ?_
      rw [(String.append_left_inj _).1 hclass]
    · obtain ⟨r', -, rfl⟩ := List.mem_map.1 he'
      cases h
  · obtain ⟨r, -, rfl⟩ := List.mem_map.1 he
    obtain rfl | he' := List.mem_cons.1 he'
    · cases h
    · obtain ⟨r', -, rfl⟩ := List.mem_map.1 he'
      refine RecordType.includeGuard_inj.2 ?_
      rw [Landmark.record.inj h]

/-! ### Reading headers -/

namespace Emitted.Scan

variable {s s' : Scan} {pending : List String} {es es' : List Entry}

/-- The types and classes that are kept, each under its own macro. All other macros are pending. -/
structure Keeps (s : Scan) (pending : List String) (es : List Entry) : Prop where
  defined : s.defined.Perm (pending ++ es.map (·.guard))
  nodup : s.defined.Nodup
  kept : s.kept = es.map (·.landmark)

theorem Keeps.mem_defined (h : s.Keeps pending es) {name : String} :
    name ∈ s.defined ↔ name ∈ pending ∨ name ∈ es.map (·.guard) := by
  rw [h.defined.mem_iff, List.mem_append]

theorem Keeps.mono (h : s.Keeps pending es) (h' : s'.Keeps pending es') (hsub : es ⊆ es')
    {name : String} (hname : name ∈ s.defined) : name ∈ s'.defined :=
  h'.mem_defined.2 ((h.mem_defined.1 hname).imp_right fun hmem => List.map_subset _ hsub hmem)

theorem Keeps.keep (h : s.Keeps pending es) (e : Entry) :
    ∃ es', (s.keep e).Keeps pending es' ∧ es ⊆ es' ∧ es' ⊆ es ++ [e] ∧
      e.guard ∈ (s.keep e).defined := by
  unfold Scan.keep
  split
  · rename_i hmem
    exact ⟨es, h, List.Subset.refl _, List.subset_append_left _ _, hmem⟩
  · rename_i hmem
    refine ⟨es ++ [e], ⟨?_, List.nodup_cons.2 ⟨hmem, h.nodup⟩, ?_⟩, List.subset_append_left _ _,
      List.Subset.refl _, List.mem_cons_self⟩
    · rw [List.map_append, ← List.append_assoc]
      exact (h.defined.cons e.guard).trans (List.perm_append_singleton _ _).symm
    · simp [h.kept]

/-- The part of a record type. -/
theorem run_record (h : s.counts = true) (r : RecordType) :
    s.run r.outline = s.keep r.entry := by
  by_cases hmem : r.includeGuard ∈ s.defined <;>
    simp_all [RecordType.outline, step, Scan.keep, counts, RecordType.entry]

theorem run_record_of_skipped (h : s.counts = false) (r : RecordType) :
    s.run r.outline = s := by
  by_cases hmem : r.includeGuard ∈ s.defined <;> simp_all [RecordType.outline, step, counts]

theorem parts_keep (s : Scan) (e : Entry) : (s.keep e).parts = s.parts := by
  unfold Scan.keep
  split <;> rfl

theorem run_records_of_skipped (h : s.counts = false) (records : List RecordType) :
    s.run (records.flatMap (·.outline)) = s := by
  induction records with
  | nil => rfl
  | cons r records ih => rw [List.flatMap_cons, run_append, run_record_of_skipped h, ih]

theorem Keeps.run_records (h : s.Keeps pending es) (hcounts : s.counts = true)
    (records : List RecordType) : ∃ s' es', s.run (records.flatMap (·.outline)) = s' ∧
      s'.Keeps pending es' ∧ es ⊆ es' ∧ es' ⊆ es ++ records.map (·.entry) ∧
      s'.parts = s.parts ∧ ∀ r ∈ records, r.includeGuard ∈ s'.defined := by
  induction records generalizing s es with
  | nil => exact ⟨s, es, rfl, h, List.Subset.refl _, List.subset_append_left _ _, rfl, by simp⟩
  | cons r records ih =>
    obtain ⟨es₁, h₁, hsub₁, hfrom₁, hr⟩ := h.keep r.entry
    have hcounts₁ : (s.keep r.entry).counts = true := by rwa [counts, parts_keep]
    obtain ⟨s', es', hrun, h', hsub, hfrom, hparts, hrecords⟩ := ih h₁ hcounts₁
    refine ⟨s', es', ?_, h', List.Subset.trans hsub₁ hsub, ?_, hparts.trans (parts_keep _ _), ?_⟩
    · rw [List.flatMap_cons, run_append, run_record hcounts, hrun]
    · intro e he
      obtain he | he := List.mem_append.1 (hfrom he)
      · obtain he | he := List.mem_append.1 (hfrom₁ he)
        · exact List.mem_append_left _ he
        · exact List.mem_append_right _ (List.mem_singleton.1 he ▸ List.mem_cons_self)
      · exact List.mem_append_right _ (List.mem_cons_of_mem _ he)
    · exact List.forall_mem_cons.2 ⟨h₁.mono h' hsub hr, hrecords⟩

/-- A header is skipped as a whole, or all that it declares has its macro defined afterwards. -/
theorem Keeps.run_header (h : s.Keeps [] es) (hparts : s.parts = []) (b : Bundle) :
    ∃ s' es', s.run b.outline = s' ∧ s'.Keeps [] es' ∧ s'.parts = [] ∧ es ⊆ es' ∧
      es' ⊆ es ++ b.entries ∧
      (b.machine.includeGuard ∈ s.defined ∨ ∀ e ∈ b.entries, e.guard ∈ s'.defined) := by
  rw [Bundle.outline, run_append, run_append]
  by_cases hmem : b.machine.includeGuard ∈ s.defined
  · have hfirst : s.run [.opens b.machine.includeGuard, .defines b.machine.includeGuard] =
        { s with parts := [false] } := by
      simp [step, counts, hmem, hparts]
    have hskipped : ({ s with parts := [false] } : Scan).counts = false := rfl
    refine ⟨s, es, ?_, h, hparts, List.Subset.refl _, List.subset_append_left _ _, .inl hmem⟩
    rw [hfirst, run_records_of_skipped hskipped]
    cases s
    simp_all [step, counts]
  · have hfirst : s.run [.opens b.machine.includeGuard, .defines b.machine.includeGuard] =
        { s with parts := [true], defined := b.machine.includeGuard :: s.defined } := by
      simp [step, counts, hmem, hparts]
    have hopen : ({ s with parts := [true], defined := b.machine.includeGuard :: s.defined } :
        Scan).Keeps [b.machine.includeGuard] es :=
      ⟨h.defined.cons _, List.nodup_cons.2 ⟨hmem, h.nodup⟩, h.kept⟩
    obtain ⟨s₁, es₁, hrun, h₁, hsub, hfrom, hparts₁, hrecords⟩ := hopen.run_records rfl b.records
    have hlast : s₁.run [.component b.className, .closes] =
        { s₁ with kept := s₁.kept ++ [.component b.className], parts := [] } := by
      simp [step, counts, hparts₁]
    -- The class was pending while the record types were read.
    refine ⟨{ s₁ with kept := s₁.kept ++ [.component b.className], parts := [] },
      es₁ ++ [b.classEntry], by rw [hfirst, hrun, hlast], ⟨?_, h₁.nodup, ?_⟩, rfl,
      fun e he => List.mem_append_left _ (hsub he), fun e he => ?_, .inr ?_⟩
    · refine h₁.defined.trans ?_
      rw [List.map_append, List.nil_append]
      exact List.perm_append_comm
    · simp [h₁.kept, Bundle.classEntry]
    · obtain he | he := List.mem_append.1 he
      · obtain he | he := List.mem_append.1 (hfrom he)
        · exact List.mem_append_left _ he
        · exact List.mem_append_right _ (List.mem_cons_of_mem _ he)
      · exact List.mem_append_right _ (List.mem_singleton.1 he ▸ List.mem_cons_self)
    · refine List.forall_mem_cons.2 ⟨?_, fun e he => ?_⟩
      · exact h₁.mem_defined.2 (.inl List.mem_cons_self)
      · obtain ⟨r, hr, rfl⟩ := List.mem_map.1 he
        exact hrecords r hr

/-- Of some headers, each is read as a whole at least once, unless its macro was defined before. -/
theorem Keeps.run_headers (h : s.Keeps [] es) (hparts : s.parts = []) (bs : List Bundle) :
    ∃ s' es', s.run (bs.flatMap (·.outline)) = s' ∧ s'.Keeps [] es' ∧ es ⊆ es' ∧
      es' ⊆ es ++ bs.flatMap (·.entries) ∧
      ∀ b ∈ bs, b.machine.includeGuard ∈ s.defined ∨ ∃ b' ∈ bs,
        b'.machine.includeGuard = b.machine.includeGuard ∧
          ∀ e ∈ b'.entries, e.guard ∈ s'.defined := by
  induction bs generalizing s es with
  | nil => exact ⟨s, es, rfl, h, List.Subset.refl _, List.subset_append_left _ _, by simp⟩
  | cons b bs ih =>
    obtain ⟨s₁, es₁, hrun₁, h₁, hparts₁, hsub₁, hfrom₁, hread⟩ := h.run_header hparts b
    obtain ⟨s', es', hrun, h', hsub, hfrom, hall⟩ := ih h₁ hparts₁
    have hhere (hnew : ∀ e ∈ b.entries, e.guard ∈ s₁.defined) :
        ∀ e ∈ b.entries, e.guard ∈ s'.defined := fun e he => h₁.mono h' hsub (hnew e he)
    refine ⟨s', es', ?_, h', List.Subset.trans hsub₁ hsub, fun e he => ?_, ?_⟩
    · rw [List.flatMap_cons, run_append, hrun₁, hrun]
    · rw [List.flatMap_cons, ← List.append_assoc]
      obtain he | he := List.mem_append.1 (hfrom he)
      · exact List.mem_append_left _ (hfrom₁ he)
      · exact List.mem_append_right _ he
    · refine List.forall_mem_cons.2 ⟨?_, fun b₂ hb₂ => ?_⟩
      · exact hread.imp_right fun hnew => ⟨b, List.mem_cons_self, rfl, hhere hnew⟩
      obtain hmem | ⟨b', hb', hguard, hdefined⟩ := hall b₂ hb₂
      · by_cases hmem₀ : b₂.machine.includeGuard ∈ s.defined
        · exact .inl hmem₀
        -- Then the header before it has defined the macro, and only for its class.
        obtain hmem | hmem := h₁.mem_defined.1 hmem
        · cases hmem
        obtain ⟨e, he, hguard⟩ := List.mem_map.1 hmem
        obtain he | he := List.mem_append.1 (hfrom₁ he)
        · exact absurd (h.mem_defined.2 (.inr (List.mem_map.2 ⟨e, he, hguard⟩))) hmem₀
        obtain rfl | he := List.mem_cons.1 he
        · obtain hread | hnew := hread
          · exact absurd (hguard ▸ hread) hmem₀
          · exact .inr ⟨b, List.mem_cons_self, hguard, hhere hnew⟩
        · obtain ⟨r, -, rfl⟩ := List.mem_map.1 he
          exact absurd hguard (r.includeGuard_ne _)
      · exact .inr ⟨b', List.mem_cons_of_mem _ hb', hguard, hdefined⟩

end Emitted.Scan

/-! ### Keeping all -/

namespace Bundle

variable {p : Profile} {bs : List Bundle}

/-- Only the outlines of the headers matter. -/
theorem included_eq (hbs : ∀ b ∈ bs, b.Named) :
    included p bs = (({} : Scan).run (bs.flatMap (·.outline))).kept := by
  have houtlines : readings Landmark.read? p (bs.flatMap (Header.lines p)) =
      bs.flatMap (·.outline) := by
    rw [readings_flatMap]
    exact List.flatMap_congr fun b hb => Header.landmarks_lines (hbs b hb)
  rw [included, houtlines]

/-- What is kept, with the macros. -/
theorem exists_entries (hbs : ∀ b ∈ bs, b.Named) : ∃ es : List Entry,
    (es.map (·.guard)).Nodup ∧ included p bs = es.map (·.landmark) ∧
      es ⊆ bs.flatMap (·.entries) ∧ ∀ b ∈ bs, ∃ b' ∈ bs,
        b'.machine.includeGuard = b.machine.includeGuard ∧
          ∀ e ∈ b'.entries, e.guard ∈ es.map (·.guard) := by
  have hstart : ({} : Scan).Keeps [] [] := ⟨.refl _, List.nodup_nil, rfl⟩
  obtain ⟨s', es, hrun, h, -, hfrom, hall⟩ := hstart.run_headers rfl bs
  have hdefined : s'.defined.Perm (es.map (·.guard)) := h.defined
  refine ⟨es, hdefined.nodup_iff.1 h.nodup, ?_, hfrom, fun b hb => ?_⟩
  · rw [included_eq hbs, hrun, h.kept]
  · obtain hmem | ⟨b', hb', hguard, hentries⟩ := hall b hb
    · cases hmem
    · exact ⟨b', hb', hguard, fun e he => hdefined.mem_iff.1 (hentries e he)⟩

theorem nodup_included (hbs : ∀ b ∈ bs, b.Named) : (included p bs).Nodup := by
  obtain ⟨es, hnodup, hkept, hfrom, -⟩ := exists_entries (p := p) hbs
  rw [hkept]
  refine hnodup.of_map.map_on fun e he e' he' h => List.inj_on_of_nodup_map hnodup he he' ?_
  obtain ⟨b, -, he⟩ := List.mem_flatMap.1 (hfrom he)
  obtain ⟨b', -, he'⟩ := List.mem_flatMap.1 (hfrom he')
  exact guard_eq_of_landmark he he' h

/-- Everything is kept exactly if no two declarations share a macro. -/
theorem included_all_iff (hbs : ∀ b ∈ bs, b.Named)
    (hsame : ∀ b ∈ bs, ∀ b' ∈ bs, b.className = b'.className → b = b') :
    (∀ e ∈ bs.flatMap (·.entries), e.landmark ∈ included p bs) ↔
      ∀ e ∈ bs.flatMap (·.entries), ∀ e' ∈ bs.flatMap (·.entries),
        e.guard = e'.guard → e.landmark = e'.landmark := by
  obtain ⟨es, hnodup, hkept, hfrom, hall⟩ := exists_entries (p := p) hbs
  rw [hkept]
  constructor
  · intro hkeeps
    have hfind {e : Entry} (he : e ∈ bs.flatMap (·.entries)) :
        ∃ f ∈ es, f.landmark = e.landmark ∧ f.guard = e.guard := by
      obtain ⟨f, hf, hlandmark⟩ := List.mem_map.1 (hkeeps e he)
      obtain ⟨b, -, he⟩ := List.mem_flatMap.1 he
      obtain ⟨b', -, hf'⟩ := List.mem_flatMap.1 (hfrom hf)
      exact ⟨f, hf, hlandmark, guard_eq_of_landmark hf' he hlandmark⟩
    intro e he e' he' hguard
    obtain ⟨f, hf, hlandmark, hf_guard⟩ := hfind he
    obtain ⟨f', hf', hlandmark', hf_guard'⟩ := hfind he'
    have hsame := List.inj_on_of_nodup_map hnodup hf hf' (by rw [hf_guard, hf_guard', hguard])
    rw [← hlandmark, ← hlandmark', hsame]
  · intro hapart e he
    obtain ⟨b, hb, heb⟩ := List.mem_flatMap.1 he
    obtain ⟨b', hb', hguard, hentries⟩ := hall b hb
    have hclass : b'.classEntry.landmark = b.classEntry.landmark :=
      hapart _ (List.mem_flatMap.2 ⟨b', hb', List.mem_cons_self⟩) _
        (List.mem_flatMap.2 ⟨b, hb, List.mem_cons_self⟩) hguard
    obtain rfl := hsame b' hb' b hb (Landmark.component.inj hclass)
    obtain ⟨f, hf, hf_guard⟩ := List.mem_map.1 (hentries e heb)
    exact List.mem_map.2 ⟨f, hf, hapart f (hfrom hf) e he hf_guard⟩

end Bundle

/-! ### Headers of a model -/

theorem RecordType.nodup_includeGuard_iff (records : List RecordType) :
    (records.map (·.includeGuard)).Nodup ↔ (records.map (·.name.ident.toUpper)).Nodup := by
  simp only [List.Nodup, List.pairwise_map, ne_eq, RecordType.includeGuard_inj]

theorem Component.nodup_includeGuard_iff (components : List Component) :
    (components.map (·.synthesize.includeGuard)).Nodup ↔
      (components.map (·.name.ident.toUpper)).Nodup := by
  simp only [List.Nodup, List.pairwise_map, ne_eq, Machine.includeGuard_inj]
  rfl

section Headers

variable {m : Model} {s : Compilation} {path : String} {bs : List Bundle}
  (hbs : ∀ b ∈ bs, ∃ c ∈ m.components,
    Bundle.collect path c.synthesize s.library m.recordTypes = .ok b)

include hbs

theorem Bundle.named_of_collect {d : Definition} (h : Model.build d = .ok m) (hs : s.Of m) :
    ∀ b ∈ bs, b.Named := by
  have hm := Model.resolved_of_build h
  obtain ⟨S⟩ := exists_modelStages h
  intro b hb
  obtain ⟨c, hc, hcollect⟩ := hbs b hb
  have hrequests := ((S.linked.closed hm).components c hc).requests
  exact (collected hcollect).named hm hc hs hrequests S

theorem Bundle.eq_of_className (hm : m.Resolved) :
    ∀ b ∈ bs, ∀ b' ∈ bs, b.className = b'.className → b = b' := by
  intro b hb b' hb' hclass
  obtain ⟨c, hc, hcollect⟩ := hbs b hb
  obtain ⟨c', hc', hcollect'⟩ := hbs b' hb'
  have hident := (String.append_left_inj _).1 hclass
  rw [(collected hcollect).machine, (collected hcollect').machine] at hident
  obtain rfl := List.inj_on_of_nodup_map hm.componentIdents hc hc' hident
  exact Except.ok.inj (hcollect.symm.trans hcollect')

/-- Macros that differ over the whole model differ over some of its headers. -/
theorem Bundle.guards_apart (hrecords : (m.recordTypes.map (·.includeGuard)).Nodup)
    (hcomponents : (m.components.map (·.synthesize.includeGuard)).Nodup) :
    ∀ e ∈ bs.flatMap (·.entries), ∀ e' ∈ bs.flatMap (·.entries),
      e.guard = e'.guard → e.landmark = e'.landmark := by
  intro e he e' he' hguard
  obtain ⟨b, hb, he⟩ := List.mem_flatMap.1 he
  obtain ⟨b', hb', he'⟩ := List.mem_flatMap.1 he'
  obtain ⟨c, hc, hcollect⟩ := hbs b hb
  obtain ⟨c', hc', hcollect'⟩ := hbs b' hb'
  have hcollected := collected hcollect
  have hcollected' := collected hcollect'
  obtain rfl | he := List.mem_cons.1 he
  · obtain rfl | he' := List.mem_cons.1 he'
    · simp only [classEntry, hcollected.machine, hcollected'.machine] at hguard
      obtain rfl := List.inj_on_of_nodup_map hcomponents hc hc' hguard
      simp only [classEntry, className, hcollected.machine, hcollected'.machine]
    · obtain ⟨r', -, rfl⟩ := List.mem_map.1 he'
      exact absurd hguard.symm (r'.includeGuard_ne _)
  · obtain ⟨r, hr, rfl⟩ := List.mem_map.1 he
    obtain rfl | he' := List.mem_cons.1 he'
    · exact absurd hguard (r.includeGuard_ne _)
    · obtain ⟨r', hr', rfl⟩ := List.mem_map.1 he'
      rw [hcollected.records] at hr
      rw [hcollected'.records] at hr'
      obtain rfl := List.inj_on_of_nodup_map hrecords (List.mem_filter.1 hr).1
        (List.mem_filter.1 hr').1 hguard
      rfl

end Headers

/-! ### A sample of headers -/

namespace Sample

/-- An arm that creates a pose and something else, with another component beside it. -/
def armDefinition (record component : String) : Definition where
  recordTypes := [⟨"Pose", []⟩, ⟨record, []⟩]
  components := [
    { name := "Arm"
      attributes := []
      machine := ⟨"Cycle", "On", [⟨"On", ["Move"]⟩], []⟩
      activities := [⟨"Move", [⟨"p", none, .create "Pose"⟩, ⟨"q", none, .create record⟩], []⟩] },
    { name := component
      attributes := []
      machine := ⟨"Cycle", "On", [⟨"On", []⟩], []⟩
      activities := [] }]

def arm : Component where
  name := ⟨"Arm", "Arm"⟩
  machine := ⟨"Cycle", "Cycle"⟩
  states := [⟨⟨"On", "On"⟩, [0]⟩]
  initial := 0
  transitions := []
  activities := [⟨⟨"Move", "Move"⟩, [⟨"p", "p", .create 0⟩, ⟨"q", "q", .create 1⟩], []⟩]
  attributes := []
  commands := lifecycleCommands

def armModel (record component : String) : Model :=
  ⟨[⟨⟨"Pose", "Pose"⟩, []⟩, ⟨⟨record, record⟩, []⟩],
    [arm, { arm with
      name := ⟨component, component⟩
      states := [⟨⟨"On", "On"⟩, []⟩]
      activities := [] }]⟩

theorem build_armDefinition :
    Model.build (armDefinition "Goal" "Leg") = .ok (armModel "Goal" "Leg") ∧
      Model.build (armDefinition "pose" "arm") = .ok (armModel "pose" "arm") := by
  decide +kernel

def armCompiled (m : Model) : Compilation :=
  (compileActivities m arm {} arm.stateActivities).2

theorem of_armCompiled (record component : String) :
    (armCompiled (armModel record component)).Of (armModel record component) :=
  compileActivities_of .start List.mem_cons_self

def headers (m : Model) : Except EmitError (List Bundle) :=
  m.components.mapM fun c =>
    Bundle.collect "Gen" c.synthesize (armCompiled m).library m.recordTypes

theorem mem_headers {m : Model} {bs : List Bundle} (h : headers m = .ok bs) : ∀ b ∈ bs,
    ∃ c ∈ m.components,
      Bundle.collect "Gen" c.synthesize (armCompiled m).library m.recordTypes = .ok b :=
  fun _ hb => exists_of_forall₂ (mapM_eq_ok.1 h).flip hb

/-- What some headers declare, and what they read as if they are included in turn. -/
def summary (bs : List Bundle) : List Landmark × List Landmark :=
  ((bs.flatMap (·.entries)).map (·.landmark), bs.flatMap (·.outline))

def guarded (name : String) (body : List Landmark) : List Landmark :=
  .opens name :: .defines name :: (body ++ [.closes])

/-- The headers of an arm and another arm, whose poses and names differ in case alone. -/
def armOutline : List Landmark :=
  guarded "ARM_COMPONENT_IMPL_HPP"
    (guarded "POSE_RECORD_DEFINED" [.record "Pose"] ++
      guarded "POSE_RECORD_DEFINED" [.record "pose"] ++ [.component "ArmComponentImpl"]) ++
    guarded "ARM_COMPONENT_IMPL_HPP" [.component "armComponentImpl"]

theorem exists_headers :
    (∃ bs, headers (armModel "Goal" "Leg") = .ok bs ∧ (summary bs).1 =
      [.component "ArmComponentImpl", .record "Pose", .record "Goal",
        .component "LegComponentImpl"]) ∧
    ∃ bs, headers (armModel "pose" "arm") = .ok bs ∧ summary bs =
      ([.component "ArmComponentImpl", .record "Pose", .record "pose",
        .component "armComponentImpl"], armOutline) :=
  ⟨exists_of_toOption_map (by decide +kernel), exists_of_toOption_map (by decide +kernel)⟩

theorem kept_armOutline : (({} : Scan).run armOutline).kept =
    [.record "Pose", .component "ArmComponentImpl"] := by
  decide +kernel

end Sample

/-- Record types have the same macro exactly if their names differ in case alone, and so have
components. Of any headers of a model, in any order, a compiler keeps nothing twice; and it keeps
every record type and every class exactly if no two of them have the same macro. -/
theorem Model.inclusion_complete {d : Definition} {m : Model} (h : Model.build d = .ok m) :
    ((m.recordTypes.map (·.includeGuard)).Nodup ↔
      (m.recordTypes.map (·.name.ident.toUpper)).Nodup) ∧
    ((m.components.map (·.synthesize.includeGuard)).Nodup ↔
      (m.components.map (·.name.ident.toUpper)).Nodup) ∧
    ∀ (s : Compilation) (path : String) (p : Profile) (bs : List Bundle), s.Of m →
      (∀ b ∈ bs, ∃ c ∈ m.components,
        Bundle.collect path c.synthesize s.library m.recordTypes = .ok b) →
      (Bundle.included p bs).Nodup ∧
      ((∀ e ∈ bs.flatMap (·.entries), e.landmark ∈ Bundle.included p bs) ↔
        ∀ e ∈ bs.flatMap (·.entries), ∀ e' ∈ bs.flatMap (·.entries),
          e.guard = e'.guard → e.landmark = e'.landmark) ∧
      ((m.recordTypes.map (·.includeGuard)).Nodup →
        (m.components.map (·.synthesize.includeGuard)).Nodup →
          ∀ e ∈ bs.flatMap (·.entries), e.landmark ∈ Bundle.included p bs) := by
  refine ⟨RecordType.nodup_includeGuard_iff _, Component.nodup_includeGuard_iff _, ?_⟩
  intro s path p bs hs hbs
  have hnamed := Bundle.named_of_collect hbs h hs
  have hsame := Bundle.eq_of_className hbs (Model.resolved_of_build h)
  have hall := Bundle.included_all_iff (p := p) hnamed hsame
  exact ⟨Bundle.nodup_included hnamed, hall, fun hrecords hcomponents =>
    hall.2 (Bundle.guards_apart hbs hrecords hcomponents)⟩

/-- Of a model whose names differ by more than case, all is kept, also if all is included twice. -/
theorem Sample.inclusion_complete_arm : ∃ bs, headers (armModel "Goal" "Leg") = .ok bs ∧
    (bs.flatMap (·.entries)).map (·.landmark) = [.component "ArmComponentImpl", .record "Pose",
      .record "Goal", .component "LegComponentImpl"] ∧
    ∀ e ∈ (bs ++ bs).flatMap (·.entries), e.landmark ∈ Bundle.included .production (bs ++ bs) := by
  obtain ⟨⟨bs, hbs, hentries⟩, -⟩ := exists_headers
  obtain ⟨hrecords, hcomponents, hheaders⟩ := Model.inclusion_complete build_armDefinition.1
  refine ⟨bs, hbs, hentries, ?_⟩
  obtain ⟨-, -, hall⟩ := hheaders _ "Gen" .production (bs ++ bs) (of_armCompiled _ _) fun b hb =>
    mem_headers hbs b ((List.mem_append.1 hb).elim id id)
  exact hall (hrecords.2 (by decide +kernel)) (hcomponents.2 (by decide +kernel))

/-- Names that differ in case alone: the second record type and the second class are lost. -/
theorem Sample.inclusion_incomplete_arm :
    Model.build (armDefinition "pose" "arm") = .ok (armModel "pose" "arm") ∧
    ∃ bs, headers (armModel "pose" "arm") = .ok bs ∧
      (bs.flatMap (·.entries)).map (·.landmark) = [.component "ArmComponentImpl", .record "Pose",
        .record "pose", .component "armComponentImpl"] ∧
      Bundle.included .production bs = [.record "Pose", .component "ArmComponentImpl"] := by
  obtain ⟨-, bs, hbs, hsummary⟩ := exists_headers
  have hnamed := Bundle.named_of_collect (mem_headers hbs) build_armDefinition.2
    (of_armCompiled _ _)
  have houtline : bs.flatMap (·.outline) = armOutline := congrArg Prod.snd hsummary
  refine ⟨build_armDefinition.2, bs, hbs, congrArg Prod.fst hsummary, ?_⟩
  rw [Bundle.included_eq hnamed, houtline, kept_armOutline]

end FlightGen
