import Mathlib.Data.List.Pairwise
import FlightGen.Proofs.Naming.Acceptance

/-! The history of a name table. A ledger lists the identifiers that were given out or reserved,
and says by itself how each call is answered: a text that has an identifier keeps it, a new
identifier is the first free one of those built from the text, and a text without letters and
digits gets none. A table follows its ledger through every sequence of calls. -/

namespace FlightGen

/-! ### The first free identifier -/

namespace Names

/-- The identifier that collisions leave to a base: the base itself, or the base with the least
suffix from 2 on that makes it free. -/
inductive FirstFree (kind : NameKind) (taken : List String) (base : String) : String → Prop
  | plain : kind.key base ∉ taken → FirstFree kind taken base base
  | suffixed {k : Nat} : kind.key base ∈ taken → 2 ≤ k → kind.key (suffixed base k) ∉ taken →
      (∀ j, 2 ≤ j → j < k → kind.key (Names.suffixed base j) ∈ taken) →
      FirstFree kind taken base (Names.suffixed base k)

variable {kind : NameKind} {taken : List String} {base ident : String}

theorem FirstFree.free (h : FirstFree kind taken base ident) : kind.key ident ∉ taken := by
  cases h <;> assumption

theorem firstFree_available (kind : NameKind) (taken : List String) (base : String) :
    FirstFree kind taken base (available kind taken base) := by
  have hfree := key_available kind taken base
  unfold available at hfree ⊢
  split
  · rename_i hbase
    rw [if_pos hbase] at hfree
    dsimp only at hfree ⊢
    rw [List.find?_map] at hfree ⊢
    cases hfind : (List.range (taken.length + 1)).find?
        ((fun ident => decide (kind.key ident ∉ taken)) ∘ fun i => Names.suffixed base (i + 2)) with
    | none =>
      rw [hfind] at hfree
      exact absurd hbase hfree
    | some i =>
      obtain ⟨hi, -, hbefore⟩ := List.find?_range_eq_some.1 hfind
      refine .suffixed hbase (by omega) (by simpa using hi) fun j hj hlt => ?_
      have htaken := hbefore (j - 2) (by omega)
      simpa [Nat.sub_add_cancel hj] using htaken
  · rename_i hbase
    exact .plain hbase

-- States may not differ in case alone, and a suffix can be taken as well.
example : available .state ["ON_2", "OFF", "ON"] "on" = "on_3" := by
  decide +kernel

theorem forget_of_lookup_none {names : Names} {raw : String} (h : names.assigned.lookup raw = none) :
    names.forget raw = names := by
  have hall : names.assigned.filter (·.1 ≠ raw) = names.assigned := by
    rw [List.filter_eq_self]
    intro entry hentry
    have hne := List.lookup_eq_none_iff.1 h entry hentry
    exact decide_eq_true fun heq => by simp [heq] at hne
  rw [forget, hall]

end Names

/-! ### Calls -/

namespace NameTable

/-- What can be asked of a table. -/
inductive Call where
  | assign (scope : String) (kind : NameKind) (raw : String)
  | assignFresh (scope : String) (kind : NameKind) (raw : String)
  | reserve (scope : String) (kind : NameKind) (ident : String)
  | lookup (scope : String) (kind : NameKind) (raw : String)

/-- What a call gives: an identifier, nothing, or an error. -/
abbrev Answer := Except ModelError (Option String)

/-- Takes its identifier from a text, though not out of use. -/
def forget (t : NameTable) (scope : String) (kind : NameKind) (raw : String) : NameTable :=
  t.put scope kind ((t.names scope kind).forget raw)

/-- The answer of an assignment, and the table after it. -/
def settle (t : NameTable) : Except ModelError (String × NameTable) → Answer × NameTable
  | .ok (ident, t') => (.ok (some ident), t')
  | .error e => (.error e, t)

/-- Answers a call. A new identifier is only sought after the old one is forgotten, also if
there is none in the end. -/
def answer (t : NameTable) : Call → Answer × NameTable
  | .assign scope kind raw => t.settle (t.assign scope kind raw)
  | .assignFresh scope kind raw => (t.forget scope kind raw).settle (t.assignFresh scope kind raw)
  | .reserve scope kind ident => (.ok none, t.reserve scope kind ident)
  | .lookup scope kind raw => (.ok (t.lookup scope kind raw), t)

/-- Calls to a new table, one after the other, and the table after them. -/
def answerAll (calls : List Call) : List Answer × NameTable :=
  calls.foldl (fun run call => (run.1 ++ [(run.2.answer call).1], (run.2.answer call).2)) ([], {})

theorem answerAll_concat (calls : List Call) (call : Call) :
    answerAll (calls ++ [call]) = ((answerAll calls).1 ++ [((answerAll calls).2.answer call).1],
      ((answerAll calls).2.answer call).2) := by
  rw [answerAll, List.foldl_concat]
  rfl

variable {t : NameTable} {scope raw : String} {kind : NameKind}

theorem names_forget_of_none (h : t.lookup scope kind raw = none) (scope' : String)
    (kind' : NameKind) : (t.forget scope kind raw).names scope' kind' = t.names scope' kind' := by
  rw [forget, names_put, Names.forget_of_lookup_none h]
  split
  · rename_i hplace
    rw [hplace.1, hplace.2]
  · rfl

/-- A text without an identifier is given one if there are letters or digits to build it from. -/
theorem settle_assign_of_none (h : t.lookup scope kind raw = none) :
    (¬ Nameable raw ∧ t.settle (t.assign scope kind raw) =
      (.error (.invalidIdentifier (entityPath scope raw) raw), t)) ∨
    ∃ base, Identifier.render? raw = some base ∧ t.settle (t.assign scope kind raw) =
      (.ok (some (Names.available kind (t.names scope kind).taken base)),
        t.put scope kind ((t.names scope kind).allocate kind raw base).2) := by
  cases hbase : Identifier.render? raw with
  | none =>
    refine .inl ⟨fun hnameable => ?_, by simp only [assign, h, hbase, settle]⟩
    obtain ⟨base, hsome⟩ := Identifier.exists_render?_iff.2 hnameable
    rw [hbase] at hsome
    cases hsome
  | some base => exact .inr ⟨base, rfl, by simp only [assign, h, hbase, settle, Names.allocate]⟩

end NameTable

/-! ### Ledgers -/

/-- An identifier that is no longer free, with the text it was given to unless it was only
reserved. -/
structure Ledger.Entry where
  scope : String
  kind : NameKind
  raw : Option String
  ident : String

/-- All identifiers that are no longer free, the latest first. -/
abbrev Ledger := List Ledger.Entry

namespace Ledger

open NameTable (Call Answer entityPath)

def keys (l : Ledger) (scope : String) (kind : NameKind) : List String :=
  (l.filter fun entry => entry.scope = scope ∧ entry.kind = kind).map (kind.key ·.ident)

/-- The identifier that was last given to a text. -/
def last? (l : Ledger) (scope : String) (kind : NameKind) (raw : String) : Option String :=
  (l.find? fun entry => entry.scope = scope ∧ entry.kind = kind ∧ entry.raw = some raw).map (·.ident)

/-- How a call is answered after what the ledger lists, and what it lists from then on. -/
inductive Answers (l : Ledger) : Call → Answer → Ledger → Prop
  | known {scope raw ident : String} {kind : NameKind} : Nameable raw →
      l.last? scope kind raw = some ident →
      Answers l (.assign scope kind raw) (.ok (some ident)) l
  | assigned {scope raw base ident : String} {kind : NameKind} : l.last? scope kind raw = none →
      Identifier.render? raw = some base → Names.FirstFree kind (l.keys scope kind) base ident →
      Answers l (.assign scope kind raw) (.ok (some ident)) (⟨scope, kind, some raw, ident⟩ :: l)
  | renewed {scope raw base ident : String} {kind : NameKind} :
      Identifier.render? raw = some base → Names.FirstFree kind (l.keys scope kind) base ident →
      Answers l (.assignFresh scope kind raw) (.ok (some ident)) (⟨scope, kind, some raw, ident⟩ :: l)
  | unassignable {scope raw : String} (kind : NameKind) : ¬ Nameable raw →
      Answers l (.assign scope kind raw) (.error (.invalidIdentifier (entityPath scope raw) raw)) l
  | unrenewable {scope raw : String} (kind : NameKind) : ¬ Nameable raw →
      Answers l (.assignFresh scope kind raw) (.error (.invalidIdentifier (entityPath scope raw) raw)) l
  | reserved (scope : String) (kind : NameKind) (ident : String) :
      Answers l (.reserve scope kind ident) (.ok none) (⟨scope, kind, none, ident⟩ :: l)
  | found (scope : String) (kind : NameKind) (raw : String) :
      Answers l (.lookup scope kind raw) (.ok (l.last? scope kind raw)) l

/-- The ledger of calls in turn, from an empty one on. -/
inductive Run : List Call → List Answer → Ledger → Prop
  | nil : Run [] [] []
  | concat {calls : List Call} {answers : List Answer} {l l' : Ledger} {call : Call}
      {answer : Answer} : Run calls answers l → l.Answers call answer l' →
      Run (calls ++ [call]) (answers ++ [answer]) l'

/-- Only texts with letters or digits are listed, and what is given to a text was free. -/
structure Sound (l : Ledger) : Prop where
  nameable : ∀ entry ∈ l, ∀ raw, entry.raw = some raw → Nameable raw
  apart : l.Pairwise fun later earlier => later.raw.isSome → earlier.scope = later.scope →
    earlier.kind = later.kind → later.kind.key earlier.ident ≠ later.kind.key later.ident

variable {l l' : Ledger} {scope raw ident : String} {kind : NameKind}

theorem mem_keys {key : String} : key ∈ l.keys scope kind ↔ ∃ entry ∈ l, entry.scope = scope ∧
    entry.kind = kind ∧ kind.key entry.ident = key := by
  simp [keys, and_assoc]

theorem keys_cons (entry : Entry) (l : Ledger) : keys (entry :: l) scope kind =
    if entry.scope = scope ∧ entry.kind = kind then kind.key entry.ident :: l.keys scope kind
    else l.keys scope kind := by
  by_cases h : entry.scope = scope ∧ entry.kind = kind <;> simp [keys, h]

theorem last?_cons (entry : Entry) (l : Ledger) : last? (entry :: l) scope kind raw =
    if entry.scope = scope ∧ entry.kind = kind ∧ entry.raw = some raw then some entry.ident
    else l.last? scope kind raw := by
  by_cases h : entry.scope = scope ∧ entry.kind = kind ∧ entry.raw = some raw <;>
    simp [last?, h]

theorem last?_eq_some (h : l.last? scope kind raw = some ident) :
    ⟨scope, kind, some raw, ident⟩ ∈ l := by
  obtain ⟨entry, hentry, rfl⟩ := Option.map_eq_some_iff.1 h
  have hplace := List.find?_some hentry
  rw [decide_eq_true_eq] at hplace
  obtain ⟨rfl, rfl, hraw⟩ := hplace
  rw [← hraw]
  exact List.mem_of_find?_eq_some hentry

/-! ### What a ledger keeps -/

theorem Sound.assign (h : l.Sound) {base : String} (hbase : Identifier.render? raw = some base)
    (hfirst : Names.FirstFree kind (l.keys scope kind) base ident) :
    Sound (⟨scope, kind, some raw, ident⟩ :: l) := by
  refine ⟨List.forall_mem_cons.2 ⟨fun raw' hraw => ?_, h.nameable⟩, List.pairwise_cons.2 ⟨?_, h.apart⟩⟩
  · cases hraw
    exact Identifier.exists_render?_iff.1 ⟨base, hbase⟩
  · intro entry hentry _ hscope hkind hkey
    exact hfirst.free (mem_keys.2 ⟨entry, hentry, hscope, hkind, hkey⟩)

theorem Answers.sound {call : Call} {answer : Answer} (h : l.Answers call answer l') (hl : l.Sound) :
    l'.Sound := by
  cases h with
  | known | unassignable | unrenewable | found => exact hl
  | assigned _ hbase hfirst => exact hl.assign hbase hfirst
  | renewed hbase hfirst => exact hl.assign hbase hfirst
  | reserved =>
    refine ⟨List.forall_mem_cons.2 ⟨fun raw hraw => ?_, hl.nameable⟩, List.pairwise_cons.2 ⟨?_, hl.apart⟩⟩
    · cases hraw
    · intro entry _ hsome
      cases hsome

theorem Run.sound {calls : List Call} {answers : List Answer} (h : Run calls answers l) : l.Sound := by
  induction h with
  | nil => exact ⟨by simp, .nil⟩
  | concat _ hanswers ih => exact hanswers.sound ih

/-- Texts that have identifiers at the same time have different ones. -/
theorem Sound.last?_injective (h : l.Sound) {raw' ident' : String}
    (hraw : l.last? scope kind raw = some ident) (hraw' : l.last? scope kind raw' = some ident')
    (hkey : kind.key ident = kind.key ident') : raw = raw' := by
  induction l with
  | nil => cases hraw
  | cons entry l ih =>
    obtain ⟨hnew, hapart⟩ := List.pairwise_cons.1 h.apart
    rw [last?_cons] at hraw hraw'
    split at hraw <;> split at hraw'
    · rename_i hentry hentry'
      exact Option.some.inj (hentry.2.2.symm.trans hentry'.2.2)
    -- The later of the two identifiers was free when the earlier one was not.
    · rename_i hentry _
      obtain ⟨rfl, rfl, hsome⟩ := hentry
      cases hraw
      exact absurd hkey.symm (hnew _ (last?_eq_some hraw') (by simp [hsome]) rfl rfl)
    · rename_i _ hentry
      obtain ⟨rfl, rfl, hsome⟩ := hentry
      cases hraw'
      exact absurd hkey (hnew _ (last?_eq_some hraw) (by simp [hsome]) rfl rfl)
    · exact ih ⟨fun e he => h.nameable e (List.mem_cons_of_mem _ he), hapart⟩ hraw hraw'

/-! ### Tables and their ledgers -/

/-- The ledger tells which identifiers are taken, and which one a text has. -/
structure Describes (l : Ledger) (t : NameTable) : Prop where
  taken : ∀ scope kind, (t.names scope kind).taken = l.keys scope kind
  lookup : ∀ scope kind raw, t.lookup scope kind raw = l.last? scope kind raw

variable {t t' : NameTable}

theorem describes_nil : Describes [] {} :=
  ⟨fun _ _ => rfl, fun _ _ _ => rfl⟩

theorem Describes.congr (h : l.Describes t)
    (hnames : ∀ scope kind, t'.names scope kind = t.names scope kind) : l.Describes t' := by
  refine ⟨fun scope kind => ?_, fun scope kind raw => ?_⟩
  · rw [hnames, h.taken]
  · rw [← h.lookup, NameTable.lookup, NameTable.lookup, hnames]

/-- One more key is taken where the new entry says. -/
theorem taken_put (htaken : ∀ scope kind, (t.names scope kind).taken = l.keys scope kind)
    {names : Names} (hnames : names.taken = kind.key ident :: (t.names scope kind).taken)
    {raw : Option String} (scope' : String) (kind' : NameKind) :
    ((t.put scope kind names).names scope' kind').taken =
      keys (⟨scope, kind, raw, ident⟩ :: l) scope' kind' := by
  rw [NameTable.names_put, keys_cons, ← htaken]
  by_cases hplace : scope' = scope ∧ kind' = kind
  · obtain ⟨rfl, rfl⟩ := hplace
    rw [if_pos ⟨rfl, rfl⟩, if_pos ⟨rfl, rfl⟩, hnames]
  · rw [if_neg hplace, if_neg fun heq => hplace ⟨heq.1.symm, heq.2.symm⟩]

theorem Describes.reserve (h : l.Describes t) (scope : String) (kind : NameKind) (ident : String) :
    Describes (⟨scope, kind, none, ident⟩ :: l) (t.reserve scope kind ident) := by
  refine ⟨fun scope' kind' => ?_, fun scope' kind' raw => ?_⟩
  · exact taken_put h.taken rfl scope' kind'
  · rw [last?_cons, if_neg (by simp), ← h.lookup, NameTable.lookup, NameTable.reserve,
      NameTable.names_put]
    split
    · rename_i hplace
      obtain ⟨rfl, rfl⟩ := hplace
      rfl
    · rfl

/-- A new identifier is listed. The identifier that the text had before does not matter. -/
theorem describes_allocate (htaken : ∀ scope kind, (t.names scope kind).taken = l.keys scope kind)
    (hlookup : ∀ scope' kind' raw', ¬ (scope' = scope ∧ kind' = kind ∧ raw' = raw) →
      t.lookup scope' kind' raw' = l.last? scope' kind' raw') (base : String) :
    Describes (⟨scope, kind, some raw, Names.available kind (t.names scope kind).taken base⟩ :: l)
      (t.put scope kind ((t.names scope kind).allocate kind raw base).2) := by
  refine ⟨fun scope' kind' => ?_, fun scope' kind' raw' => ?_⟩
  · exact taken_put htaken rfl scope' kind'
  · rw [last?_cons, NameTable.lookup, NameTable.names_put]
    by_cases hplace : scope' = scope ∧ kind' = kind
    · obtain ⟨rfl, rfl⟩ := hplace
      rw [if_pos ⟨rfl, rfl⟩, Names.lookup_allocate]
      by_cases hraw : raw' = raw
      · simp [hraw, Names.allocate]
      · rw [if_neg hraw, if_neg (by simpa [eq_comm] using hraw)]
        exact hlookup _ _ _ fun heq => hraw heq.2.2
    · rw [if_neg hplace, if_neg fun heq => hplace ⟨heq.1.symm, heq.2.1.symm⟩]
      exact hlookup _ _ _ fun heq => hplace ⟨heq.1, heq.2.1⟩

/-- What comes out of a call is what the ledger `l` says, with the ledger `l'` afterwards. Unless
that lists something new, no table has changed. -/
structure Follows (l : Ledger) (t : NameTable) (call : Call) (out : Answer × NameTable)
    (l' : Ledger) : Prop where
  answers : l.Answers call out.1 l'
  describes : l'.Describes out.2
  unchanged : l' = l → ∀ scope kind, out.2.names scope kind = t.names scope kind

theorem Describes.assign (h : l.Describes t) (hl : l.Sound) (scope : String) (kind : NameKind)
    (raw : String) : ∃ l', l.Follows t (.assign scope kind raw) (t.answer (.assign scope kind raw)) l' := by
  have hlast := h.lookup scope kind raw
  cases hlookup : t.lookup scope kind raw with
  | some ident =>
    rw [hlookup] at hlast
    have hnameable := hl.nameable _ (last?_eq_some hlast.symm) raw rfl
    have hanswer : t.answer (.assign scope kind raw) = (.ok (some ident), t) := by
      simp only [NameTable.answer, NameTable.assign, hlookup, NameTable.settle]
    rw [hanswer]
    exact ⟨l, .known hnameable hlast.symm, h, fun _ _ _ => rfl⟩
  | none =>
    rw [hlookup] at hlast
    rw [NameTable.answer]
    obtain ⟨hnot, hsettle⟩ | ⟨base, hbase, hsettle⟩ := NameTable.settle_assign_of_none hlookup
    · rw [hsettle]
      exact ⟨l, .unassignable kind hnot, h, fun _ _ _ => rfl⟩
    · rw [hsettle]
      refine ⟨_, .assigned hlast.symm hbase ?_, describes_allocate h.taken (fun _ _ _ _ => h.lookup _ _ _) base,
        fun heq => absurd heq (List.cons_ne_self _ _)⟩
      rw [h.taken]
      exact Names.firstFree_available _ _ _

theorem Describes.assignFresh (h : l.Describes t) (hl : l.Sound) (scope : String) (kind : NameKind)
    (raw : String) :
    ∃ l', l.Follows t (.assignFresh scope kind raw) (t.answer (.assignFresh scope kind raw)) l' := by
  have htaken : ∀ scope' kind',
      ((t.forget scope kind raw).names scope' kind').taken = l.keys scope' kind' := by
    intro scope' kind'
    rw [NameTable.forget, NameTable.taken_forget, h.taken]
  have hforgotten : (t.forget scope kind raw).lookup scope kind raw = none := by
    rw [NameTable.forget, NameTable.lookup_forget, if_pos ⟨rfl, rfl, rfl⟩]
  rw [NameTable.answer, NameTable.assignFresh, ← NameTable.forget]
  obtain ⟨hnot, hsettle⟩ | ⟨base, hbase, hsettle⟩ := NameTable.settle_assign_of_none hforgotten
  · -- Such a text never had an identifier, so that there was nothing to forget.
    have hnone : t.lookup scope kind raw = none := by
      rw [h.lookup, Option.eq_none_iff_forall_ne_some]
      exact fun ident hlast => hnot (hl.nameable _ (last?_eq_some hlast) raw rfl)
    have hnames := NameTable.names_forget_of_none hnone
    rw [hsettle]
    exact ⟨l, .unrenewable kind hnot, h.congr hnames, fun _ => hnames⟩
  · rw [hsettle]
    refine ⟨_, .renewed hbase ?_, describes_allocate htaken (fun scope' kind' raw' hne => ?_) base,
      fun heq => absurd heq (List.cons_ne_self _ _)⟩
    · rw [htaken]
      exact Names.firstFree_available _ _ _
    · rw [NameTable.forget, NameTable.lookup_forget, if_neg hne, h.lookup]

/-- Every call is answered as the ledger says. -/
theorem Describes.answer (h : l.Describes t) (hl : l.Sound) (call : Call) :
    ∃ l', l.Follows t call (t.answer call) l' := by
  cases call with
  | assign scope kind raw => exact h.assign hl scope kind raw
  | assignFresh scope kind raw => exact h.assignFresh hl scope kind raw
  | reserve scope kind ident =>
    exact ⟨_, .reserved scope kind ident, h.reserve scope kind ident,
      fun heq => absurd heq (List.cons_ne_self _ _)⟩
  | lookup scope kind raw =>
    have hanswer : t.answer (.lookup scope kind raw) = (.ok (l.last? scope kind raw), t) := by
      rw [NameTable.answer, h.lookup]
    rw [hanswer]
    exact ⟨l, .found scope kind raw, h, fun _ _ _ => rfl⟩

/-- Calls in turn have a ledger, and it describes the table after them. -/
theorem exists_run (calls : List Call) :
    ∃ l, Run calls (NameTable.answerAll calls).1 l ∧ l.Describes (NameTable.answerAll calls).2 := by
  induction calls using List.reverseRecOn with
  | nil => exact ⟨[], .nil, describes_nil⟩
  | append_singleton calls call ih =>
    obtain ⟨l, hrun, hdescribes⟩ := ih
    obtain ⟨l', hfollows⟩ := hdescribes.answer hrun.sound call
    rw [NameTable.answerAll_concat]
    exact ⟨l', hrun.concat hfollows.answers, hfollows.describes⟩

end Ledger

/-- After any calls to a new table, the ledger of their answers is sound and describes the table.
Texts that have identifiers have different ones, and the next call is answered as the ledger
says. -/
theorem NameTable.answerAll_recorded (calls : List NameTable.Call) :
    ∃ l, Ledger.Run calls (answerAll calls).1 l ∧ l.Sound ∧ l.Describes (answerAll calls).2 ∧
      (∀ scope kind raw raw' ident ident',
        (answerAll calls).2.lookup scope kind raw = some ident →
        (answerAll calls).2.lookup scope kind raw' = some ident' →
        kind.key ident = kind.key ident' → raw = raw') ∧
      ∀ call, ∃ l', l.Follows (answerAll calls).2 call ((answerAll calls).2.answer call) l' := by
  obtain ⟨l, hrun, hdescribes⟩ := Ledger.exists_run calls
  refine ⟨l, hrun, hrun.sound, hdescribes, ?_, hdescribes.answer hrun.sound⟩
  intro scope kind raw raw' ident ident' hraw hraw' hkey
  rw [hdescribes.lookup] at hraw hraw'
  exact hrun.sound.last?_injective hraw hraw' hkey

end FlightGen
