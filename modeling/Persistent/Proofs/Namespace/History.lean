import Persistent.Proofs.Namespace.Census

/-!
Namespaces over whole runs. Every answer of a run is what the steps before it tell: a lookup gives
what was bound last through any handle of the namespace, and a snapshot stays as it was taken.
-/

set_option autoImplicit false

namespace Persistent.Namespace

open Map (Bound Unbound Recalls)

variable [Hasher]

/-- The answer to a step that comes after a run. -/
def answer (steps : List Step) (s : Step) : Answer :=
  ((after steps).step s).1

/-- The answers that the steps of a run before a step allow it. -/
inductive Allows (before : List Step) : Step → Answer → Prop where
  | new (name : Symbol Metadata) :
    Allows before (.new name) (.number (census before).handles.length)
  | clone {h : ℕ} {handle : Handle} : (census before).handles[h]? = some handle →
    Allows before (.clone h) (.number (census before).handles.length)
  | intern {h : ℕ} {handle : Handle} {symbol : Symbol Metadata} {value : Value} {m : Mappings} :
    (census before).handles[h]? = some handle →
    m.Recalls (bindings handle.tables (before ++ [.intern h symbol value])) →
    Allows before (.intern h symbol value) (.mappings m)
  | unmap {h : ℕ} {handle : Handle} {symbol : Symbol Metadata} {m : Mappings} :
    (census before).handles[h]? = some handle →
    m.Recalls (bindings handle.tables (before ++ [.unmap h symbol])) →
    Allows before (.unmap h symbol) (.mappings m)
  | addAlias {h : ℕ} {handle : Handle} {name target : Symbol Metadata} {m : Aliases} :
    (census before).handles[h]? = some handle →
    m.Recalls (aliasings handle.tables (before ++ [.addAlias h name target])) →
    Allows before (.addAlias h name target) (.aliases m)
  | find {h : ℕ} {handle : Handle} {symbol : Symbol Metadata} {found : Option Value} :
    (census before).handles[h]? = some handle →
    (∀ value, found = some value ↔ Bound (bindings handle.tables before) symbol value) →
    (found = none ↔ Unbound (bindings handle.tables before) symbol) →
    Allows before (.find h symbol) (.value found)
  | resolveAlias {h : ℕ} {handle : Handle} {name : Symbol Metadata}
      {found : Option (Symbol Metadata)} :
    (census before).handles[h]? = some handle →
    (∀ target, found = some target ↔ Bound (aliasings handle.tables before) name target) →
    (found = none ↔ Unbound (aliasings handle.tables before) name) →
    Allows before (.resolveAlias h name) (.symbol found)
  | name {h : ℕ} {handle : Handle} : (census before).handles[h]? = some handle →
    Allows before (.name h) (.name handle.name)
  | mappings {h : ℕ} {handle : Handle} {m : Mappings} :
    (census before).handles[h]? = some handle →
    m.Recalls (bindings handle.tables before) →
    Allows before (.mappings h) (.mappings m)
  | aliases {h : ℕ} {handle : Handle} {m : Aliases} :
    (census before).handles[h]? = some handle →
    m.Recalls (aliasings handle.tables before) →
    Allows before (.aliases h) (.aliases m)
  | snapshot {h n : ℕ} {handle : Handle} : (census before).handles[h]? = some handle →
    (∀ early g late, before = early ++ .snapshot g :: late →
      answer early (.snapshot g) ≠ .number n) →
    Allows before (.snapshot h) (.number n)
  | showSnapshot {early late : List Step} {g n : ℕ} : before = early ++ .snapshot g :: late →
    answer early (.snapshot g) = .number n →
    Allows before (.showSnapshot n) (answer early (.mappings g))
  | noHandle {s : Step} {h : ℕ} : s.handle? = some h → (census before).handles[h]? = none →
    Allows before s .unknown
  | noSnapshot {n : ℕ} : (∀ early g late, before = early ++ .snapshot g :: late →
      answer early (.snapshot g) ≠ .number n) →
    Allows before (.showSnapshot n) .unknown

/-- What a step leaves as it is. -/
structure Framed (before : List Step) (s : Step) : Prop where
  handle_kept : ∀ (g : ℕ) (handle : Handle), (after before).handles[g]? = some handle →
    (after (before ++ [s])).handles[g]? = some handle
  others_kept : ∀ (g : ℕ) (handle : Handle), (after before).handles[g]? = some handle →
    (census before).addressed s ≠ some handle.tables →
    (after (before ++ [s])).tablesOf? g = (after before).tablesOf? g
  mappings_kept : s.binding? = none → ∀ (g : ℕ) (t : Tables), (after before).tablesOf? g = some t →
    ∃ t', (after (before ++ [s])).tablesOf? g = some t' ∧ t'.mappings = t.mappings
  aliases_kept : s.aliasing? = none → ∀ (g : ℕ) (t : Tables), (after before).tablesOf? g = some t →
    ∃ t', (after (before ++ [s])).tablesOf? g = some t' ∧ t'.aliases = t.aliases
  snapshot_kept : ∀ (n : ℕ) (m : Mappings), (after before).snapshots[n]? = some m →
    (after (before ++ [s])).snapshots[n]? = some m

/-- A run whose history tells all of its answers. -/
structure ToldByHistory (steps : List Step) : Prop where
  length_eq : (({} : Registry).run steps).1.length = steps.length
  answered : ∀ before s later, steps = before ++ s :: later →
    (({} : Registry).run steps).1[before.length]? = some (answer before s)
  allowed : ∀ before s later, steps = before ++ s :: later → Allows before s (answer before s)
  framed : ∀ before s later, steps = before ++ s :: later → Framed before s

/-- A table holds what the steps of the run wrote to it. -/
theorem tables_after (steps : List Step) :
    ∀ (n : ℕ) (t : Tables), (after steps).tables[n]? = some t →
    t.mappings = (bindings n steps).foldl Map.write {} ∧
    t.aliases = (aliasings n steps).foldl Map.write {} := by
  induction steps using List.reverseRecOn with
  | nil => nofun
  | append_singleton steps s ih =>
    intro n t there
    rw [after_concat] at there
    rw [bindings, aliasings, writes_concat, writes_concat, List.foldl_append, List.foldl_append]
    by_cases made : n < (after steps).tables.size
    · have old := Array.getElem?_eq_getElem made
      have held := ih n _ old
      have now := there.symm.trans (Registry.step_tables old s)
      rw [Option.some.injEq, census_after] at now
      by_cases goes : (census steps).addressed s = some n
      · rw [if_pos goes] at now
        rw [if_pos goes, if_pos goes, now]
        unfold bindings aliasings at held
        rw [← held.1, ← held.2]
        exact ⟨rfl, rfl⟩
      · rw [if_neg goes] at now
        rw [if_neg goes, if_neg goes, now]
        exact held
    · have unmade : (census steps).namespaces ≤ n := by
        rw [← census_after]
        exact Nat.not_lt.1 made
      have untouched : (census steps).addressed s ≠ some n := fun goes =>
        absurd (addressed_lt goes) (Nat.not_lt.2 unmade)
      rw [Registry.step_fresh (Nat.not_lt.1 made) there, writes_unmade _ n unmade,
        writes_unmade _ n unmade, if_neg untouched, if_neg untouched]
      exact ⟨rfl, rfl⟩

/-- The tables behind a handle, and what they recall. -/
theorem tablesOf_after {steps : List Step} {h : ℕ} {handle : Handle}
    (there : (census steps).handles[h]? = some handle) :
    ∃ t, (after steps).tablesOf? h = some t ∧
      (after steps).tables[handle.tables]? = some t ∧
      t.mappings.Recalls (bindings handle.tables steps) ∧
      t.aliases.Recalls (aliasings handle.tables steps) := by
  have made : handle.tables < (after steps).tables.size := by
    have inside := tables_lt steps handle (List.mem_of_getElem? there)
    rw [← census_after] at inside
    exact inside
  have found := Array.getElem?_eq_getElem made
  obtain ⟨bound, aliased⟩ := tables_after steps _ _ found
  refine ⟨_, ?_, found, ?_, ?_⟩
  · rw [Registry.tablesOf?, handles_after, there]
    exact found
  · rw [bound]
    exact Map.recalls_writes _
  · rw [aliased]
    exact Map.recalls_writes _

section Snapshots

variable {steps : List Step} {g n : ℕ}

theorem answer_mappings {t : Tables} (found : (after steps).tablesOf? g = some t) :
    answer steps (.mappings g) = .mappings t.mappings :=
  Registry.ask_of found _

/-- A snapshot stays what the mappings were. -/
theorem snapshot_stays (taken : answer steps (.snapshot g) = .number n) (late : List Step) :
    ∃ m, answer steps (.mappings g) = .mappings m ∧
      (after (steps ++ .snapshot g :: late)).snapshots[n]? = some m := by
  cases found : (after steps).tablesOf? g with
  | none => simp [answer, Registry.step, found] at taken
  | some t =>
    refine ⟨_, answer_mappings found, ?_⟩
    induction late using List.reverseRecOn with
    | nil =>
      simp only [answer, Registry.step, found, Answer.number.injEq] at taken
      rw [after_concat]
      simp [Registry.step, found, ← taken]
    | append_singleton late s ih =>
      rw [← List.cons_append, ← List.append_assoc, after_concat]
      exact Registry.step_snapshots ih s

theorem snapshot_taken {m : Mappings} (there : (after steps).snapshots[n]? = some m) :
    ∃ early g late, steps = early ++ .snapshot g :: late ∧
      answer early (.snapshot g) = .number n ∧ answer early (.mappings g) = .mappings m := by
  induction steps using List.reverseRecOn with
  | nil => simp [after, Registry.run] at there
  | append_singleton steps s ih =>
    rw [after_concat] at there
    by_cases old : n < (after steps).snapshots.size
    · have before := Array.getElem?_eq_getElem old
      have same := (Registry.step_snapshots before s).symm.trans there
      obtain ⟨early, g, late, rfl, number, shown⟩ := ih (before.trans same)
      exact ⟨early, g, late ++ [s], by simp, number, shown⟩
    · obtain ⟨g, t, rfl, number, found, rfl⟩ := Registry.step_taken (Nat.not_lt.1 old) there
      exact ⟨steps, g, [], rfl, number, answer_mappings found⟩

end Snapshots

section Answers

variable {steps : List Step} {s : Step} {h : ℕ}

theorem answer_unknown (through : s.handle? = some h)
    (nowhere : (census steps).handles[h]? = none) : answer steps s = .unknown := by
  rw [← handles_after] at nowhere
  cases s with
  | new | showSnapshot => cases through
  | _ =>
    cases through
    simp [answer, Registry.step, Registry.update, Registry.askMappings, Registry.askAliases,
      Registry.ask, Registry.tablesOf?, nowhere]

theorem allows_through {handle : Handle} (through : s.handle? = some h)
    (there : (census steps).handles[h]? = some handle) : Allows steps s (answer steps s) := by
  obtain ⟨t, found, -, bound, aliased⟩ := tablesOf_after there
  -- a write answers with the tables as they are after it
  obtain ⟨t', found', -, bound', aliased'⟩ := tablesOf_after (handles_concat there s)
  rw [after_concat] at found'
  cases s with
  | new | showSnapshot => cases through
  | clone =>
    cases through
    have known := (handles_after steps h).trans there
    simp only [answer, Registry.step, known, size_handles_after]
    exact .clone there
  | intern _ symbol value =>
    cases through
    have shown : answer steps (.intern h symbol value) = .mappings t'.mappings :=
      Registry.ask_of found' _
    rw [shown]
    exact .intern there bound'
  | unmap _ symbol =>
    cases through
    have shown : answer steps (.unmap h symbol) = .mappings t'.mappings := Registry.ask_of found' _
    rw [shown]
    exact .unmap there bound'
  | addAlias _ name target =>
    cases through
    have shown : answer steps (.addAlias h name target) = .aliases t'.aliases :=
      Registry.ask_of found' _
    rw [shown]
    exact .addAlias there aliased'
  | find _ symbol =>
    cases through
    have shown : answer steps (.find h symbol) = .value (t.mappings.get? symbol) :=
      Registry.ask_of found _
    rw [shown]
    exact .find there (bound.get?_iff symbol) (bound.get?_none_iff symbol)
  | resolveAlias _ name =>
    cases through
    have shown : answer steps (.resolveAlias h name) = .symbol (t.aliases.get? name) :=
      Registry.ask_of found _
    rw [shown]
    exact .resolveAlias there (aliased.get?_iff name) (aliased.get?_none_iff name)
  | name =>
    cases through
    have known := (handles_after steps h).trans there
    simp only [answer, Registry.step, known]
    exact .name there
  | mappings =>
    cases through
    rw [answer_mappings found]
    exact .mappings there bound
  | aliases =>
    cases through
    have shown : answer steps (.aliases h) = .aliases t.aliases := Registry.ask_of found _
    rw [shown]
    exact .aliases there aliased
  | snapshot =>
    cases through
    simp only [answer, Registry.step, found]
    refine .snapshot there ?_
    rintro early g late rfl taken
    obtain ⟨m, -, stays⟩ := snapshot_stays taken late
    have inside := (Array.getElem?_eq_some_iff.1 stays).1
    omega

theorem allows_answer (steps : List Step) (s : Step) : Allows steps s (answer steps s) := by
  cases through : s.handle? with
  | some h =>
    cases there : (census steps).handles[h]? with
    | none =>
      rw [answer_unknown through there]
      exact .noHandle through there
    | some handle => exact allows_through through there
  | none =>
    cases s with
    | new name =>
      simp only [answer, Registry.step, size_handles_after]
      exact .new name
    | showSnapshot n =>
      cases shown : (after steps).snapshots[n]? with
      | none =>
        simp only [answer, Registry.step, shown]
        refine .noSnapshot ?_
        rintro early g late rfl taken
        obtain ⟨m, -, stays⟩ := snapshot_stays taken late
        cases shown.symm.trans stays
      | some m =>
        obtain ⟨early, g, late, cut, taken, same⟩ := snapshot_taken shown
        simp only [answer, Registry.step, shown]
        rw [← same]
        exact .showSnapshot cut taken
    | _ => cases through

end Answers

/-- The tables behind a handle after one more step. -/
theorem tablesOf_concat {steps : List Step} {g : ℕ} {handle : Handle}
    (there : (after steps).handles[g]? = some handle) (s : Step) :
    ∃ t, (after steps).tablesOf? g = some t ∧ (after (steps ++ [s])).tablesOf? g =
      some (if (census steps).addressed s = some handle.tables then s.change t else t) := by
  rw [handles_after] at there
  obtain ⟨t, found, stored, -⟩ := tablesOf_after there
  refine ⟨t, found, ?_⟩
  rw [Registry.tablesOf?, handles_after, handles_concat there, Option.bind_some, after_concat,
    Registry.step_tables stored, census_after]

theorem framed (steps : List Step) (s : Step) : Framed steps s := by
  have kept {α : Type} (part : Tables → α) (same : ∀ t, part (s.change t) = part t) {g : ℕ}
      {t : Tables} (found : (after steps).tablesOf? g = some t) :
      ∃ t', (after (steps ++ [s])).tablesOf? g = some t' ∧ part t' = part t := by
    obtain ⟨handle, there, -⟩ := Option.bind_eq_some_iff.1 found
    obtain ⟨t₀, found₀, now⟩ := tablesOf_concat there s
    cases found.symm.trans found₀
    refine ⟨_, now, ?_⟩
    split
    · exact same t
    · rfl
  refine ⟨?_, ?_, ?_, ?_, ?_⟩
  · intro g handle there
    rw [handles_after] at there ⊢
    exact handles_concat there s
  · intro g handle there elsewhere
    obtain ⟨t, found, now⟩ := tablesOf_concat there s
    rw [now, if_neg elsewhere, found]
  · intro unbinding g t found
    refine kept (·.mappings) ?_ found
    intro t
    rw [Step.change, unbinding]
    rfl
  · intro unaliasing g t found
    refine kept (·.aliases) ?_ found
    intro t
    rw [Step.change, unaliasing]
    rfl
  · intro n m there
    rw [after_concat]
    exact Registry.step_snapshots there s

theorem run_told_by_history (steps : List Step) : ToldByHistory steps where
  length_eq := Registry.length_run {} steps
  answered := by
    rintro before s later rfl
    rw [Registry.run_append]
    change (_ ++ answer before s :: _)[before.length]? = _
    rw [← Registry.length_run {} before, List.getElem?_append_right (Nat.le_refl _), Nat.sub_self]
    rfl
  allowed before s _ _ := allows_answer before s
  framed before s _ _ := framed before s

end Persistent.Namespace
