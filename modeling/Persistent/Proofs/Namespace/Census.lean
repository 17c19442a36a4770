import Persistent.Namespace
import Persistent.Proofs.Map.History

/-!
Which handles share a namespace and what was written to its tables, told from the steps of a run
alone, and what each step does to the registry.
-/

set_option autoImplicit false

namespace Persistent.Namespace

open Map (Write)

/-- The handles made so far and the number of namespaces made. -/
structure Census where
  handles : List Handle := []
  namespaces : ℕ := 0

/-- A new handle has a namespace of its own, a clone has that of the handle it was cloned from. -/
def Census.step (c : Census) : Step → Census
  | .new name =>
    { handles := c.handles ++ [{ name, tables := c.namespaces }], namespaces := c.namespaces + 1 }
  | .clone handle => { c with handles := c.handles ++ c.handles[handle]?.toList }
  | _ => c

def census (steps : List Step) : Census :=
  steps.foldl Census.step {}

namespace Step

/-- The handle that a step goes through. -/
def handle? : Step → Option ℕ
  | .clone h | .intern h _ _ | .unmap h _ | .addAlias h _ _ | .find h _ | .resolveAlias h _
  | .name h | .mappings h | .aliases h | .snapshot h => some h
  | .new _ | .showSnapshot _ => none

/-- What a step writes to the bindings of the namespace it goes to. -/
def binding? : Step → Option (Write (Symbol Metadata) Value)
  | .intern _ symbol value => some { key := symbol, value := some value }
  | .unmap _ symbol => some { key := symbol, value := none }
  | _ => none

def aliasing? : Step → Option (Write (Symbol Metadata) (Symbol Metadata))
  | .addAlias _ key target => some { key, value := some target }
  | _ => none

/-- What a step does to the tables of the namespace it goes to. -/
def change [Hasher] (s : Step) (t : Tables) : Tables where
  mappings := s.binding?.toList.foldl Map.write t.mappings
  aliases := s.aliasing?.toList.foldl Map.write t.aliases

end Step

/-- The namespace that a step goes to. -/
def Census.addressed (c : Census) (s : Step) : Option ℕ :=
  (s.handle?.bind (c.handles[·]?)).map (·.tables)

section Writes

variable {V : Type} (kind : Step → Option (Write (Symbol Metadata) V)) (n : ℕ)

/-- The writes of one kind that steps make to a namespace, through whichever of its handles. -/
def writesFrom : Census → List Step → List (Write (Symbol Metadata) V)
  | _, [] => []
  | c, s :: steps =>
    (if c.addressed s = some n then (kind s).toList else []) ++ writesFrom (c.step s) steps

def writes (steps : List Step) : List (Write (Symbol Metadata) V) :=
  writesFrom kind n {} steps

end Writes

/-- Everything bound in a namespace by the steps of a run. -/
def bindings (n : ℕ) (steps : List Step) : List (Write (Symbol Metadata) Value) :=
  writes Step.binding? n steps

def aliasings (n : ℕ) (steps : List Step) : List (Write (Symbol Metadata) (Symbol Metadata)) :=
  writes Step.aliasing? n steps

/-- The registry that a run from nothing leaves. -/
def after [Hasher] (steps : List Step) : Registry :=
  (({} : Registry).run steps).2

namespace Registry

def census (r : Registry) : Census where
  handles := r.handles.toList
  namespaces := r.tables.size

theorem ask_of {r : Registry} {h : ℕ} {t : Tables} (found : r.tablesOf? h = some t)
    (f : Tables → Answer) : r.ask h f = f t := by
  rw [ask, found]

theorem update_handles (r : Registry) (h : ℕ) (change : Tables → Tables) :
    (r.update h change).handles = r.handles := by
  unfold update
  cases r.handles[h]? <;> rfl

theorem update_snapshots (r : Registry) (h : ℕ) (change : Tables → Tables) :
    (r.update h change).snapshots = r.snapshots := by
  unfold update
  cases r.handles[h]? <;> rfl

theorem update_size (r : Registry) (h : ℕ) (change : Tables → Tables) :
    (r.update h change).tables.size = r.tables.size := by
  unfold update
  cases r.handles[h]? with
  | none => rfl
  | some handle => exact Array.size_modify

theorem update_tables {r : Registry} {n : ℕ} {t : Tables} (there : r.tables[n]? = some t) (h : ℕ)
    (change : Tables → Tables) : (r.update h change).tables[n]? =
      some (if (r.handles[h]?).map (·.tables) = some n then change t else t) := by
  unfold update
  cases found : r.handles[h]? with
  | none => exact there
  | some handle =>
    change (r.tables.modify handle.tables change)[n]? = _
    rw [Array.getElem?_modify, there]
    by_cases same : handle.tables = n
    · simp [same]
    · simp [same]

variable [Hasher]

theorem run_append (r : Registry) (front back : List Step) :
    r.run (front ++ back) =
      ((r.run front).1 ++ ((r.run front).2.run back).1, ((r.run front).2.run back).2) := by
  induction front generalizing r with
  | nil => rfl
  | cons s front ih =>
    have rest := ih (r.step s).2
    simp only [List.cons_append, run, rest]

theorem length_run (r : Registry) (steps : List Step) : (r.run steps).1.length = steps.length := by
  induction steps generalizing r with
  | nil => rfl
  | cons s steps ih => exact congrArg Nat.succ (ih (r.step s).2)

theorem census_step (r : Registry) (s : Step) : (r.step s).2.census = r.census.step s := by
  have updated (h : ℕ) (change : Tables → Tables) : (r.update h change).census = r.census := by
    rw [census, update_handles, update_size]
    rfl
  cases s with
  | new name => simp [step, census, Census.step]
  | clone h =>
    cases found : r.handles[h]? <;> simp [step, census, Census.step, found]
  | intern | unmap | addAlias => exact updated _ _
  | find | resolveAlias | mappings | aliases => rfl
  | name h => cases found : r.handles[h]? <;> simp [step, found, Census.step]
  | snapshot h => cases found : r.tablesOf? h <;> simp [step, found, census, Census.step]
  | showSnapshot n => cases found : r.snapshots[n]? <;> simp [step, found, Census.step]

/-- A step changes the tables of the namespace it goes to and no others. -/
theorem step_tables {r : Registry} {n : ℕ} {t : Tables} (there : r.tables[n]? = some t) (s : Step) :
    (r.step s).2.tables[n]? =
      some (if r.census.addressed s = some n then s.change t else t) := by
  have reads (kept : (r.step s).2.tables[n]? = r.tables[n]?) (same : s.change t = t) :
      (r.step s).2.tables[n]? =
        some (if r.census.addressed s = some n then s.change t else t) := by
    rw [kept, same, ite_self, there]
  have addressed {h : ℕ} (through : s.handle? = some h) :
      r.census.addressed s = (r.handles[h]?).map (·.tables) := by
    rw [Census.addressed, through, census, Option.bind_some, Array.getElem?_toList]
  cases s with
  | new name =>
    have inside := (Array.getElem?_eq_some_iff.1 there).1
    exact reads (Array.getElem?_push_lt inside |>.trans (Array.getElem?_eq_getElem inside).symm) rfl
  | intern h | unmap h | addAlias h =>
    rw [addressed (h := h) rfl]
    exact update_tables there h _
  | find | resolveAlias | mappings | aliases => exact reads rfl rfl
  | clone h =>
    refine reads ?_ rfl
    cases found : r.handles[h]? <;> simp [step, found]
  | name h =>
    refine reads ?_ rfl
    cases found : r.handles[h]? <;> simp [step, found]
  | snapshot h =>
    refine reads ?_ rfl
    cases found : r.tablesOf? h <;> simp [step, found]
  | showSnapshot n =>
    refine reads ?_ rfl
    cases found : r.snapshots[n]? <;> simp [step, found]

/-- Tables that a step brings into being are empty. -/
theorem step_fresh {r : Registry} {n : ℕ} {t : Tables} {s : Step} (fresh : r.tables.size ≤ n)
    (there : (r.step s).2.tables[n]? = some t) : t = {} := by
  have inside : n < (r.census.step s).namespaces := by
    rw [← census_step]
    exact (Array.getElem?_eq_some_iff.1 there).1
  have old : ¬ n < r.census.namespaces := Nat.not_lt.2 fresh
  cases s with
  | new name =>
    change n < r.tables.size + 1 at inside
    obtain rfl : n = r.tables.size := by omega
    exact (Option.some.inj (Array.getElem?_push_size.symm.trans there)).symm
  | _ => exact absurd inside old

theorem step_snapshots {r : Registry} {n : ℕ} {m : Mappings} (there : r.snapshots[n]? = some m)
    (s : Step) : (r.step s).2.snapshots[n]? = some m := by
  cases s with
  | new | find | resolveAlias | mappings | aliases => exact there
  | intern h | unmap h | addAlias h => exact (congrArg (·[n]?) (update_snapshots r h _)).trans there
  | clone h => cases found : r.handles[h]? <;> simpa [step, found] using there
  | name h => cases found : r.handles[h]? <;> simpa [step, found] using there
  | snapshot h =>
    have inside := (Array.getElem?_eq_some_iff.1 there).1
    cases found : r.tablesOf? h with
    | none => simpa [step, found] using there
    | some t =>
      have kept : (r.snapshots.push t.mappings)[n]? = some m := by
        rw [Array.getElem?_push_lt inside, ← Array.getElem?_eq_getElem inside, there]
      simpa [step, found] using kept
  | showSnapshot k => cases found : r.snapshots[k]? <;> simpa [step, found] using there

/-- Only the taking of a snapshot brings one into being. -/
theorem step_taken {r : Registry} {n : ℕ} {m : Mappings} {s : Step} (fresh : r.snapshots.size ≤ n)
    (there : (r.step s).2.snapshots[n]? = some m) :
    ∃ g t, s = .snapshot g ∧ (r.step s).1 = .number n ∧ r.tablesOf? g = some t ∧
      t.mappings = m := by
  have nowhere : r.snapshots[n]? ≠ some m := by
    rw [Array.getElem?_eq_none fresh]
    nofun
  cases s with
  | new | find | resolveAlias | mappings | aliases => exact absurd there nowhere
  | intern h | unmap h | addAlias h =>
    exact absurd ((congrArg (·[n]?) (update_snapshots r h _)).symm.trans there) nowhere
  | clone h | name h =>
    cases found : r.handles[h]? <;> exact absurd (by simpa [step, found] using there) nowhere
  | showSnapshot k =>
    cases found : r.snapshots[k]? <;> exact absurd (by simpa [step, found] using there) nowhere
  | snapshot g =>
    cases found : r.tablesOf? g with
    | none => exact absurd (by simpa [step, found] using there) nowhere
    | some t =>
      simp only [step, found] at there ⊢
      have inside := (Array.getElem?_eq_some_iff.1 there).1
      rw [Array.size_push] at inside
      obtain rfl : n = r.snapshots.size := by omega
      rw [Array.getElem?_push_size] at there
      exact ⟨g, t, rfl, rfl, found, Option.some.inj there⟩

end Registry

theorem after_concat [Hasher] (steps : List Step) (s : Step) :
    after (steps ++ [s]) = ((after steps).step s).2 := by
  unfold after
  rw [Registry.run_append]
  rfl

theorem census_concat (steps : List Step) (s : Step) :
    census (steps ++ [s]) = (census steps).step s :=
  List.foldl_concat ..

theorem census_after [Hasher] (steps : List Step) : (after steps).census = census steps := by
  induction steps using List.reverseRecOn with
  | nil => rfl
  | append_singleton steps s ih => rw [after_concat, Registry.census_step, ih, census_concat]

theorem handles_after [Hasher] (steps : List Step) (h : ℕ) :
    (after steps).handles[h]? = (census steps).handles[h]? := by
  rw [← census_after, Registry.census, Array.getElem?_toList]

theorem size_handles_after [Hasher] (steps : List Step) :
    (after steps).handles.size = (census steps).handles.length := by
  rw [← census_after]
  rfl

theorem handles_concat {steps : List Step} {h : ℕ} {handle : Handle}
    (there : (census steps).handles[h]? = some handle) (s : Step) :
    (census (steps ++ [s])).handles[h]? = some handle := by
  have inside := (List.getElem?_eq_some_iff.1 there).1
  have grows (more : List Handle) :
      ((census steps).handles ++ more)[h]? = some handle := by
    rw [List.getElem?_append_left inside, there]
  rw [census_concat]
  cases s with
  | new | clone => exact grows _
  | _ => exact there

/-- Every handle goes to a namespace that was made. -/
theorem tables_lt (steps : List Step) :
    ∀ handle ∈ (census steps).handles, handle.tables < (census steps).namespaces := by
  induction steps using List.reverseRecOn with
  | nil => nofun
  | append_singleton steps s ih =>
    rw [census_concat]
    cases s with
    | new name =>
      intro handle there
      change handle.tables < (census steps).namespaces + 1
      rcases List.mem_append.1 there with there | there
      · have old := ih handle there
        omega
      · rw [List.mem_singleton.1 there]
        exact Nat.lt_succ_self _
    | clone h =>
      intro handle there
      rcases List.mem_append.1 there with there | there
      · exact ih handle there
      · exact ih handle (List.mem_of_getElem? (Option.mem_toList.1 there))
    | _ => exact ih

theorem addressed_lt {steps : List Step} {s : Step} {n : ℕ}
    (goes : (census steps).addressed s = some n) : n < (census steps).namespaces := by
  obtain ⟨handle, found, rfl⟩ := Option.map_eq_some_iff.1 goes
  obtain ⟨h, -, there⟩ := Option.bind_eq_some_iff.1 found
  exact tables_lt steps handle (List.mem_of_getElem? there)

section Writes

variable {V : Type} (kind : Step → Option (Write (Symbol Metadata) V)) (n : ℕ)

theorem writesFrom_concat (c : Census) (steps : List Step) (s : Step) :
    writesFrom kind n c (steps ++ [s]) = writesFrom kind n c steps ++
      if (steps.foldl Census.step c).addressed s = some n then (kind s).toList else [] := by
  induction steps generalizing c with
  | nil =>
    rw [List.nil_append, writesFrom, writesFrom, writesFrom, List.append_nil, List.nil_append]
    rfl
  | cons first steps ih =>
    rw [List.cons_append, writesFrom, writesFrom, ih, List.append_assoc]
    rfl

theorem writes_concat (steps : List Step) (s : Step) :
    writes kind n (steps ++ [s]) = writes kind n steps ++
      if (census steps).addressed s = some n then (kind s).toList else [] :=
  writesFrom_concat kind n {} steps s

/-- Nothing is written to a namespace before it is made. -/
theorem writes_unmade {steps : List Step} (unmade : (census steps).namespaces ≤ n) :
    writes kind n steps = [] := by
  induction steps using List.reverseRecOn with
  | nil => rfl
  | append_singleton steps s ih =>
    have grows : (census steps).namespaces ≤ (census (steps ++ [s])).namespaces := by
      rw [census_concat]
      cases s <;> simp [Census.step]
    rw [writes_concat, ih (by omega), if_neg]
    · rfl
    · intro goes
      have made := addressed_lt goes
      omega

end Writes

end Persistent.Namespace
