import Mathlib.Data.List.Forall2
import Mathlib.Data.List.Infix
import Persistent.Proofs.Vector.Indices

/-!
Vectors as lists. A program starts from the empty vector, and each of its steps makes a vector from
one made before or fails. The same program on lists makes the lists that the vectors show, and
fails in the same way.
-/

set_option autoImplicit false

namespace Persistent.Vector

variable {μ α : Type}

/-- A step names the vector it reads by its place among the outcomes so far. -/
inductive Step (α : Type) where
  | push (v : ℕ) (x : α)
  | pushAll (v : ℕ) (xs : List α)
  | set (v : ℕ) (index : Int64) (x : α)
  | setAll (v : ℕ) (pairs : List (Int64 × α))
  | pop (v : ℕ)

/-- What was made at a place; a place without an outcome, or with a fault, reads as `empty`. -/
def made {β : Type} (empty : β) (outcomes : List (Except Fault β)) (i : ℕ) : β :=
  match outcomes[i]? with
  | some (.ok x) => x
  | _ => empty

def step (outcomes : List (Except Fault (Vector μ α))) : Step α → Except Fault (Vector μ α)
  | .push v x => .ok ((made {} outcomes v).push x)
  | .pushAll v xs => .ok ((made {} outcomes v).pushAll xs)
  | .set v index x => (made {} outcomes v).set index x
  | .setAll v pairs => (made {} outcomes v).setAll pairs
  | .pop v => (made {} outcomes v).pop

/-- The outcomes of all steps, the empty vector first. -/
def run (steps : List (Step α)) : List (Except Fault (Vector μ α)) :=
  steps.foldl (fun outcomes s => outcomes ++ [step outcomes s]) [.ok {}]

theorem setAll_cons (v : Vector μ α) (index : Int64) (x : α) (pairs : List (Int64 × α)) :
    v.setAll ((index, x) :: pairs) = (v.set index x).bind fun w => w.setAll pairs := by
  rw [setAll]
  cases v.set index x <;> rfl

namespace Reference

/-- Replaces an element that the index denotes, or appends behind the last one. -/
def set (xs : List α) (index : Int64) (x : α) : Except Fault (List α) :=
  if index.toInt = xs.length then .ok (xs ++ [x])
  else
    match denoted xs.length index with
    | none => .error (.indexOutOfRange index xs.length)
    | some p => .ok (xs.set p x)

theorem set_inside {xs : List α} {index : Int64} (x : α)
    (inside : -(xs.length : ℤ) ≤ index.toInt ∧ index.toInt ≤ xs.length) :
    ∃ ys, set xs index x = .ok ys := by
  unfold set
  by_cases behind : index.toInt = xs.length
  · exact ⟨_, if_pos behind⟩
  · obtain ⟨p, found⟩ := Option.isSome_iff_exists.1 ((denoted_isSome xs.length index).2 (by omega))
    rw [if_neg behind, found]
    exact ⟨_, rfl⟩

theorem set_outside {xs : List α} {index : Int64} (x : α)
    (outside : ¬(-(xs.length : ℤ) ≤ index.toInt ∧ index.toInt ≤ xs.length)) :
    set xs index x = .error (.indexOutOfRange index xs.length) := by
  have missed : denoted xs.length index = none := by
    rw [← Option.not_isSome_iff_eq_none, denoted_isSome]
    omega
  unfold set
  rw [if_neg (by omega), missed]

def setAll (xs : List α) : List (Int64 × α) → Except Fault (List α)
  | [] => .ok xs
  | (index, x) :: pairs =>
    match set xs index x with
    | .error fault => .error fault
    | .ok ys => setAll ys pairs

theorem setAll_cons (xs : List α) (index : Int64) (x : α) (pairs : List (Int64 × α)) :
    setAll xs ((index, x) :: pairs) = (set xs index x).bind fun ys => setAll ys pairs := by
  rw [setAll]
  cases set xs index x <;> rfl

def pop (xs : List α) : Except Fault (List α) :=
  if xs.isEmpty then .error (.underflow "vector") else .ok xs.dropLast

def step (outcomes : List (Except Fault (List α))) : Step α → Except Fault (List α)
  | .push v x => .ok (made [] outcomes v ++ [x])
  | .pushAll v xs => .ok (made [] outcomes v ++ xs)
  | .set v index x => set (made [] outcomes v) index x
  | .setAll v pairs => setAll (made [] outcomes v) pairs
  | .pop v => pop (made [] outcomes v)

def run (steps : List (Step α)) : List (Except Fault (List α)) :=
  steps.foldl (fun outcomes s => outcomes ++ [step outcomes s]) [.ok []]

end Reference

/-- The bound on the lengths of vectors. -/
def bound : ℕ := 2 ^ 60

/-- A list below the bound, if there is one. -/
def Below : Except Fault (List α) → Prop
  | .ok xs => xs.length < bound
  | .error _ => True

/-- All lists that a run of sets passes through are below the bound. -/
def Passes (xs : List α) (pairs : List (Int64 × α)) : Prop :=
  ∀ front ∈ pairs.inits, Below (Reference.setAll xs front)

/-- All lists that a step makes are below the bound. -/
def Step.Fits (outcomes : List (Except Fault (List α))) : Step α → Prop
  | .setAll v pairs => Passes (made [] outcomes v) pairs
  | s => Below (Reference.step outcomes s)

/-- All lists that a program makes are below the bound, when it starts from some outcomes. -/
def FitsFrom (outcomes : List (Except Fault (List α))) : List (Step α) → Prop
  | [] => True
  | s :: steps => s.Fits outcomes ∧ FitsFrom (outcomes ++ [Reference.step outcomes s]) steps

def Fits (steps : List (Step α)) : Prop :=
  FitsFrom [.ok []] steps

instance : DecidablePred (Below : Except Fault (List α) → Prop)
  | .ok xs => inferInstanceAs (Decidable (xs.length < bound))
  | .error _ => inferInstanceAs (Decidable True)

instance (outcomes : List (Except Fault (List α))) : DecidablePred (Step.Fits outcomes)
  | .setAll v pairs => inferInstanceAs (Decidable (∀ front ∈ pairs.inits,
      Below (Reference.setAll (made [] outcomes v) front)))
  | .push v x => inferInstanceAs (Decidable (Below (Reference.step outcomes (.push v x))))
  | .pushAll v xs => inferInstanceAs (Decidable (Below (Reference.step outcomes (.pushAll v xs))))
  | .set v i x => inferInstanceAs (Decidable (Below (Reference.step outcomes (.set v i x))))
  | .pop v => inferInstanceAs (Decidable (Below (Reference.step outcomes (.pop v))))

def decideFitsFrom : (outcomes : List (Except Fault (List α))) → (steps : List (Step α)) →
    Decidable (FitsFrom outcomes steps)
  | _, [] => inferInstanceAs (Decidable True)
  | outcomes, s :: steps =>
    have := decideFitsFrom (outcomes ++ [Reference.step outcomes s]) steps
    inferInstanceAs (Decidable (s.Fits outcomes ∧ FitsFrom _ steps))

instance (steps : List (Step α)) : Decidable (Fits steps) :=
  decideFitsFrom [.ok []] steps

theorem Passes.start {xs : List α} {pairs : List (Int64 × α)} (passes : Passes xs pairs) :
    xs.length < bound :=
  passes [] (List.mem_inits _ _ |>.2 List.nil_prefix)

theorem Passes.last {xs : List α} {pairs : List (Int64 × α)} (passes : Passes xs pairs) :
    Below (Reference.setAll xs pairs) :=
  passes pairs (List.mem_inits _ _ |>.2 List.prefix_rfl)

theorem Passes.rest {xs ys : List α} {index : Int64} {x : α} {pairs : List (Int64 × α)}
    (passes : Passes xs ((index, x) :: pairs)) (first : Reference.set xs index x = .ok ys) :
    Passes ys pairs := by
  intro front member
  have reached := passes ((index, x) :: front)
    ((List.mem_inits _ _).2 ((List.cons_prefix_cons.2 ⟨rfl, (List.mem_inits _ _).1 member⟩)))
  rwa [Reference.setAll_cons, first] at reached

theorem Step.Fits.below {outcomes : List (Except Fault (List α))} {s : Step α}
    (fits : s.Fits outcomes) : Below (Reference.step outcomes s) := by
  cases s with
  | setAll v pairs => exact Passes.last fits
  | push | pushAll | set | pop => exact fits

/-- The same fault, or a vector and a list in the given relation. -/
inductive Outcome (R : Vector μ α → List α → Prop) :
    Except Fault (Vector μ α) → Except Fault (List α) → Prop
  | ok {v : Vector μ α} {xs : List α} (related : R v xs) : Outcome R (.ok v) (.ok xs)
  | error (fault : Fault) : Outcome R (.error fault) (.error fault)

theorem Outcome.ok_iff {R : Vector μ α → List α → Prop} {a : Except Fault (Vector μ α)}
    {b : Except Fault (List α)} (h : Outcome R a b) : (∃ v, a = .ok v) ↔ ∃ xs, b = .ok xs := by
  cases h with
  | ok _ => exact ⟨fun _ => ⟨_, rfl⟩, fun _ => ⟨_, rfl⟩⟩
  | error fault => exact ⟨nofun, nofun⟩

theorem Outcome.error_iff {R : Vector μ α → List α → Prop} {a : Except Fault (Vector μ α)}
    {b : Except Fault (List α)} (h : Outcome R a b) (fault : Fault) :
    a = .error fault ↔ b = .error fault := by
  cases h with
  | ok _ => exact ⟨nofun, nofun⟩
  | error other => rw [Except.error.injEq, Except.error.injEq]

theorem Outcome.andThen {R S : Vector μ α → List α → Prop} {a : Except Fault (Vector μ α)}
    {b : Except Fault (List α)} (first : Outcome R a b) {f : Vector μ α → Except Fault (Vector μ α)}
    {g : List α → Except Fault (List α)}
    (next : ∀ v xs, b = .ok xs → R v xs → Outcome S (f v) (g xs)) :
    Outcome S (a.bind f) (b.bind g) := by
  cases first with
  | ok related => exact next _ _ rfl related
  | error fault => exact .error fault

/-- A vector shows the list, and fails where the list has no such element. -/
structure Agrees (v : Vector μ α) (xs : List α) : Prop where
  size_eq : v.size = xs.length
  get?_eq : ∀ i, v.get? i = xs[i]?
  peek?_eq : v.peek? = xs.getLast?
  no_overflow : ∀ index : Int64, index < 0 →
    (Int64.ofNat v.size + index).toInt = (xs.length : ℤ) + index.toInt
  lookup?_eq : ∀ index : Int64, v.lookup? index = (denoted xs.length index).bind (xs[·]?)
  lookup?_isSome : ∀ index : Int64, (v.lookup? index).isSome = true ↔
    -(xs.length : ℤ) ≤ index.toInt ∧ index.toInt < xs.length
  contains_iff : ∀ index : Int64, v.contains index = true ↔
    -(xs.length : ℤ) ≤ index.toInt ∧ index.toInt < xs.length
  set_ok_iff : ∀ (index : Int64) (x : α), (∃ w, v.set index x = .ok w) ↔
    -(xs.length : ℤ) ≤ index.toInt ∧ index.toInt ≤ xs.length
  set_error : ∀ (index : Int64) (x : α),
    ¬(-(xs.length : ℤ) ≤ index.toInt ∧ index.toInt ≤ xs.length) →
    v.set index x = .error (.indexOutOfRange index xs.length)
  pop_ok_iff : (∃ w, v.pop = .ok w) ↔ xs ≠ []
  pop_error_iff : v.pop = .error (.underflow "vector") ↔ xs = []

/-- A vector that holds the list, which is below the bound. -/
def Simulates (v : Vector μ α) (xs : List α) : Prop :=
  v.Holds xs ∧ xs.length < bound

theorem simulates_empty : Simulates ({} : Vector μ α) [] :=
  ⟨holds_empty, Nat.two_pow_pos 60⟩

namespace Simulates

variable {v : Vector μ α} {xs : List α} (h : v.Simulates xs)
include h

theorem small : v.size < 2 ^ 63 := by
  have := h.2
  rw [bound] at this
  rw [h.1.size_eq]
  omega

theorem resolve_eq (index : Int64) : v.resolve index = denoted xs.length index := by
  rw [Vector.resolve_eq h.small, h.1.size_eq]

theorem lookup?_eq (index : Int64) :
    v.lookup? index = (denoted xs.length index).bind (xs[·]?) := by
  unfold lookup?
  rw [h.resolve_eq]
  congr 1
  funext p
  exact h.1.get?_eq p

theorem set (index : Int64) (x : α) :
    Outcome Holds (v.set index x) (Reference.set xs index x) := by
  unfold Vector.set Reference.set
  rw [h.resolve_eq, h.1.size_eq]
  split
  case isTrue behind => exact .ok (h.1.push x)
  case isFalse =>
    cases found : denoted xs.length index with
    | none => exact .error _
    | some p =>
      have held := h.1.store (denoted_lt found) x
      rw [h.1.size_eq] at held
      exact .ok held

theorem setAll {pairs : List (Int64 × α)} (passes : Passes xs pairs) :
    Outcome Holds (v.setAll pairs) (Reference.setAll xs pairs) := by
  induction pairs generalizing v xs with
  | nil => exact .ok h.1
  | cons pair pairs ih =>
    obtain ⟨index, x⟩ := pair
    have first := h.set index x
    rw [setAll_cons, Reference.setAll_cons]
    refine first.andThen fun w ys made held => ?_
    have rest := passes.rest made
    exact ih ⟨held, rest.start⟩ rest

theorem pop : Outcome Holds v.pop (Reference.pop xs) := by
  unfold Reference.pop
  by_cases empty : xs = []
  · rw [h.1.pop_empty empty, if_pos (by simpa using empty)]
    exact .error _
  · obtain ⟨w, popped, held⟩ := h.1.pop_filled empty
    rw [popped, if_neg (by simpa using empty)]
    exact .ok held

theorem agrees : Agrees v xs := by
  have size := h.1.size_eq
  refine ⟨size, h.1.get?_eq, ?_, ?_, h.lookup?_eq, ?_, ?_, ?_, ?_, ?_, ?_⟩
  · unfold peek?
    rw [size, List.getLast?_eq_getElem?]
    split
    case isTrue empty => rw [List.length_eq_zero_iff.1 empty]; rfl
    case isFalse => exact h.1.get?_eq _
  · intro index negative
    rw [toInt_ofNat_add h.small negative, size]
  · intro index
    rw [h.lookup?_eq, ← denoted_isSome]
    cases found : denoted xs.length index with
    | none => exact Iff.rfl
    | some p =>
      rw [Option.bind_some, List.getElem?_eq_getElem (denoted_lt found)]
      exact Iff.rfl
  · intro index
    unfold contains
    rw [h.resolve_eq, denoted_isSome]
  · intro index x
    rw [(h.set index x).ok_iff]
    constructor
    · rintro ⟨ys, stored⟩
      by_contra outside
      rw [Reference.set_outside x outside] at stored
      cases stored
    · exact Reference.set_inside x
  · intro index x outside
    rw [(h.set index x).error_iff]
    exact Reference.set_outside x outside
  · rw [h.pop.ok_iff]
    unfold Reference.pop
    by_cases empty : xs = []
    · simp [empty]
    · simp [empty]
  · rw [h.pop.error_iff]
    unfold Reference.pop
    by_cases empty : xs = []
    · simp [empty]
    · simp [empty]

end Simulates

theorem simulates_made {vectors : List (Except Fault (Vector μ α))}
    {lists : List (Except Fault (List α))}
    (h : List.Forall₂ (Outcome Simulates) vectors lists) (i : ℕ) :
    Simulates (made {} vectors i) (made [] lists i) := by
  induction h generalizing i with
  | nil => exact simulates_empty
  | cons first _ ih =>
    cases i with
    | zero =>
      cases first with
      | ok related => exact related
      | error fault => exact simulates_empty
    | succ i => exact ih i

theorem holds_step {vectors : List (Except Fault (Vector μ α))}
    {lists : List (Except Fault (List α))}
    (h : List.Forall₂ (Outcome Simulates) vectors lists) {s : Step α} (fits : s.Fits lists) :
    Outcome Holds (step vectors s) (Reference.step lists s) := by
  cases s with
  | push v x => exact .ok ((simulates_made h v).1.push x)
  | pushAll v xs => exact .ok ((simulates_made h v).1.pushAll xs)
  | set v index x => exact (simulates_made h v).set index x
  | setAll v pairs => exact (simulates_made h v).setAll fits
  | pop v => exact (simulates_made h v).pop

theorem simulates_step {vectors : List (Except Fault (Vector μ α))}
    {lists : List (Except Fault (List α))}
    (h : List.Forall₂ (Outcome Simulates) vectors lists) {s : Step α} (fits : s.Fits lists) :
    Outcome Simulates (step vectors s) (Reference.step lists s) := by
  have held := holds_step h fits
  cases stepped : Reference.step lists s with
  | error fault =>
    rw [(held.error_iff fault).2 stepped]
    exact .error fault
  | ok ys =>
    obtain ⟨w, made⟩ := held.ok_iff.2 ⟨ys, stepped⟩
    rw [made, stepped] at held
    cases held with
    | ok related =>
      have below := fits.below
      rw [stepped] at below
      rw [made]
      exact .ok ⟨related, below⟩

theorem simulates_foldl {vectors : List (Except Fault (Vector μ α))}
    {lists : List (Except Fault (List α))}
    (h : List.Forall₂ (Outcome Simulates) vectors lists) {steps : List (Step α)}
    (fits : FitsFrom lists steps) :
    List.Forall₂ (Outcome Simulates)
      (steps.foldl (fun outcomes s => outcomes ++ [step outcomes s]) vectors)
      (steps.foldl (fun outcomes s => outcomes ++ [Reference.step outcomes s]) lists) := by
  induction steps generalizing vectors lists with
  | nil => exact h
  | cons s steps ih =>
    exact ih (List.rel_append h (.cons (simulates_step h fits.1) .nil)) fits.2

/-- The vectors of a program show the lists that the program makes, and its faults are those of
the program on lists. -/
theorem run_refines_lists {steps : List (Step α)} (fits : Fits steps) :
    List.Forall₂ (Outcome Agrees) (run steps : List (Except Fault (Vector μ α)))
      (Reference.run steps) := by
  apply (simulates_foldl (.cons (.ok simulates_empty) .nil) fits).imp
  intro a b h
  cases h with
  | ok related => exact .ok related.agrees
  | error fault => exact .error fault

/-- A program across a level boundary, with indices of both signs and faults of both kinds. -/
def acrossLevels : List (Step ℕ) :=
  [.pushAll 0 (List.range 33), .set 1 (-33) 70, .setAll 1 [(33, 71), (-1, 72)], .pop 1,
    .set 4 33 73, .pop 0]

theorem run_refines_lists_acrossLevels :
    Fits acrossLevels ∧
      List.Forall₂ (Outcome Agrees) (run acrossLevels : List (Except Fault (Vector Unit ℕ)))
        (Reference.run acrossLevels) := by
  have fits : Fits acrossLevels := by decide +kernel
  exact ⟨fits, run_refines_lists fits⟩

end Persistent.Vector
