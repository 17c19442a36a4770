import Mathlib.Data.Nat.Notation
import Persistent.Delay

/-!
Exclusion: at most one thread is past the forcing lock, whatever steps are taken in whatever order.
Each step moves one thread from one phase to another, and the holder of the lock is the one thread
that may start the thunk, finish it and set the value.
-/

set_option autoImplicit false

namespace Persistent

variable {α : Type}

/-- The phases of a thread that holds the lock. -/
def Phase.inside : Phase α → Bool
  | .holding | .running | .releasing _ => true
  | _ => false

/-- What a thread that holds the lock knows of the cell. -/
def Phase.Knows (d : Delay α) : Phase α → Prop
  | .holding => d.value = none → d.runs = 0
  | .running => d.value = none ∧ d.runs = 1
  | .releasing answer => d.value = some answer
  | _ => True

theorem Phase.knows_outside (d : Delay α) {phase : Phase α} (outside : phase.inside = false) :
    phase.Knows d := by
  cases phase with
  | holding | running | releasing => cases outside
  | _ => trivial

namespace Delay

/-- What a step comes to. A thread that moves is named with the phase it moves from. -/
inductive Moves (d : Delay α) : Step α → Delay α → Prop
  | idle {s : Step α} (still : ∀ timeout, s ≠ .spawn timeout) : Moves d s d
  | spawned (timeout : Option α) :
      Moves d (.spawn timeout) { d with threads := d.threads.push (.reading timeout) }
  | found {i : ℕ} {timeout : Option α} {v : α} (here : d.threads[i]? = some (.reading timeout))
      (set : d.value = some v) : Moves d (.advance i) (d.goTo i (.done v))
  | missed {i : ℕ} {timeout : Option α} (here : d.threads[i]? = some (.reading timeout))
      (unset : d.value = none) : Moves d (.advance i) (d.goTo i (.waiting timeout))
  | acquired {i : ℕ} {timeout : Option α} (here : d.threads[i]? = some (.waiting timeout))
      (free : d.holder = none) :
      Moves d (.advance i) { d.goTo i .holding with holder := some i }
  | foundInside {i : ℕ} {v : α} (here : d.threads[i]? = some .holding)
      (set : d.value = some v) : Moves d (.advance i) (d.goTo i (.releasing v))
  | started {i : ℕ} (here : d.threads[i]? = some .holding) (unset : d.value = none) :
      Moves d (.advance i) { d.goTo i .running with runs := d.runs + 1 }
  | finished {i : ℕ} (here : d.threads[i]? = some .running) :
      Moves d (.advance i) { d.goTo i (.releasing d.result) with value := some d.result }
  | released {i : ℕ} {answer : α} (here : d.threads[i]? = some (.releasing answer)) :
      Moves d (.advance i) { d.goTo i (.done answer) with holder := none }
  | gaveUp {i j : ℕ} {timeout : α} (here : d.threads[i]? = some (.waiting (some timeout)))
      (held : d.holder = some j) : Moves d (.giveUp i) (d.goTo i (.gaveUp timeout))
  | reread {i : ℕ} {timeout : α} (here : d.threads[i]? = some (.gaveUp timeout)) :
      Moves d (.advance i) (d.goTo i (.done (d.value.getD timeout)))

theorem moves_advance {d d' : Delay α} {i : ℕ} (h : d.advance? i = some d') :
    Moves d (.advance i) d' := by
  unfold advance? at h
  split at h
  case h_1 | h_2 => cases h
  case h_3 here =>
    split at h <;> cases h
    · exact .found here ‹_›
    · exact .missed here ‹_›
  case h_4 here =>
    split at h <;> cases h
    exact .acquired here ‹_›
  case h_5 here =>
    split at h <;> cases h
    · exact .foundInside here ‹_›
    · exact .started here ‹_›
  case h_6 here =>
    cases h
    exact .finished here
  case h_7 here =>
    cases h
    exact .released here
  case h_8 here =>
    cases h
    exact .reread here

theorem moves_giveUp {d d' : Delay α} {i : ℕ} (h : d.giveUp? i = some d') :
    Moves d (.giveUp i) d' := by
  unfold giveUp? at h
  split at h <;> cases h
  exact .gaveUp ‹_› ‹_›

theorem moves_step (d : Delay α) (s : Step α) : Moves d s (d.step s) := by
  cases s with
  | spawn timeout => exact .spawned timeout
  | advance i =>
    change Moves d (.advance i) ((d.advance? i).getD d)
    cases moved : d.advance? i with
    | none => exact .idle fun _ impossible => nomatch impossible
    | some d' => exact moves_advance moved
  | giveUp i =>
    change Moves d (.giveUp i) ((d.giveUp? i).getD d)
    cases moved : d.giveUp? i with
    | none => exact .idle fun _ impossible => nomatch impossible
    | some d' => exact moves_giveUp moved

theorem goTo_getElem? {d : Delay α} {i : ℕ} {old : Phase α} (here : d.threads[i]? = some old)
    (phase : Phase α) (j : ℕ) :
    (d.goTo i phase).threads[j]? = if j = i then some phase else d.threads[j]? := by
  have inside : i < d.threads.size := (Array.getElem?_eq_some_iff.1 here).1
  change (d.threads.setIfInBounds i phase)[j]? = _
  rw [Array.getElem?_setIfInBounds]
  by_cases same : j = i
  · simp [same, inside]
  · simp [same, Ne.symm same]

theorem goTo_self {d : Delay α} {i : ℕ} {p : Phase α} (here : d.threads[i]? = some p)
    (q : Phase α) : (d.goTo i q).threads[i]? = some q := by
  rw [goTo_getElem? here, if_pos rfl]

theorem push_getElem? (d : Delay α) (phase : Phase α) (j : ℕ) :
    (d.threads.push phase)[j]? = if j = d.threads.size then some phase else d.threads[j]? :=
  Array.getElem?_push

/-- Only the holder of the lock is past it, and the thunk runs only there. -/
structure Safe (x : α) (d : Delay α) : Prop where
  result_eq : d.result = x
  value_eq : ∀ v, d.value = some v → v = x ∧ d.runs = 1
  holder_iff : ∀ i, d.holder = some i ↔ ∃ phase, d.threads[i]? = some phase ∧ phase.inside = true
  knows : ∀ (i : ℕ) (phase : Phase α), d.threads[i]? = some phase → phase.Knows d
  unstarted : d.holder = none → d.value = none → d.runs = 0

theorem safe_fresh (x : α) : Safe x { result := x } where
  result_eq := rfl
  value_eq _ impossible := nomatch impossible
  holder_iff i := by simp
  knows i phase impossible := by simp at impossible
  unstarted _ _ := rfl

namespace Safe

variable {x : α} {d : Delay α} (safe : Safe x d)
include safe

/-- A thread beside the holder is outside. -/
theorem outside {i j : ℕ} {p : Phase α} (holds : d.holder = some i) (other : j ≠ i)
    (here : d.threads[j]? = some p) : p.inside = false := by
  rw [Bool.eq_false_iff]
  intro inside
  have second := (safe.holder_iff j).2 ⟨p, here, inside⟩
  rw [holds, Option.some.injEq] at second
  exact other second.symm

theorem outside_of_free {j : ℕ} {p : Phase α} (free : d.holder = none)
    (here : d.threads[j]? = some p) : p.inside = false := by
  rw [Bool.eq_false_iff]
  intro inside
  have holds := (safe.holder_iff j).2 ⟨p, here, inside⟩
  rw [free] at holds
  cases holds

theorem runs_le : d.runs ≤ 1 := by
  cases value : d.value with
  | some v =>
    have once := (safe.value_eq v value).2
    omega
  | none =>
    cases holder : d.holder with
    | none =>
      have none := safe.unstarted holder value
      omega
    | some i =>
      obtain ⟨phase, here, inside⟩ := (safe.holder_iff i).1 holder
      have known := safe.knows i phase here
      cases phase with
      | holding =>
        have zero := known value
        omega
      | running =>
        have one := known.2
        omega
      | releasing answer =>
        change d.value = some answer at known
        rw [value] at known
        cases known
      | _ => cases inside

theorem spawn (timeout : Option α) :
    Safe x { d with threads := d.threads.push (.reading timeout) } := by
  have past : d.threads[d.threads.size]? = none := Array.getElem?_size
  refine ⟨safe.result_eq, safe.value_eq, ?_, ?_, safe.unstarted⟩
  · intro i
    have before := safe.holder_iff i
    rw [push_getElem?]
    by_cases new : i = d.threads.size
    · subst new
      rw [past] at before
      simpa [Phase.inside] using before
    · simpa [new] using before
  · intro i phase here
    rw [push_getElem?] at here
    split at here
    · cases here
      trivial
    · exact safe.knows i phase here

/-- A thread that moves outside the lock changes nothing that another one relies on. -/
theorem move_outside {i : ℕ} {old new : Phase α} (here : d.threads[i]? = some old)
    (before : old.inside = false) (after : new.inside = false) : Safe x (d.goTo i new) := by
  have threads := goTo_getElem? here new
  refine ⟨safe.result_eq, safe.value_eq, ?_, ?_, safe.unstarted⟩
  · intro j
    have kept := safe.holder_iff j
    change d.holder = some j ↔ _
    rw [threads]
    by_cases same : j = i
    · subst same
      rw [here] at kept
      simpa [before, after] using kept
    · simpa [same] using kept
  · intro j phase there
    rw [threads] at there
    split at there
    · cases there
      exact Phase.knows_outside _ after
    · exact safe.knows j phase there

/-- A move of the one thread that is or comes past the lock. -/
theorem move_inside {i : ℕ} {old new : Phase α} {d' : Delay α} (here : d.threads[i]? = some old)
    (others : ∀ (j : ℕ) (p : Phase α), j ≠ i → d.threads[j]? = some p → p.inside = false)
    (threads : d'.threads = (d.goTo i new).threads) (result : d'.result = d.result)
    (value : ∀ v, d'.value = some v → v = x ∧ d'.runs = 1) (knows : new.Knows d')
    (holder : d'.holder = if new.inside then some i else none)
    (unstarted : new.inside = false → d'.value = none → d'.runs = 0) : Safe x d' := by
  have phases (j : ℕ) : d'.threads[j]? = if j = i then some new else d.threads[j]? := by
    rw [threads]
    exact goTo_getElem? here new j
  refine ⟨result.trans safe.result_eq, value, ?_, ?_, ?_⟩
  · intro j
    rw [holder, phases]
    by_cases same : j = i
    · subst same
      cases inside : new.inside <;> simp [inside]
    · have out := others j
      constructor
      · intro held
        split at held
        · exact absurd (Option.some.inj held).symm same
        · cases held
      · rintro ⟨phase, there, inside⟩
        rw [if_neg same] at there
        rw [out phase same there] at inside
        cases inside
  · intro j phase there
    rw [phases] at there
    split at there
    case isTrue =>
      cases there
      exact knows
    case isFalse other => exact Phase.knows_outside _ (others j phase other there)
  · intro free unset
    rw [holder] at free
    cases inside : new.inside with
    | true => simp [inside] at free
    | false => exact unstarted inside unset

theorem step (s : Step α) : Safe x (d.step s) := by
  have moves := moves_step d s
  generalize d.step s = d' at moves
  have alone {i : ℕ} {p : Phase α} (here : d.threads[i]? = some p) (inside : p.inside = true) :
      d.holder = some i ∧
        ∀ (j : ℕ) (q : Phase α), j ≠ i → d.threads[j]? = some q → q.inside = false := by
    have holds := (safe.holder_iff i).2 ⟨p, here, inside⟩
    exact ⟨holds, fun j q other there => safe.outside holds other there⟩
  cases moves with
  | idle => exact safe
  | spawned timeout => exact safe.spawn timeout
  | found here | missed here | gaveUp here | reread here => exact safe.move_outside here rfl rfl
  | acquired here free =>
    exact safe.move_inside here (fun _ _ _ there => safe.outside_of_free free there) rfl rfl
      safe.value_eq (safe.unstarted free) rfl (fun impossible => nomatch impossible)
  | foundInside here set =>
    obtain ⟨holds, others⟩ := alone here rfl
    exact safe.move_inside here others rfl rfl safe.value_eq set holds
      (fun impossible => nomatch impossible)
  | started here unset =>
    obtain ⟨holds, others⟩ := alone here rfl
    have zero : d.runs = 0 := safe.knows _ _ here unset
    refine safe.move_inside here others rfl rfl ?_ ⟨unset, ?_⟩ holds
      (fun impossible => nomatch impossible)
    · intro v set
      exact nomatch unset.symm.trans set
    · change d.runs + 1 = 1
      omega
  | finished here =>
    obtain ⟨holds, others⟩ := alone here rfl
    obtain ⟨-, one⟩ := safe.knows _ _ here
    refine safe.move_inside here others rfl rfl ?_ rfl holds (fun impossible => nomatch impossible)
    intro v set
    cases set
    exact ⟨safe.result_eq, one⟩
  | released here =>
    obtain ⟨-, others⟩ := alone here rfl
    have set : d.value = some _ := safe.knows _ _ here
    refine safe.move_inside here others rfl rfl safe.value_eq trivial rfl ?_
    intro _ unset
    exact nomatch unset.symm.trans set

theorem run (steps : List (Step α)) : Safe x (d.run steps) := by
  induction steps generalizing d with
  | nil => exact safe
  | cons s steps ih => exact ih (safe.step s)

end Safe

end Delay

end Persistent
