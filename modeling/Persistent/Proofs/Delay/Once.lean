import Persistent.Proofs.Delay.History

/-!
A delay runs its thunk once. Over every run from a fresh delay, whoever asks has the value of the
thunk, or the value that came with a timeout; and the latter only if the lock was held by another
thread and the value was still unset on a second look.
-/

set_option autoImplicit false

namespace Persistent.Delay

variable {α : Type}

/-- Thread `i` is the one that starts the thunk: it holds the lock with the thunk not yet started,
or it is past the start and on its way to the value. -/
inductive Owns (x : α) (i : ℕ) (d : Delay α) : Prop
  | holding (here : d.threads[i]? = some .holding) (unset : d.value = none) (none : d.runs = 0)
  | running (here : d.threads[i]? = some .running) (unset : d.value = none) (once : d.runs = 1)
  | releasing (here : d.threads[i]? = some (.releasing x)) (set : d.value = some x)
      (once : d.runs = 1)
  | done (here : d.threads[i]? = some (.done x)) (set : d.value = some x) (once : d.runs = 1)

/-- While thread `i` holds the lock, a step that is not its own changes nothing for it. -/
theorem moves_other {x : α} {d d' : Delay α} {s : Step α} {i : ℕ} (safe : Safe x d)
    (moves : Moves d s d') (holds : d.holder = some i) (other : s ≠ .advance i) :
    d'.threads[i]? = d.threads[i]? ∧ d'.value = d.value ∧ d'.runs = d.runs := by
  obtain ⟨phase, here, inside⟩ := (safe.holder_iff i).1 holds
  have apart {k : ℕ} {p q : Phase α} (came : d.threads[k]? = some p) (out : p.inside = false) :
      (d.goTo k q).threads[i]? = d.threads[i]? := by
    rw [goTo_getElem? came]
    by_cases same : i = k
    · subst same
      rw [came] at here
      cases here
      simp [inside] at out
    · simp [same]
  have alone {k : ℕ} {p : Phase α} (came : d.threads[k]? = some p) (past : p.inside = true) :
      k = i := by
    have holds' := (safe.holder_iff k).2 ⟨p, came, past⟩
    rw [holds] at holds'
    exact (Option.some.inj holds').symm
  cases moves with
  | idle => exact ⟨rfl, rfl, rfl⟩
  | spawned =>
    have old : i < d.threads.size := (Array.getElem?_eq_some_iff.1 here).1
    refine ⟨?_, rfl, rfl⟩
    rw [push_getElem?, if_neg (by omega)]
  | found came | missed came | gaveUp came | reread came => exact ⟨apart came rfl, rfl, rfl⟩
  | acquired came free => exact nomatch holds.symm.trans free
  | foundInside came | started came | finished came | released came =>
    exact absurd (congrArg Step.advance (alone came rfl)) other

theorem value_stays {x : α} {d : Delay α} (safe : Safe x d) {v : α} (set : d.value = some v)
    (s : Step α) : (d.step s).value = some v := by
  have moves := moves_step d s
  generalize d.step s = d' at moves
  cases moves with
  | finished =>
    change some d.result = some v
    rw [safe.result_eq, (safe.value_eq v set).1]
  | _ => exact set

theorem value_after {x : α} {steps : List (Step α)} {v : α} (set : (after x steps).value = some v)
    (more : List (Step α)) : (after x (steps ++ more)).value = some v := by
  induction more using List.reverseRecOn with
  | nil => rwa [List.append_nil]
  | append_singleton more s ih =>
    rw [← List.append_assoc, after_concat]
    exact value_stays (safe_after x _) ih s

/-- A thread that has its answer keeps it. -/
theorem done_stays {d : Delay α} {i : ℕ} {a : α} (here : d.threads[i]? = some (.done a))
    (s : Step α) : (d.step s).threads[i]? = some (.done a) := by
  have moves := moves_step d s
  generalize d.step s = d' at moves
  have apart {k : ℕ} {p q : Phase α} (came : d.threads[k]? = some p) (other : p ≠ .done a) :
      (d.goTo k q).threads[i]? = some (.done a) := by
    rw [goTo_getElem? came]
    by_cases same : i = k
    · subst same
      exact absurd (Option.some.inj (came.symm.trans here)) other
    · simp [same, here]
  cases moves with
  | idle => exact here
  | spawned =>
    have old : i < d.threads.size := (Array.getElem?_eq_some_iff.1 here).1
    rw [push_getElem?, if_neg (by omega), here]
  | found came | missed came | acquired came | foundInside came | started came | finished came
  | released came | gaveUp came | reread came => exact apart came nofun

theorem Owns.step {x : α} {i : ℕ} {d : Delay α} (safe : Safe x d) (owns : Owns x i d)
    (s : Step α) : Owns x i (d.step s) := by
  have moves := moves_step d s
  have holder {p : Phase α} (here : d.threads[i]? = some p) (inside : p.inside = true) :
      d.holder = some i := (safe.holder_iff i).2 ⟨p, here, inside⟩
  cases owns with
  | holding here unset none =>
    by_cases own : s = .advance i
    · subst own
      generalize d.step (.advance i) = d' at moves
      cases moves with
      | idle => exact .holding here unset none
      | started => exact .running (goTo_self here _) unset (congrArg (· + 1) none)
      | foundInside _ set => exact nomatch unset.symm.trans set
      | found came | missed came | acquired came | finished came | released came | reread came =>
        exact nomatch here.symm.trans came
    · obtain ⟨thread, value, runs⟩ := moves_other safe moves (holder here rfl) own
      exact .holding (thread.trans here) (value.trans unset) (runs.trans none)
  | running here unset once =>
    by_cases own : s = .advance i
    · subst own
      generalize d.step (.advance i) = d' at moves
      cases moves with
      | idle => exact .running here unset once
      | finished =>
        rw [safe.result_eq]
        exact .releasing (goTo_self here _) rfl once
      | found came | missed came | acquired came | foundInside came | started came | released came
      | reread came => exact nomatch here.symm.trans came
    · obtain ⟨thread, value, runs⟩ := moves_other safe moves (holder here rfl) own
      exact .running (thread.trans here) (value.trans unset) (runs.trans once)
  | releasing here set once =>
    by_cases own : s = .advance i
    · subst own
      generalize d.step (.advance i) = d' at moves
      cases moves with
      | idle => exact .releasing here set once
      | released came =>
        cases here.symm.trans came
        exact .done (goTo_self here _) set once
      | found came | missed came | acquired came | foundInside came | started came | finished came
      | reread came => exact nomatch here.symm.trans came
    · obtain ⟨thread, value, runs⟩ := moves_other safe moves (holder here rfl) own
      exact .releasing (thread.trans here) (value.trans set) (runs.trans once)
  | done here set once =>
    have set' := value_stays safe set s
    exact .done (done_stays here s) set' ((safe.step s).value_eq x set').2

theorem Owns.run {x : α} {i : ℕ} {d : Delay α} (safe : Safe x d) (owns : Owns x i d)
    (steps : List (Step α)) : Owns x i (d.run steps) := by
  induction steps generalizing d with
  | nil => exact owns
  | cons s steps ih => exact ih (safe.step s) (owns.step safe s)

/-! A thread that is left alone with the lock free and the value unset. -/

section Alone

variable {d : Delay α} {i : ℕ}

theorem step_reading {timeout : Option α} (here : d.threads[i]? = some (.reading timeout))
    (unset : d.value = none) : d.step (.advance i) = d.goTo i (.waiting timeout) := by
  simp [step, advance?, here, unset]

theorem step_waiting {timeout : Option α} (here : d.threads[i]? = some (.waiting timeout))
    (free : d.holder = none) :
    d.step (.advance i) = { d.goTo i .holding with holder := some i } := by
  simp [step, advance?, here, free]

theorem step_holding (here : d.threads[i]? = some .holding) (unset : d.value = none) :
    (d.step (.advance i)).threads[i]? = some .running ∧
      (d.step (.advance i)).result = d.result := by
  have made : d.step (.advance i) = { d.goTo i .running with runs := d.runs + 1 } := by
    simp [step, advance?, here, unset]
  rw [made]
  exact ⟨goTo_self here _, rfl⟩

theorem step_running (here : d.threads[i]? = some .running) :
    (d.step (.advance i)).threads[i]? = some (.releasing d.result) := by
  have made : d.step (.advance i) =
      { d.goTo i (.releasing d.result) with value := some d.result } := by
    simp [step, advance?, here]
  rw [made]
  exact goTo_self here _

theorem step_releasing {a : α} (here : d.threads[i]? = some (.releasing a)) :
    (d.step (.advance i)).threads[i]? = some (.done a) := by
  have made : d.step (.advance i) = { d.goTo i (.done a) with holder := none } := by
    simp [step, advance?, here]
  rw [made]
  exact goTo_self here _

/-- It acquires the lock, starts the thunk, finishes it and releases the lock. -/
theorem run_waiting {timeout : Option α} (here : d.threads[i]? = some (.waiting timeout))
    (unset : d.value = none) (free : d.holder = none) :
    (d.run (List.replicate 4 (.advance i))).threads[i]? = some (.done d.result) := by
  change ((((d.step (.advance i)).step (.advance i)).step (.advance i)).step
    (.advance i)).threads[i]? = _
  have holding : (d.step (.advance i)).threads[i]? = some .holding := by
    rw [step_waiting here free]
    exact goTo_self here _
  have unset' : (d.step (.advance i)).value = none := by
    rw [step_waiting here free]
    exact unset
  have result : (d.step (.advance i)).result = d.result := by
    rw [step_waiting here free]
    rfl
  obtain ⟨running, same⟩ := step_holding holding unset'
  have releasing := step_running running
  rw [same, result] at releasing
  exact step_releasing releasing

end Alone

/-- A thread that waits with a timeout, finds the lock free and the thunk not started. It cannot
give up, and once it has its step it is the one that starts the thunk, whatever steps follow. -/
structure TakesOver (x : α) (steps : List (Step α)) (i : ℕ) : Prop where
  stays : (after x steps).giveUp? i = none
  acquires : (after x (steps ++ [.advance i])).holder = some i
  owns : ∀ more, Owns x i (after x (steps ++ .advance i :: more))
  alone : (after x (steps ++ List.replicate 4 (.advance i))).answer? i = some x

theorem takesOver {x : α} {steps : List (Step α)} {i : ℕ} {timeout : α}
    (here : (after x steps).threads[i]? = some (.waiting (some timeout)))
    (unset : (after x steps).value = none) (free : (after x steps).holder = none) :
    TakesOver x steps i := by
  have safe := safe_after x steps
  have acquired := step_waiting here free
  refine ⟨?_, ?_, ?_, ?_⟩
  · simp [giveUp?, here, free]
  · rw [after_concat, acquired]
  · intro more
    have split : steps ++ .advance i :: more = steps ++ [.advance i] ++ more := by simp
    rw [split, after_append, after_concat]
    refine Owns.run (safe.step _) ?_ more
    rw [acquired]
    exact .holding (goTo_self here _) unset (safe.unstarted free unset)
  · have done := run_waiting here unset free
    rw [safe.result_eq] at done
    unfold answer?
    rw [after_append, done]

/-- A thread about to read the cell finds it unset and waits, with the lock still free. -/
theorem takesOver_reading {x : α} {steps : List (Step α)} {i : ℕ} {timeout : α}
    (here : (after x steps).threads[i]? = some (.reading (some timeout)))
    (unset : (after x steps).value = none) (free : (after x steps).holder = none) :
    TakesOver x (steps ++ [.advance i]) i := by
  have read : after x (steps ++ [.advance i]) =
      (after x steps).goTo i (.waiting (some timeout)) := by
    rw [after_concat, step_reading here unset]
  have waits : (after x (steps ++ [.advance i])).threads[i]? =
      some (.waiting (some timeout)) := by
    rw [read]
    exact goTo_self here _
  refine takesOver waits ?_ ?_ <;> rw [read]
  · exact unset
  · exact free

/-- The thunk is started at most once, and the value stays once it is set, for whoever looks
between two steps. All who ask and have an answer have the value, but for a timeout that the run
explains. -/
structure RunsOnce (x : α) (steps : List (Step α)) : Prop where
  started_once : (after x steps).runs ≤ 1
  value_stays : ∀ v, (after x steps).value = some v →
    ∀ more, (after x (steps ++ more)).value = some v
  isRealized_stays : (after x steps).isRealized = true →
    ∀ more, (after x (steps ++ more)).isRealized = true
  answer_without_timeout : ∀ i a, (asked steps)[i]? = some none →
    (after x steps).answer? i = some a → a = x
  answer_with_timeout : ∀ i timeout a, (asked steps)[i]? = some (some timeout) →
    (after x steps).answer? i = some a → a = x ∨ (a = timeout ∧ TimedOut x i timeout steps)
  takes_over : (after x steps).value = none → (after x steps).holder = none → ∀ i timeout,
    ((after x steps).threads[i]? = some (.waiting (some timeout)) → TakesOver x steps i) ∧
      ((after x steps).threads[i]? = some (.reading (some timeout)) →
        TakesOver x (steps ++ [.advance i]) i)

/-- Thread 1 gives up while thread 0 runs the thunk, and thread 2 has the value. -/
example : (after 7 [.spawn none, .advance 0, .advance 0, .advance 0, .spawn (some 1), .advance 1,
    .giveUp 1, .advance 1, .advance 0, .advance 0, .spawn (some 2), .advance 2]).threads =
      #[.done 7, .done 1, .done 7] := rfl

end Persistent.Delay
