import Persistent.Proofs.Seq.Shown

/-!
Sessions of several operations on lazy sequences. The operations are under way side by side, look
by look, in any order. Whatever the order, each source is called once for each of its cells that
has been looked at, a cell shows the answer for its place, and each operation comes to the outcome
that belongs to the answers of the sources.
-/

set_option autoImplicit false

namespace Persistent.Seq

variable {α : Type}

/-- A look at a lazy cell, with the item that was found there. -/
structure Look (α : Type) where
  cell : ℕ
  item : Option α

/-- The look has found what the source answers for the place of the cell. -/
def Look.Found (st : Store α) (look : Look α) : Prop :=
  ∃ j answer k, st.At j answer k look.cell ∧ look.item = answer k

theorem Look.Found.mono {st st' : Store α} (grows : st.Grows st') {look : Look α}
    (h : look.Found st) : look.Found st' := by
  obtain ⟨j, answer, k, stands, item⟩ := h
  exact ⟨j, answer, k, grows j answer k look.cell stands, item⟩

/-- The look at a lazy cell, if the sequence starts with one. -/
def looks (s : Seq α) (r : Option (α × Seq α)) : List (Look α) :=
  match s with
  | .lazy cell => [⟨cell, r.map Prod.fst⟩]
  | _ => []

theorem mem_looks {s : Seq α} {r : Option (α × Seq α)} {i : ℕ} :
    i ∈ (s.looks r).map Look.cell ↔ s = .lazy i := by
  cases s with
  | lazy cell => simp [looks, eq_comm]
  | _ => simp [looks]

theorem Shows.found {st st' : Store α} {s : Seq α} {f : Items α} {r : Option (α × Seq α)}
    (h : Shows st s f) (step : Unconsed st s f r st') {look : Look α}
    (member : look ∈ s.looks r) : look.Found st' := by
  cases h with
  | @lazy j answer k cell stands =>
    cases List.mem_singleton.1 member
    exact ⟨j, answer, k, step.grows j answer k cell stands, step.item⟩
  | _ => cases member

/-- An operation that has been started, and its task. -/
structure Entry (α : Type) where
  operation : Operation α (Seq α)
  task : Task α

structure Session (α : Type) where
  store : Store α := {}
  entries : List (Entry α) := []
  looks : List (Look α) := []

/-- An operation names a sequence by the number of the entry that came to it. -/
inductive Action (α : Type) where
  | start (op : Operation α ℕ)
  | look (entry : ℕ)

namespace Session

/-- The sequence that an entry has come to, or the empty one. -/
def sequence (w : Session α) (i : ℕ) : Seq α :=
  match w.entries[i]?.map Entry.task with
  | some (.done (.sequence s)) => s
  | _ => .nil

def start (w : Session α) (op : Operation α ℕ) : Session α :=
  let (task, store) := (op.map w.sequence).begin w.store
  { w with store, entries := w.entries ++ [⟨op.map w.sequence, task⟩] }

variable [BEq α]

/-- Lets an entry have its next look, unless it is done. -/
def look (w : Session α) (i : ℕ) : Session α :=
  match w.entries[i]? with
  | none => w
  | some e =>
    match e.task.asks with
    | none => w
    | some s =>
      let (r, store) := s.uncons w.store
      { store
        entries := w.entries.set i { e with task := e.task.resume r }
        looks := w.looks ++ s.looks r }

def step (w : Session α) : Action α → Session α
  | .start op => w.start op
  | .look i => w.look i

def run (actions : List (Action α)) : Session α :=
  actions.foldl step {}

/-- Looks have found what the source answered for the place of the cell, the settled cells are
those that have been looked at, and all tasks are on their way. -/
structure Sound (w : Session α) : Prop where
  chained : w.store.Chained
  settled_iff : ∀ i, w.store.settled i ↔ i ∈ w.looks.map Look.cell
  found : ∀ look ∈ w.looks, look.Found w.store
  stage : ∀ e ∈ w.entries, Stage w.store e.operation e.task

theorem sound_empty : ({} : Session α).Sound where
  chained := Store.chained_empty
  settled_iff _ := by simp [Store.settled]
  found _ impossible := nomatch impossible
  stage _ impossible := nomatch impossible

theorem Sound.sequence {w : Session α} (h : w.Sound) (i : ℕ) :
    ∃ f, Shows w.store (w.sequence i) f := by
  unfold Session.sequence
  split
  case h_1 s done =>
    obtain ⟨e, here, task⟩ := Option.map_eq_some_iff.1 done
    have stage := h.stage e (List.mem_of_getElem? here)
    rw [task] at stage
    exact stage.sequence
  case h_2 => exact ⟨_, .nil⟩

theorem Sound.start {w : Session α} (h : w.Sound) (op : Operation α ℕ) :
    (w.start op).Sound ∧ w.store.Grows (w.start op).store := by
  obtain ⟨chained, grows, settled, stage⟩ := begun h.chained h.sequence op
  refine ⟨⟨chained, ?_, ?_, ?_⟩, grows⟩
  · intro i
    exact (settled i).trans (h.settled_iff i)
  · intro look member
    exact (h.found look member).mono grows
  · intro e member
    rcases List.mem_append.1 member with old | new
    · exact (h.stage e old).mono grows
    · cases List.mem_singleton.1 new
      exact stage

theorem Sound.look {w : Session α} (h : w.Sound) (i : ℕ) :
    (w.look i).Sound ∧ w.store.Grows (w.look i).store := by
  unfold Session.look
  cases here : w.entries[i]? with
  | none => exact ⟨h, .refl w.store⟩
  | some e =>
    dsimp only
    cases asks : e.task.asks with
    | none => exact ⟨h, .refl w.store⟩
    | some s =>
      have stage := h.stage e (List.mem_of_getElem? here)
      obtain ⟨f, shows⟩ := stage.shows asks
      have step := shows.uncons h.chained
      have grows := step.grows
      refine ⟨⟨step.chained, ?_, ?_, ?_⟩, grows⟩
      · intro i
        rw [step.settled_iff, h.settled_iff, List.map_append, List.mem_append, mem_looks]
      · intro look member
        rcases List.mem_append.1 member with old | new
        · exact (h.found look old).mono grows
        · exact shows.found step new
      · intro e' member
        rcases List.mem_or_eq_of_mem_set member with old | rfl
        · exact (h.stage e' old).mono grows
        · exact stage.resume h.chained asks

theorem Sound.step {w : Session α} (h : w.Sound) (action : Action α) :
    (w.step action).Sound ∧ w.store.Grows (w.step action).store := by
  cases action with
  | start op => exact h.start op
  | look i => exact h.look i

theorem Sound.foldl {w : Session α} (h : w.Sound) (actions : List (Action α)) :
    (actions.foldl Session.step w).Sound ∧ w.store.Grows (actions.foldl Session.step w).store := by
  induction actions generalizing w with
  | nil => exact ⟨h, .refl w.store⟩
  | cons action actions ih =>
    obtain ⟨sound, grows⟩ := h.step action
    obtain ⟨sound', grows'⟩ := ih sound
    exact ⟨sound', grows.trans grows'⟩

theorem sound_run (actions : List (Action α)) : (run actions).Sound :=
  (sound_empty.foldl actions).1

/-- The entry has come to the outcome, with the store as it is now. -/
structure Came (w : Session α) (i : ℕ) (o : Outcome α) (st : Store α) : Prop where
  task : w.entries[i]?.map Entry.task = some (.done o)
  store : w.store = st

/-- An entry that is left alone advances look by look. -/
theorem look_alone {w : Session α} {i : ℕ} {p : Task α}
    (here : w.entries[i]?.map Entry.task = some p) :
    (w.look i).entries[i]?.map Entry.task = some (Task.advance (p, w.store)).1 ∧
      (w.look i).store = (Task.advance (p, w.store)).2 := by
  obtain ⟨e, entry, rfl⟩ := Option.map_eq_some_iff.1 here
  unfold Session.look
  rw [entry]
  dsimp only
  cases asks : e.task.asks with
  | none =>
    rw [Task.advance_idle asks]
    exact ⟨here, rfl⟩
  | some s =>
    rw [Task.advance_look asks]
    refine ⟨?_, rfl⟩
    rw [List.getElem?_set_self (List.getElem?_eq_some_iff.1 entry).1]
    rfl

theorem looks_alone {w : Session α} {i : ℕ} {p : Task α}
    (here : w.entries[i]?.map Entry.task = some p) (n : ℕ) :
    ((List.replicate n (.look i)).foldl step w).entries[i]?.map Entry.task =
        some (Task.advance^[n] (p, w.store)).1 ∧
      ((List.replicate n (.look i)).foldl step w).store = (Task.advance^[n] (p, w.store)).2 := by
  induction n generalizing w p with
  | zero => exact ⟨here, rfl⟩
  | succ n ih =>
    obtain ⟨task, store⟩ := look_alone here
    have rest := ih task
    rw [store] at rest
    exact rest

/-- What an operation computes is what it comes to when it is started and left alone. -/
theorem demand_iff_came (w : Session α) (op : Operation α ℕ) (o : Outcome α) (st : Store α) :
    (∃ fuel, (op.map w.sequence).demand fuel w.store = some (o, st)) ↔
      ∃ n, ((List.replicate n (.look w.entries.length)).foldl step (w.start op)).Came
        w.entries.length o st := by
  rw [Operation.demand_iff]
  have here : (w.start op).entries[w.entries.length]?.map Entry.task =
      some ((op.map w.sequence).begin w.store).1 := by
    unfold Session.start
    rw [List.getElem?_concat_length]
    rfl
  refine exists_congr fun n => ?_
  obtain ⟨task, store⟩ := looks_alone here n
  constructor
  · intro done
    have same : ((op.map w.sequence).begin w.store) =
        (((op.map w.sequence).begin w.store).1, (w.start op).store) := rfl
    rw [same] at done
    rw [done] at task store
    exact ⟨task, store⟩
  · rintro ⟨task', store'⟩
    rw [task'] at task
    rw [store'] at store
    exact Prod.ext (Option.some.inj task).symm store.symm

/-- Lazy sequences are memoized views of their sources. -/
structure Memoized (w : Session α) : Prop where
  /-- The cells of each source are one chain, and each cell but the last has been looked at. -/
  chained : w.store.Chained
  last_open : ∀ j answer k cell, w.store.At j answer k cell → ¬ w.store.settled cell →
    k + 1 = (w.store.cellsOf j).length
  /-- A source has been called once for each of its cells that has been looked at. -/
  calls_eq : ∀ (j : ℕ) (s : Source α), w.store.sources[j]? = some s →
    s.calls = ((w.store.cellsOf j).filter fun i => i ∈ w.looks.map Look.cell).length
  /-- No call comes after the one that found the end. -/
  last_call : ∀ (j : ℕ) (s : Source α), w.store.sources[j]? = some s →
    ∀ k < s.calls, s.answer k = none → s.calls = k + 1
  found : ∀ look ∈ w.looks, look.Found w.store
  outcome : ∀ e ∈ w.entries, ∀ o, e.task = .done o → Meets w.store e.operation o

theorem Sound.memoized {w : Session α} (h : w.Sound) : w.Memoized where
  chained := h.chained
  last_open _ _ _ _ := h.chained.last_open
  calls_eq := by
    intro j s source
    rw [(h.chained.linked j s source).calls_eq, Nat.zero_add]
    congr 1
    refine List.filter_congr fun i _ => ?_
    rw [Bool.eq_iff_iff, h.settled_iff, decide_eq_true_iff]
  last_call := by
    intro j s source k called done
    exact (h.chained.linked j s source).last_call (Nat.zero_le k) called done
  found := h.found
  outcome := by
    intro e member o done
    have stage := h.stage e member
    rw [done] at stage
    exact stage.meets

/-- An operation with an end can be computed. -/
theorem Sound.exists_demand {w : Session α} (h : w.Sound) {op : Operation α (Seq α)}
    (ends : op.Ends w.store) : ∃ fuel o st, op.demand fuel w.store = some (o, st) := by
  obtain ⟨n, o, st, done⟩ := ends.halts h.chained
  obtain ⟨fuel, computed⟩ := Operation.demand_iff.2 ⟨n, done⟩
  exact ⟨fuel, o, st, computed⟩

/-- Whatever operations are under way, and in whatever order they look, the sequences are
memoized views of their sources, and remain views of the same items. What an operation computes is
what it comes to when it is started and left alone. -/
theorem run_memoized (actions : List (Action α)) :
    (run actions).Memoized ∧
      (∀ more, (run actions).store.Grows (run (actions ++ more)).store) ∧
      (∀ s f g, Shows (run actions).store s f → Shows (run actions).store s g → f = g) ∧
      (∀ op : Operation α ℕ, (op.map (run actions).sequence).Ends (run actions).store →
        ∃ fuel o st, (op.map (run actions).sequence).demand fuel (run actions).store =
          some (o, st)) ∧
      ∀ op o st, (∃ fuel, (op.map (run actions).sequence).demand fuel (run actions).store =
        some (o, st)) ↔ ∃ n, (run (actions ++ .start op ::
          List.replicate n (.look (run actions).entries.length))).Came
            (run actions).entries.length o st := by
  have sound := sound_run actions
  refine ⟨sound.memoized, ?_, fun s f g => Shows.unique, fun op => sound.exists_demand, ?_⟩
  · intro more
    unfold run
    rw [List.foldl_append]
    exact (sound.foldl more).2
  · intro op o st
    rw [demand_iff_came]
    unfold run
    simp only [List.foldl_append, List.foldl_cons]
    rfl

/-- Two items and an endless source, with a count, a comparison and a prefix under way at once. -/
def shared : List (Action ℕ) :=
  [.start (.lazily (Source.ofArray #[5, 6])), .start (.lazily (Source.iterate id none)),
    .start (.cons 9 0), .start (.take 2 2), .start (.count 0), .start (.equal 0 1),
    .look 5, .look 4, .look 5, .look 4, .look 3, .look 3, .look 4,
    .start (.rest 0), .look 6, .start (.first 6), .look 7]

theorem run_memoized_shared :
    (run shared).Memoized ∧ (run shared).store.sources.toList.map Source.calls = [3, 1] ∧
      (run shared).looks.map Look.cell = [0, 0, 1, 2, 0, 4, 0, 2] ∧
      (run shared).entries[3]?.map Entry.task = some (.done (.items [9, 5])) ∧
      (run shared).entries[4]?.map Entry.task = some (.done (.number 2)) ∧
      (run shared).entries[5]?.map Entry.task = some (.done (.verdict false)) ∧
      (run shared).entries[7]?.map Entry.task = some (.done (.item (some 6))) := by
  refine ⟨(run_memoized shared).1, ?_, ?_, ?_, ?_, ?_, ?_⟩ <;> rfl

end Session

end Persistent.Seq
