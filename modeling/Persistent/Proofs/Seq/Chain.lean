import Mathlib.Data.List.Basic
import Persistent.Proofs.Seq.Intact

/-!
The cells of a source. They form one chain in which each cell but the last knows its item and the
next cell, so at most the last one is pending. Looking at a cell of the chain either changes
nothing, or settles the last cell and, if the source had an item, puts a new last cell behind it.
-/

set_option autoImplicit false

namespace Persistent.Store

variable {α : Type}

/-- Cells in a row, the first one at position `k` of source `j`, up to the last cell of the
source. -/
inductive Linked (st : Store α) (j : ℕ) (s : Source α) : ℕ → List ℕ → Prop
  | pending {k cell : ℕ} (here : st.cells[cell]? = some { source := j })
      (count : s.calls = k) : Linked st j s k [cell]
  | ended {k cell : ℕ} (here : st.cells[cell]? = some { source := j, step := some none })
      (done : s.answer k = none) (count : s.calls = k + 1) : Linked st j s k [cell]
  | forced {k cell next : ℕ} {x : α} {rest : List ℕ}
      (here : st.cells[cell]? = some { source := j, step := some (some (x, next)) })
      (item : s.answer k = some x) (behind : Linked st j s (k + 1) (next :: rest)) :
      Linked st j s k (cell :: next :: rest)

/-- Whether a cell has been looked at. -/
def settled (st : Store α) (i : ℕ) : Bool :=
  st.cells[i]?.any (·.step.isSome)

/-- What stands at place `d` of a chain, which is position `k` of its source. -/
inductive CellAt (st : Store α) (j : ℕ) (s : Source α) (chain : List ℕ) (d k cell : ℕ) : Prop
  | pending (here : st.cells[cell]? = some { source := j }) (count : s.calls = k)
      (last : chain.length = d + 1)
  | ended (here : st.cells[cell]? = some { source := j, step := some none })
      (done : s.answer k = none)
  | forced {x : α} {next : ℕ}
      (here : st.cells[cell]? = some { source := j, step := some (some (x, next)) })
      (item : s.answer k = some x) (behind : chain[d + 1]? = some next)

namespace Linked

variable {st : Store α} {j : ℕ} {s : Source α} {k : ℕ} {chain : List ℕ}

theorem cellAt (h : Linked st j s k chain) {d cell : ℕ} (at_ : chain[d]? = some cell) :
    CellAt st j s chain d (k + d) cell := by
  induction h generalizing d with
  | @pending k first here count =>
    cases d with
    | zero =>
      cases at_
      exact .pending here count rfl
    | succ d => cases at_
  | @ended k first here done count =>
    cases d with
    | zero =>
      cases at_
      exact .ended here done
    | succ d => cases at_
  | @forced k first next x rest here item behind ih =>
    cases d with
    | zero =>
      cases at_
      exact .forced here item rfl
    | succ d =>
      have place : k + 1 + d = k + (d + 1) := by omega
      cases place ▸ ih at_ with
      | pending here count last => exact .pending here count (by rw [List.length_cons, last])
      | ended here done => exact .ended here done
      | forced here item next => exact .forced here item next

theorem calls_eq (h : Linked st j s k chain) :
    s.calls = k + (chain.filter st.settled).length := by
  induction h with
  | pending here count => simp [settled, here, count]
  | ended here done count => simp [settled, here, count]
  | forced here item behind ih =>
    rw [List.filter_cons_of_pos (by simp [settled, here]), List.length_cons]
    omega

/-- The call that found the end is the last one. -/
theorem last_call (h : Linked st j s k chain) {i : ℕ} (from_ : k ≤ i) (called : i < s.calls)
    (done : s.answer i = none) : s.calls = i + 1 := by
  induction h with
  | pending here count => omega
  | ended here done count => omega
  | @forced k first next x rest here item behind ih =>
    by_cases same : k = i
    · subst same
      rw [item] at done
      cases done
    · exact ih (by omega)

theorem of_old {st' : Store α} (h : Linked st j s k chain)
    (old : ∀ i ∈ chain, st'.cells[i]? = st.cells[i]?) : Linked st' j s k chain := by
  induction h with
  | pending here count => exact .pending ((old _ List.mem_cons_self).trans here) count
  | ended here done count => exact .ended ((old _ List.mem_cons_self).trans here) done count
  | forced here item behind ih =>
    exact .forced ((old _ List.mem_cons_self).trans here) item
      (ih fun i hi => old i (List.mem_cons_of_mem _ hi))

section Settle

variable {cell : ℕ} {c : Cell α} (p : st.Pending cell c s) (own : c.source = j)
include p own

/-- The pending cell of a chain settles with the end. -/
theorem settle_end (h : Linked st j s k chain) (member : cell ∈ chain)
    (done : s.answer s.calls = none) :
    Linked (st.settle cell c s none) j { s with calls := s.calls + 1 } k chain := by
  induction h with
  | @pending k first here count =>
    cases List.mem_singleton.1 member
    refine .ended ?_ (count ▸ done) (congrArg (· + 1) count)
    rw [settle_cells p, if_pos rfl, own]
  | @ended k first here _ count =>
    cases List.mem_singleton.1 member
    cases p.cell_eq.symm.trans here
    cases p.unforced
  | @forced k first next x rest here item behind ih =>
    have other : first ≠ cell := by
      rintro rfl
      cases p.cell_eq.symm.trans here
      cases p.unforced
    refine .forced ?_ item (ih ((List.mem_cons.1 member).resolve_left (Ne.symm other)))
    rw [settle_cells p, if_neg other, here]

/-- The pending cell of a chain settles with an item, and a new pending cell stands behind it. -/
theorem settle_item (h : Linked st j s k chain) (member : cell ∈ chain) {x : α}
    (item : s.answer s.calls = some x) :
    Linked ((st.settle cell c s (some (x, st.cells.size))).grow j) j
      { s with calls := s.calls + 1 } k (chain ++ [st.cells.size]) := by
  have size : (st.settle cell c s (some (x, st.cells.size))).cells.size = st.cells.size :=
    settle_size _
  induction h with
  | @pending k first here count =>
    cases List.mem_singleton.1 member
    refine .forced ?_ (count ▸ item) (.pending ?_ (congrArg (· + 1) count))
    · rw [grow_cells, size, if_neg (Nat.ne_of_lt p.lt_size), settle_cells p, if_pos rfl, own]
    · rw [grow_cells, size, if_pos rfl]
  | @ended k first here _ count =>
    cases List.mem_singleton.1 member
    cases p.cell_eq.symm.trans here
    cases p.unforced
  | @forced k first next y rest here item' behind ih =>
    have other : first ≠ cell := by
      rintro rfl
      cases p.cell_eq.symm.trans here
      cases p.unforced
    have inside := (Array.getElem?_eq_some_iff.1 here).1
    refine .forced ?_ item' (ih ((List.mem_cons.1 member).resolve_left (Ne.symm other)))
    rw [grow_cells, size, if_neg (Nat.ne_of_lt inside), settle_cells p, if_neg other, here]

end Settle

end Linked

/-- The cells of a source, in the order in which they came to be. -/
def cellsOf (st : Store α) (j : ℕ) : List ℕ :=
  (List.range st.cells.size).filter fun i => st.cells[i]?.any (·.source == j)

theorem mem_cellsOf {st : Store α} {i j : ℕ} :
    i ∈ st.cellsOf j ↔ ∃ c, st.cells[i]? = some c ∧ c.source = j := by
  rw [cellsOf, List.mem_filter, List.mem_range]
  constructor
  · rintro ⟨inside, own⟩
    rw [Array.getElem?_eq_getElem inside] at own ⊢
    exact ⟨_, rfl, eq_of_beq own⟩
  · rintro ⟨c, here, own⟩
    refine ⟨(Array.getElem?_eq_some_iff.1 here).1, ?_⟩
    rw [here]
    exact beq_iff_eq.2 own

theorem nodup_cellsOf (st : Store α) (j : ℕ) : (st.cellsOf j).Nodup :=
  List.nodup_range.filter _

theorem cellsOf_settle {st : Store α} {cell : ℕ} {c : Cell α} {s : Source α}
    (p : st.Pending cell c s) (step : Option (α × ℕ)) (j : ℕ) :
    (st.settle cell c s step).cellsOf j = st.cellsOf j := by
  rw [cellsOf, cellsOf, settle_size]
  refine List.filter_congr fun i _ => ?_
  rw [settle_cells p]
  by_cases here : i = cell
  · rw [if_pos here, here, p.cell_eq]
    rfl
  · rw [if_neg here]

theorem cellsOf_grow (st : Store α) (source j : ℕ) :
    (st.grow source).cellsOf j =
      st.cellsOf j ++ if source = j then [st.cells.size] else [] := by
  rw [cellsOf, cellsOf, grow_size, List.range_succ, List.filter_append]
  congr 1
  · refine List.filter_congr fun i hi => ?_
    rw [grow_cells, if_neg (Nat.ne_of_lt (List.mem_range.1 hi))]
  · rw [List.filter_singleton, grow_cells, if_pos rfl]
    simp

/-- The cells of each source form one chain. -/
structure Chained (st : Store α) : Prop where
  source_lt : ∀ (i : ℕ) (c : Cell α), st.cells[i]? = some c → c.source < st.sources.size
  linked : ∀ (j : ℕ) (s : Source α), st.sources[j]? = some s → Linked st j s 0 (st.cellsOf j)

theorem chained_empty : ({} : Store α).Chained where
  source_lt _ _ impossible := nomatch impossible
  linked _ _ impossible := nomatch impossible

/-- The cell at place `k` of a source with these answers. -/
structure At (st : Store α) (j : ℕ) (answer : ℕ → Option α) (k cell : ℕ) : Prop where
  source : st.sources[j]?.map Source.answer = some answer
  place : (st.cellsOf j)[k]? = some cell

/-- Sources keep their answers and cells keep their places. -/
def Grows (st st' : Store α) : Prop :=
  ∀ j answer k cell, st.At j answer k cell → st'.At j answer k cell

theorem Grows.refl (st : Store α) : st.Grows st :=
  fun _ _ _ _ h => h

theorem Grows.trans {st st' st'' : Store α} (h : st.Grows st') (h' : st'.Grows st'') :
    st.Grows st'' :=
  fun j answer k cell at_ => h' j answer k cell (h j answer k cell at_)

theorem At.unique {st : Store α} {j j' : ℕ} {answer answer' : ℕ → Option α} {k k' cell : ℕ}
    (h : st.At j answer k cell) (h' : st.At j' answer' k' cell) :
    j = j' ∧ answer = answer' ∧ k = k' := by
  obtain ⟨c, here, own⟩ := mem_cellsOf.1 (List.mem_of_getElem? h.place)
  obtain ⟨c', here', own'⟩ := mem_cellsOf.1 (List.mem_of_getElem? h'.place)
  cases here.symm.trans here'
  obtain rfl := own.symm.trans own'
  refine ⟨rfl, Option.some.inj (h.source.symm.trans h'.source), ?_⟩
  have inside := (List.getElem?_eq_some_iff.1 h.place).1
  exact (List.getElem?_inj inside (st.nodup_cellsOf j)).1 (h.place.trans h'.place.symm)

theorem grows_of {st st' : Store α}
    (sources : ∀ (j : ℕ) (s : Source α), st.sources[j]? = some s →
      ∃ s', st'.sources[j]? = some s' ∧ s'.answer = s.answer)
    (places : ∀ j, st.cellsOf j <+: st'.cellsOf j) : st.Grows st' := by
  intro j answer k cell h
  obtain ⟨s, source, rfl⟩ := Option.map_eq_some_iff.1 h.source
  obtain ⟨s', source', same⟩ := sources j s source
  obtain ⟨more, longer⟩ := places j
  refine ⟨by rw [source', Option.map_some, same], ?_⟩
  rw [← longer, List.getElem?_append_left (List.getElem?_eq_some_iff.1 h.place).1, h.place]

/-- What a look at the cell at place `k` of a source brings about. -/
structure Looked (st : Store α) (j : ℕ) (answer : ℕ → Option α) (k cell : ℕ)
    (r : Option (α × ℕ)) (st' : Store α) : Prop where
  chained : st'.Chained
  grows : st.Grows st'
  settled_iff : ∀ i, st'.settled i ↔ st.settled i ∨ i = cell
  item : r.map Prod.fst = answer k
  behind : ∀ x next, r = some (x, next) → st'.At j answer (k + 1) next

/-- A second look at a cell settles nothing. -/
theorem settled_again {st : Store α} {cell : ℕ} (known : st.settled cell) (i : ℕ) :
    st.settled i ↔ st.settled i ∨ i = cell := by
  constructor
  · exact .inl
  · rintro (before | rfl)
    · exact before
    · exact known

section Settle

variable {st : Store α} {cell : ℕ} {c : Cell α} {s : Source α} (p : st.Pending cell c s)
include p

theorem settled_settle (step : Option (α × ℕ)) (i : ℕ) :
    (st.settle cell c s step).settled i ↔ st.settled i ∨ i = cell := by
  unfold settled
  rw [settle_cells p]
  by_cases here : i = cell
  · simp [here]
  · simp [here]

omit p in
theorem settled_grow (st : Store α) (source i : ℕ) :
    (st.grow source).settled i ↔ st.settled i := by
  unfold settled
  rw [grow_cells]
  by_cases here : i = st.cells.size
  · simp [here]
  · simp [here]

theorem sources_settle (step : Option (α × ℕ)) (j : ℕ) (u : Source α)
    (source : st.sources[j]? = some u) : ∃ u', (st.settle cell c s step).sources[j]? = some u' ∧
      u'.answer = u.answer := by
  rw [settle_sources p]
  by_cases own : j = c.source
  · subst own
    cases p.source_eq.symm.trans source
    exact ⟨_, if_pos rfl, rfl⟩
  · exact ⟨u, by rw [if_neg own, source], rfl⟩

theorem grows_settle (step : Option (α × ℕ)) : st.Grows (st.settle cell c s step) := by
  refine grows_of (sources_settle p step) fun j => ⟨[], ?_⟩
  rw [List.append_nil, cellsOf_settle p]

/-- The cells of another source stay as they are. -/
theorem Linked.settle_other {j k : ℕ} {u : Source α} (other : c.source ≠ j)
    (h : Linked st j u k (st.cellsOf j)) (step : Option (α × ℕ)) :
    Linked (st.settle cell c s step) j u k (st.cellsOf j) := by
  refine h.of_old fun i member => ?_
  obtain ⟨d, here, own⟩ := mem_cellsOf.1 member
  rw [settle_cells p, if_neg]
  rintro rfl
  cases p.cell_eq.symm.trans here
  exact other own

theorem source_lt_settle (h : st.Chained) (step : Option (α × ℕ)) (i : ℕ) (d : Cell α)
    (here : (st.settle cell c s step).cells[i]? = some d) :
    d.source < (st.settle cell c s step).sources.size := by
  have sizes : (st.settle cell c s step).sources.size = st.sources.size :=
    Array.size_setIfInBounds
  rw [sizes]
  rw [settle_cells p] at here
  split at here
  · cases here
    exact h.source_lt cell c p.cell_eq
  · exact h.source_lt i d here

theorem chained_end (h : st.Chained) (done : s.answer s.calls = none) :
    (st.settle cell c s none).Chained := by
  refine ⟨source_lt_settle p h none, fun j u source => ?_⟩
  rw [cellsOf_settle p]
  rw [settle_sources p] at source
  split at source
  case isTrue own =>
    cases source
    subst own
    exact (h.linked _ s p.source_eq).settle_end p rfl (mem_cellsOf.2 ⟨c, p.cell_eq, rfl⟩) done
  case isFalse other =>
    exact Linked.settle_other p (Ne.symm other) (h.linked j u source) none

omit p in
/-- A new cell leaves the cells of the other sources as they are. -/
theorem Linked.grow_other {j k source : ℕ} {u : Source α}
    (h : Linked st j u k (st.cellsOf j)) : Linked (st.grow source) j u k (st.cellsOf j) := by
  refine h.of_old fun i member => ?_
  obtain ⟨d, here, -⟩ := mem_cellsOf.1 member
  rw [grow_cells, if_neg (Nat.ne_of_lt (Array.getElem?_eq_some_iff.1 here).1)]

theorem chained_item (h : st.Chained) {x : α} (item : s.answer s.calls = some x) :
    ((st.settle cell c s (some (x, st.cells.size))).grow c.source).Chained := by
  refine ⟨fun i d here => ?_, fun j u source => ?_⟩
  · rw [grow_cells] at here
    split at here
    · cases here
      have inside := source_lt_settle p h (some (x, st.cells.size)) cell
        { c with step := some (some (x, st.cells.size)) } (by rw [settle_cells p, if_pos rfl])
      exact inside
    · exact source_lt_settle p h _ i d here
  · have source' : (st.settle cell c s (some (x, st.cells.size))).sources[j]? = some u := source
    rw [cellsOf_grow, cellsOf_settle p, settle_size]
    rw [settle_sources p] at source'
    split at source'
    case isTrue own =>
      cases source'
      subst own
      rw [if_pos rfl]
      exact (h.linked _ s p.source_eq).settle_item p rfl
        (mem_cellsOf.2 ⟨c, p.cell_eq, rfl⟩) item
    case isFalse other =>
      rw [if_neg (Ne.symm other), List.append_nil]
      have kept := Linked.settle_other p (Ne.symm other) (h.linked j u source')
        (some (x, st.cells.size))
      rw [← cellsOf_settle p (some (x, st.cells.size))] at kept ⊢
      exact kept.grow_other

end Settle

theorem grows_grow (st : Store α) (source : ℕ) : st.Grows (st.grow source) := by
  refine grows_of (fun j s here => ⟨s, here, rfl⟩) fun j => ?_
  rw [cellsOf_grow]
  exact List.prefix_append _ _

/-- Only the last cell of a source can be pending. -/
theorem Chained.last_open {st : Store α} (h : st.Chained) {j k cell : ℕ}
    {answer : ℕ → Option α} (at_ : st.At j answer k cell) (unsettled : ¬ st.settled cell) :
    k + 1 = (st.cellsOf j).length := by
  obtain ⟨s, source, rfl⟩ := Option.map_eq_some_iff.1 at_.source
  have stands := (h.linked j s source).cellAt at_.place
  cases stands with
  | pending _ _ last => exact last.symm
  | ended here | forced here => exact absurd (by simp [settled, here]) unsettled

/-- A look at a cell gets the answer of the source for the place of the cell, and leads to the
cell at the next place. -/
theorem Chained.looked {st : Store α} (h : st.Chained) {j k cell : ℕ} {answer : ℕ → Option α}
    (at_ : st.At j answer k cell) :
    Looked st j answer k cell (st.force cell).1 (st.force cell).2 := by
  obtain ⟨s, source, rfl⟩ := Option.map_eq_some_iff.1 at_.source
  have stands := (h.linked j s source).cellAt at_.place
  rw [Nat.zero_add] at stands
  cases stands with
  | ended here done =>
    rw [force_known here rfl]
    exact ⟨h, .refl st, settled_again (by simp [settled, here]), done.symm, nofun⟩
  | @forced x next here item behind =>
    rw [force_known here rfl]
    refine ⟨h, .refl st, settled_again (by simp [settled, here]), item.symm, ?_⟩
    rintro y next ⟨⟩
    exact ⟨at_.source, behind⟩
  | pending here count last =>
    have p : st.Pending cell { source := j } s := ⟨here, rfl, source⟩
    cases item : s.answer s.calls with
    | none =>
      rw [force_end p item]
      exact ⟨chained_end p h item, grows_settle p none, settled_settle p none,
        (count ▸ item).symm, nofun⟩
    | some x =>
      rw [force_item p item]
      have grows := (grows_settle p (some (x, st.cells.size))).trans (grows_grow _ j)
      refine ⟨chained_item p h item, grows, fun i => ?_, (count ▸ item).symm, ?_⟩
      · rw [settled_grow, settled_settle p]
      · rintro y next ⟨⟩
        refine ⟨(grows j s.answer k cell at_).source, ?_⟩
        rw [cellsOf_grow, cellsOf_settle p, settle_size, if_pos rfl, ← last]
        exact List.getElem?_concat_length

/-- What a new source brings about. Its one cell stands at its first place. -/
structure Wrapped (st : Store α) (answer : ℕ → Option α) (cell : ℕ) (st' : Store α) : Prop where
  chained : st'.Chained
  grows : st.Grows st'
  settled_iff : ∀ i, st'.settled i ↔ st.settled i
  first : st'.At st.sources.size answer 0 cell

/-- A source that is not there has no cells. -/
theorem cellsOf_new {st : Store α} (h : st.Chained) {j : ℕ} (new : st.sources.size ≤ j) :
    st.cellsOf j = [] := by
  refine List.eq_nil_iff_forall_not_mem.2 fun i member => ?_
  obtain ⟨c, here, own⟩ := mem_cellsOf.1 member
  exact absurd own (Nat.ne_of_lt (Nat.lt_of_lt_of_le (h.source_lt i c here) new))

theorem Chained.wrap {st : Store α} (h : st.Chained) (answer : ℕ → Option α) :
    Wrapped st answer (st.wrap answer).1 (st.wrap answer).2 := by
  let more : Store α := { st with sources := st.sources.push { answer } }
  have grown : (st.wrap answer).2 = more.grow st.sources.size := rfl
  have cells (j : ℕ) : (more.grow st.sources.size).cellsOf j =
      st.cellsOf j ++ if st.sources.size = j then [st.cells.size] else [] :=
    cellsOf_grow more st.sources.size j
  have sources (j : ℕ) : (more.grow st.sources.size).sources[j]? =
      if j = st.sources.size then some { answer } else st.sources[j]? :=
    Array.getElem?_push
  have kept (j : ℕ) (s : Source α) (source : st.sources[j]? = some s) :
      (more.grow st.sources.size).sources[j]? = some s := by
    rw [sources, if_neg (Nat.ne_of_lt (Array.getElem?_eq_some_iff.1 source).1), source]
  rw [grown]
  refine ⟨⟨fun i d here => ?_, fun j s source => ?_⟩, ?_, settled_grow more st.sources.size, ?_⟩
  · have size : (more.grow st.sources.size).sources.size = st.sources.size + 1 := Array.size_push _
    rw [size]
    rw [grow_cells] at here
    split at here
    · cases here
      exact Nat.lt_succ_self _
    · exact Nat.lt_succ_of_lt (h.source_lt i d here)
  · rw [sources] at source
    rw [cells]
    split at source
    case isTrue new =>
      cases source
      rw [new, cellsOf_new h (Nat.le_refl _), if_pos rfl]
      exact .pending (by rw [grow_cells]; exact if_pos rfl) rfl
    case isFalse old =>
      rw [if_neg (Ne.symm old), List.append_nil]
      have linked : Linked more j s 0 (more.cellsOf j) :=
        (h.linked j s source).of_old fun _ _ => rfl
      exact linked.grow_other
  · refine grows_of (fun j s source => ⟨s, kept j s source, rfl⟩) fun j => ?_
    rw [cells]
    exact List.prefix_append _ _
  · refine ⟨by rw [sources, if_pos rfl]; rfl, ?_⟩
    rw [cells, cellsOf_new h (Nat.le_refl _), if_pos rfl]
    rfl

end Persistent.Store
