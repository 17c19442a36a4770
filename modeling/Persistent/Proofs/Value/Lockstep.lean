import Persistent.Proofs.Value.Parting

/-!
Comparisons of sequential values item by item. They come to a verdict exactly if the two sides
part somewhere, as they do if one of them is finite. The verdict is that they are equal if they
part where both have ended, and each side has been asked for its cells up to that place.
-/

set_option autoImplicit false

open Persistent.Seq (Ahead)

namespace Persistent.Value

/-- Two lists, or two vectors. Their sizes are compared before their items. -/
def sameKind : Value → Value → Bool
  | .list _, .list _ | .vector _, .vector _ => true
  | _, _ => false

theorem unequalSizes_of_not_sameKind {a b : Value} (kinds : sameKind a b = false) :
    unequalSizes a b = false := by
  cases a <;> cases b <;> first | rfl | cases kinds

section Hashing

variable [Hasher]

section Ends

variable {st : Store Value}

/-- The items that a sequence reads are those that it shows in front of the end. -/
theorem shown_of_reads (ordered : Ordered st) {s : Seq Value} {xs : List Value}
    {f : Seq.Items Value} (reads : Seq.Reads st s xs) (shows : Seq.Shows st s f) {i : ℕ}
    (le : i ≤ xs.length) : f i = xs[i]? := by
  have step := shows.uncons ordered.chained
  have first := step.item
  induction xs generalizing st s f i with
  | nil =>
    obtain rfl := Nat.le_zero.1 le
    rw [Seq.uncons_nil reads] at first
    exact first.symm
  | cons x xs ih =>
    obtain ⟨rest, here, behind⟩ := Seq.uncons_cons ordered.sane.intact reads
    cases i with
    | zero =>
      rw [here] at first
      exact first.symm
    | succ i =>
      have next := (advances_uncons ordered s).ordered
      have shows' := step.rest x rest here
      have step' := shows'.uncons next.chained
      exact ih next behind shows' (Nat.le_of_succ_le_succ le) step' step'.item

theorem verdict_pure {x y : Value} {b : Bool} (plain : ∀ fuel, equal (fuel + 1) x y = pure b) :
    Verdict st x y b := by
  refine ⟨st, 1, fun fuel enough => ?_⟩
  obtain ⟨fuel, rfl⟩ := Nat.exists_eq_add_of_le' enough
  change equal (fuel + 1) x y st = _
  rw [plain]
  rfl

end Ends

section Sequences

variable {st : Store Value} (ordered : Ordered st) {a b : Value} (ha : In st a) (hb : In st b)
  {s t : Seq Value} (left : a.sequence? = some s) (right : b.sequence? = some t)
  {f g : Seq.Items Value} (hs : Seq.Shows st s f) (ht : Seq.Shows st t g)

include left right in
theorem comes_of_walked (sizes : unequalSizes a b = false) {p : ℕ} {r : Bool} {st' : Store Value}
    (walked : Walked st s t f g p r st') : Comes (fun fuel => equal fuel a b) st r st' := by
  obtain ⟨N, rounds⟩ := walked.rounds
  refine ⟨max N (p + 1) + 1, fun fuel enough => ?_⟩
  obtain ⟨fuel, rfl⟩ := Nat.exists_eq_add_of_le' (Nat.le_trans (Nat.le_add_left 1 _) enough)
  change equal (fuel + 1) a b st = _
  rw [equal_sequences fuel left right, if_neg (Bool.eq_false_iff.1 sizes),
    rounds fuel (by omega), if_pos (by omega)]

include ordered ha hb left right hs ht

theorem exists_comparison {p : ℕ} (parts : PartAt st f g p) :
    ∃ r st', Walked st s t f g p r st' :=
  exists_walked ordered (.refl ordered) (presents ordered.sane hs (valid_sequence ha left))
    (presents ordered.sane ht (valid_sequence hb right)) parts

theorem verdict_iff_partAt (sizes : unequalSizes a b = false) :
    (∃ r, Verdict st a b r) ↔ ∃ p, PartAt st f g p := by
  constructor
  · rintro ⟨r, st', N, run⟩
    have done : equal (N + 1) a b st = some (r, st') := run (N + 1) (Nat.le_succ N)
    rw [equal_sequences N left right, if_neg (Bool.eq_false_iff.1 sizes)] at done
    exact partAt_of_equal ordered (.refl ordered)
      (presents ordered.sane hs (valid_sequence ha left))
      (presents ordered.sane ht (valid_sequence hb right)) done
  · rintro ⟨p, parts⟩
    obtain ⟨r, st', walked⟩ := exists_comparison ordered ha hb left right hs ht parts
    exact ⟨r, st', comes_of_walked left right sizes walked⟩

/-- If one side has an end and the items can be compared, then so can the two sequences. -/
theorem decided_sequences {n : ℕ} (none : f n = none ∨ g n = none)
    (each : ∀ i < n, ∀ x y, f i = some x → g i = some y → ∃ r, Verdict st x y r) :
    ∃ r, Verdict st a b r := by
  cases sizes : unequalSizes a b with
  | true =>
    refine ⟨false, verdict_pure fun fuel => ?_⟩
    rw [equal_sequences fuel left right, if_pos sizes]
  | false =>
    have stops : StopAt st f g n := none.imp id .inl
    obtain ⟨p, -, parts⟩ := exists_partAt stops each
    exact (verdict_iff_partAt ordered ha hb left right hs ht sizes).2 ⟨p, parts⟩

end Sequences

section Maps

variable {st : Store Value} (ordered : Ordered st)
include ordered

theorem decided_entries {n : Map Metadata Value Value} (hn : In st (.map n))
    {entries : List (Value × Value)} (valid : ∀ e ∈ entries, e.1.Known ∧ In st e.2)
    (each : ∀ e ∈ entries, ∀ x, n.get? e.1 = some x → ∃ r, Verdict st x e.2 r) {u : Store Value}
    (h : Advances st u) :
    ∃ r u', Comes (fun fuel => equalEntries (equal fuel) n entries) u r u' := by
  induction entries generalizing u with
  | nil => exact ⟨true, u, 0, fun _ _ => rfl⟩
  | cons e entries ih =>
    have valid' (f : Value × Value) (hf : f ∈ entries) := valid f (List.mem_cons_of_mem e hf)
    have each' (f : Value × Value) (hf : f ∈ entries) := each f (List.mem_cons_of_mem e hf)
    obtain ⟨key, value⟩ := valid e List.mem_cons_self
    cases found : n.get? e.1 with
    | none =>
      refine ⟨false, u, 0, fun fuel _ => ?_⟩
      change equalEntries (equal fuel) n (e :: entries) u = _
      rw [equalEntries, found]
      rfl
    | some x =>
      have step (fuel : ℕ) : equalEntries (equal fuel) n (e :: entries) =
          equal fuel x e.2 >>= fun r =>
            if r = true then equalEntries (equal fuel) n entries else pure false := by
        rw [equalEntries, found]
      obtain ⟨r, verdict⟩ := each e List.mem_cons_self x found
      obtain ⟨w, comes, onward⟩ :=
        verdict.moves ordered (valid_get? hn key found) value (.refl ordered) h
      simp only [step]
      cases r with
      | false => exact ⟨false, w, comes.bind ⟨0, fun _ _ => rfl⟩⟩
      | true =>
        obtain ⟨r, u', rest⟩ := ih valid' each' (h.trans onward)
        exact ⟨r, u', comes.bind rest⟩

theorem decided_maps {m n : Map Metadata Value Value} (hm : In st (.map m)) (hn : In st (.map n))
    (each : ∀ e ∈ m.toList, ∀ x, n.get? e.1 = some x → ∃ r, Verdict st x e.2 r) :
    ∃ r, Verdict st (.map m) (.map n) r := by
  by_cases sizes : (m.size != n.size) = true
  · refine ⟨false, verdict_pure fun fuel => ?_⟩
    rw [equal_maps, if_pos sizes]
  · obtain ⟨keyed, values⟩ := valid_entries hm
    obtain ⟨r, st', N, run⟩ := decided_entries ordered hn
      (fun e he => ⟨keyed.keys e he, values e he⟩) each (.refl ordered)
    refine ⟨r, st', N + 1, fun fuel enough => ?_⟩
    obtain ⟨fuel, rfl⟩ := Nat.exists_eq_add_of_le' (Nat.le_trans (Nat.le_add_left 1 N) enough)
    change equal (fuel + 1) (.map m) (.map n) st = _
    rw [equal_maps, if_neg sizes]
    exact run fuel (by omega)

end Maps

theorem value_mem_of_get? {n : ℕ} {m : Map Metadata Value Value} (valid : (Value.map m).Valid n)
    {key x : Value} (known : key.Known) (found : m.get? key = some x) : x ∈ m.values := by
  obtain ⟨keyed, -⟩ := valid_entries valid
  obtain ⟨e, bound, rfl⟩ := Option.map_eq_some_iff.1 found
  rw [keyed.find?_eq lawful_known.toKeyLaw known] at bound
  exact List.mem_map_of_mem (Bindings.of_lookup bound).1

/-- Comparing the two comes to a verdict, whichever stands on the left. -/
def Comparable (st : Store Value) (v w : Value) : Prop :=
  (∃ r, Verdict st v w r) ∧ ∃ r, Verdict st w v r

section Comparable

variable {st : Store Value} {v w : Value}

theorem comparable_others (sequences : v.sort ≠ 1 ∨ w.sort ≠ 1)
    (maps : v.sort ≠ 2 ∨ w.sort ≠ 2) : Comparable st v w :=
  ⟨⟨_, verdict_pure fun fuel => equal_others fuel sequences maps⟩,
    ⟨_, verdict_pure fun fuel => equal_others fuel sequences.symm maps.symm⟩⟩

variable (ordered : Ordered st) (hv : In st v) (hw : In st w)
include ordered hv hw

theorem comparable_spine {s : Seq Value} {xs : List Value} (sequence : v.sequence? = some s)
    (reads : Seq.Reads st s xs) (each : ∀ x ∈ xs, ∀ y, In st y → Comparable st x y) :
    Comparable st v w := by
  by_cases sequential : w.sort = 1
  · obtain ⟨t, sequence'⟩ : ∃ t, w.sequence? = some t := by
      rw [← Option.isSome_iff_exists, sequence_isSome, sequential]
      rfl
    have ht := valid_sequence hw sequence'
    obtain ⟨f, shows⟩ := exists_shows ordered (valid_sequence hv sequence)
    obtain ⟨g, shows'⟩ := exists_shows ordered ht
    have shown (i : ℕ) (le : i ≤ xs.length) := shown_of_reads ordered reads shows le
    have ended : f xs.length = none := by rw [shown _ (Nat.le_refl _), List.getElem?_length]
    have pair (i : ℕ) (inside : i < xs.length) (x y : Value) (first : f i = some x)
        (second : g i = some y) : Comparable st x y := by
      rw [shown i (Nat.le_of_lt inside)] at first
      exact each x (List.mem_of_getElem? first) y (in_of_shows ordered.sane shows' ht second)
    constructor
    · exact decided_sequences ordered hv hw sequence sequence' shows shows' (.inl ended)
        fun i inside x y first second => (pair i inside x y first second).1
    · exact decided_sequences ordered hw hv sequence' sequence shows' shows (.inr ended)
        fun i inside y x second first => (pair i inside x y first second).2
  · refine comparable_others (.inr sequential) (.inl ?_)
    rw [sort_of_sequence sequence]
    decide

theorem comparable_map {m : Map Metadata Value Value} (same : v = .map m)
    (each : ∀ x ∈ m.values, ∀ y, In st y → Comparable st x y) : Comparable st v w := by
  subst same
  cases w with
  | map n =>
    obtain ⟨keyed, values⟩ := valid_entries hv
    obtain ⟨keyed', values'⟩ := valid_entries hw
    constructor
    · refine decided_maps ordered hv hw fun e he x found => ?_
      exact (each e.2 (List.mem_map_of_mem he) x (valid_get? hw (keyed.keys e he) found)).2
    · refine decided_maps ordered hw hv fun e he x found => ?_
      exact (each x (value_mem_of_get? hv (keyed'.keys e he) found) e.2 (values' e he)).1
  | _ => exact comparable_others (.inl (by simp [sort])) (.inr (by simp [sort]))

end Comparable

/-- A finite value can be compared with any other, endless or not. -/
theorem Finite.comparable {st : Store Value} (ordered : Ordered st) {v : Value}
    (finite : Finite st v) (hv : In st v) (w : Value) (hw : In st w) : Comparable st v w := by
  induction finite generalizing w with
  | flat h =>
    have sort := sort_of_flat h
    exact comparable_others (.inl (by omega)) (.inl (by omega))
  | set => exact comparable_others (.inl (by simp [sort])) (.inl (by simp [sort]))
  | spine sequence reads items ih =>
    have parts := valid_reads ordered.sane reads (valid_sequence hv sequence)
    exact comparable_spine ordered hv hw sequence reads fun x hx => ih x hx (parts x hx)
  | map values ih =>
    obtain ⟨-, valid⟩ := valid_entries hv
    refine comparable_map ordered hv hw rfl fun x hx => ih x hx ?_
    obtain ⟨e, he, rfl⟩ := List.mem_map.1 hx
    exact valid e he

section Calls

variable {st st' : Store Value} {s t : Seq Value} {f g : Seq.Items Value} {p : ℕ} {r : Bool}
  (walked : Walked st s t f g p r st') {cell j k : ℕ} {answer : ℕ → Option Value}
  (stands : st.At j answer k cell) {u' : Source Value} (source' : st'.sources[j]? = some u')
  (side : s = .lazy cell ∨ t = .lazy cell)
include walked stands source' side

/-- A lazy side has been asked for the cell where the two sides part. -/
theorem Walked.lt_calls : k + p < u'.calls := by
  have extended := walked.advances.extended
  have stands' := extended.grows _ _ _ _ stands
  have reached : Seq.Reached st' (.lazy cell) p := by
    rcases side with rfl | rfl
    · exact (walked.reached p (Nat.le_refl p)).1
    · exact (walked.reached p (Nat.le_refl p)).2
  obtain known | none | ⟨i, ahead⟩ := reached
  · cases known
  · cases none
  · have met : Met st' s t p i := by
      rcases side with rfl | rfl
      · exact .inl ahead
      · exact .inr ahead
    have settled := (walked.settled_iff i).2 (.inr ⟨p, Nat.le_refl p, .inl met⟩)
    cases ahead with
    | lazy here there =>
      obtain ⟨rfl, rfl, rfl⟩ := here.unique stands'
      exact (extended.chained.settled_iff there source').1 settled

/-- Where nothing else of its source is looked at, a lazy side has been asked for one cell more
than there are places on which the two sides agree. -/
theorem Walked.calls_eq (ordered : Ordered st) {u : Source Value}
    (source : st.sources[j]? = some u)
    (alone : ∀ d i, Met st' s t d i → i ∈ st'.cellsOf j → Ahead st' (.lazy cell) d i)
    (aside : ∀ d i, Inside st s t d i → i ∉ st'.cellsOf j) :
    u'.calls = max u.calls (k + p + 1) := by
  have extended := walked.advances.extended
  have stands' := extended.grows _ _ _ _ stands
  apply Nat.le_antisymm
  · -- the last call was for a cell that had been looked at before, or is met by the walk
    by_contra further
    have called : max u.calls (k + p + 1) < u'.calls := Nat.lt_of_not_le further
    generalize last : max u.calls (k + p + 1) = m at called
    obtain ⟨i, place⟩ := extended.chained.exists_cell source' called
    have settled := (extended.chained.settled_iff place source').2 called
    have own := List.mem_of_getElem? place.place
    rcases (walked.settled_iff i).1 settled with before | ⟨d, le, met | inside⟩
    · obtain ⟨c, here, -⟩ := (Option.any_eq_true _ _).1 before
      obtain ⟨j', answer', m', old⟩ := ordered.chained.exists_at here
      obtain ⟨rfl, rfl, rfl⟩ := (extended.grows _ _ _ _ old).unique place
      have earlier := (ordered.chained.settled_iff old source).1 before
      omega
    · cases alone d i met own with
      | lazy here there =>
        obtain ⟨rfl, rfl, rfl⟩ := here.unique stands'
        obtain ⟨-, -, same⟩ := there.unique place
        omega
    · exact aside d i inside own
  · exact Nat.max_le.2 ⟨extended.calls_le ordered.chained source source',
      walked.lt_calls stands source' side⟩

end Calls

/-- How the comparison of two sequential values goes, given what they show. -/
structure Lockstep (st : Store Value) (a b : Value) (s t : Seq Value) (f g : Seq.Items Value) :
    Prop where
  left : Seq.Shows st s f
  right : Seq.Shows st t g
  /-- It comes to a verdict exactly if the two sides part. -/
  verdict_iff : (∃ r, Verdict st a b r) ↔ ∃ p, PartAt st f g p
  unique : ∀ p q, PartAt st f g p → PartAt st f g q → p = q
  finite : Finite st a ∨ Finite st b → ∃ p, PartAt st f g p
  /-- They part no later than at a place where they differ, if what is in front of it can be
  compared. -/
  differ : ∀ k, StopAt st f g k →
    (∀ i < k, ∀ x y, f i = some x → g i = some y → ∃ r, Verdict st x y r) →
      ∃ p ≤ k, PartAt st f g p
  le_of_ends : ∀ p n, PartAt st f g p → (Seq.Items.EndsAt f n ∨ Seq.Items.EndsAt g n) → p ≤ n
  /-- The verdict, the store that is left and what has been looked at there. -/
  walk : ∀ p, PartAt st f g p → ∃ r st', Comes (fun fuel => equal fuel a b) st r st' ∧
    Walked st s t f g p r st' ∧
    (r = true ↔ ∃ n, Seq.Items.EndsAt f n ∧ Seq.Items.EndsAt g n ∧ ∀ k < n, AgreeAt st f g k)
  /-- A lazy side that nothing else looks at is asked for the cells up to where they part. -/
  calls : ∀ p r st', PartAt st f g p → Comes (fun fuel => equal fuel a b) st r st' →
    ∀ (cell j k : ℕ) (u u' : Source Value), st.At j u.answer k cell →
      st.sources[j]? = some u → st'.sources[j]? = some u' → (s = .lazy cell ∨ t = .lazy cell) →
      (∀ d i, Met st' s t d i → i ∈ st'.cellsOf j → Ahead st' (.lazy cell) d i) →
      (∀ d i, Inside st s t d i → i ∉ st'.cellsOf j) → u'.calls = max u.calls (k + p + 1)

section Lockstep

variable {st : Store Value} (ordered : Ordered st) {a b : Value} (ha : In st a) (hb : In st b)
  {s t : Seq Value} (left : a.sequence? = some s) (right : b.sequence? = some t)
include ordered ha hb left right

theorem exists_lockstep (kinds : sameKind a b = false) : ∃ f g, Lockstep st a b s t f g := by
  have sizes := unequalSizes_of_not_sameKind kinds
  obtain ⟨f, shows⟩ := exists_shows ordered (valid_sequence ha left)
  obtain ⟨g, shows'⟩ := exists_shows ordered (valid_sequence hb right)
  have parted := verdict_iff_partAt ordered ha hb left right shows shows' sizes
  refine ⟨f, g, shows, shows', parted, fun _ _ => PartAt.unique, ?_, ?_, ?_, ?_, ?_⟩
  · rintro (finite | finite)
    · exact parted.1 (finite.comparable ordered ha b hb).1
    · exact parted.1 (finite.comparable ordered hb a ha).2
  · exact fun k => exists_partAt
  · intro p n parts ends
    exact parts.le_of_ends (ends.imp (·.done) (·.done))
  · intro p parts
    obtain ⟨r, st', walked⟩ := exists_comparison ordered ha hb left right shows shows' parts
    exact ⟨r, st', comes_of_walked left right sizes walked, walked,
      walked.verdict.trans parts.both_ended_iff⟩
  · intro p r st' parts comes cell j k u u' stands source source' side alone aside
    obtain ⟨r', st'', walked⟩ := exists_comparison ordered ha hb left right shows shows' parts
    obtain ⟨rfl, rfl⟩ := comes.unique (comes_of_walked left right sizes walked)
    exact walked.calls_eq stands source' side ordered source alone aside

end Lockstep

end Hashing

/-- The numbers from 0 on, each made when it is asked for. -/
def numbers : Store Value :=
  (({} : Store Value).wrap (Source.iterate (fun k => .int (.ofNat k)) none)).2

theorem ordered_numbers [Hasher] : Ordered numbers := by
  refine (advances_wrap ordered_empty fun k x answered => ?_).ordered
  cases answered
  exact .flat rfl

end Persistent.Value
