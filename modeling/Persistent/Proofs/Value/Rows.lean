import Persistent.Proofs.Value.Founded
import Persistent.Proofs.Value.Opening

/-!
Printing the rows of a value. The pieces that are written are looked into one after another, and so
all that is looked at is what is opened in them. Metadata is such a row too.
-/

set_option autoImplicit false

namespace Persistent.Value

section Texts

variable {st : Store Value} {opts : PrintOptions} {d : ℕ}

/-- Every value that can be written has its text. -/
theorem exists_texts (st : Store Value) (opts : PrintOptions) (d : ℕ) :
    ∃ part : Value → String, ∀ x text, Writes st opts d (.value x) text → part x = text := by
  classical
  refine ⟨fun x => if h : ∃ text, Writes st opts d (.value x) text then h.choose else "",
    fun x text written => ?_⟩
  have some : ∃ text, Writes st opts d (.value x) text := ⟨text, written⟩
  exact (dif_pos some).trans (some.choose_spec.unique written)

theorem glue_of_writes {part : Value → String} {xs ys : List Value}
    (same : List.Forall₂ (fun x y => part x = render opts d y) xs ys) :
    glue part xs = glue (render opts d) ys := by
  refine congrArg (join " ") ?_
  induction same with
  | nil => rfl
  | cons first _ ih => rw [List.map_cons, List.map_cons, first, ih]

theorem attached_eq_some {metadata : Option (Map Metadata Value Value)}
    {m : Map Metadata Value Value} : attached opts metadata = some m ↔
      opts.metadata = true ∧ metadata = some m ∧ m.isEmpty = false := by
  unfold attached
  cases opts.metadata <;> simp [Option.filter_eq_some_iff]

theorem attached_of_same {m m' : Map Metadata Value Value} (same : m'.isEmpty = m.isEmpty) :
    attached opts (some m') = (attached opts (some m)).map fun _ => m' := by
  unfold attached
  rw [Option.filter_some, Option.filter_some, same]
  cases opts.metadata <;> cases m.isEmpty <;> rfl

/-- Metadata is written in front of what is written without it. -/
theorem writes_value {v : Value} {metadata : Option (Map Metadata Value Value)} {own : String}
    (absent : attached opts v.metadata? = none → attached opts metadata = none)
    (present : ∀ m, attached opts v.metadata? = some m → ∃ m', attached opts metadata = some m' ∧
      Writes st opts d (.pieces .entries ((ofEntries m)[·]?))
        (rowText opts d .entries (ofEntries m')))
    (written : Writes st opts d (.own v) own) :
    Writes st opts d (.value v) (frontText opts d metadata ++ own) := by
  unfold frontText
  cases carried : attached opts v.metadata? with
  | none =>
    rw [absent carried]
    exact String.empty_append.symm ▸ .bare carried written
  | some m =>
    obtain ⟨m', here, row⟩ := present m carried
    rw [here]
    exact .metadata carried row written

/-- Metadata in which there is something to write is not empty. -/
theorem attached_of_inRow {m : Map Metadata Value Value} {x : Value} (on : opts.metadata = true)
    (sized : m.size = m.toList.length) (inside : InRow opts ((ofEntries m)[·]?) x) :
    attached opts (some m) = some m := by
  refine attached_eq_some.2 ⟨on, rfl, ?_⟩
  by_contra empty
  have none : m.size = 0 := by simpa [Table.isEmpty] using empty
  obtain ⟨i, piece, item, -⟩ := inside.exists_piece
  rw [ofEntries, List.length_eq_zero_iff.1 (sized.symm.trans none)] at item
  cases item

end Texts

variable [Hasher]

section Each

variable {st : Store Value} {A B : Type}

theorem mapM_looks {look : ℕ → A → Demand Value B} {P : A → Seq Value → ℕ → Prop}
    {Q : A → B → Prop} {xs : List A}
    (each : ∀ x ∈ xs, ∀ u, Advances st u →
      ∃ y u', Looks (fun fuel => look fuel x) u (P x) y u' ∧ Q x y)
    {u : Store Value} (advances : Advances st u) :
    ∃ ys u', Looks (fun fuel => xs.mapM (look fuel)) u (fun s k => ∃ x ∈ xs, P x s k) ys u' ∧
      List.Forall₂ Q xs ys := by
  induction xs generalizing u with
  | nil => exact ⟨[], u, (looks_pure advances.ordered []).congr fun _ _ => by simp, .nil⟩
  | cons x xs ih =>
    obtain ⟨y, u₁, first, here⟩ := each x List.mem_cons_self u advances
    obtain ⟨ys, u₂, others, behind⟩ := ih (fun x among => each x (List.mem_cons_of_mem _ among))
      (advances.trans first.advances)
    have step (fuel : ℕ) : (x :: xs).mapM (look fuel) =
        look fuel x >>= fun y => xs.mapM (look fuel) >>= fun ys => pure (y :: ys) :=
      List.mapM_cons
    refine ⟨y :: ys, u₂, ?_, .cons here behind⟩
    rw [funext step]
    exact (first.bind others.returns).congr fun s k => by simp

theorem observeShown_looks {opts : PrintOptions} {look : ℕ → A → Demand Value A}
    {P : A → Seq Value → ℕ → Prop} {Q : A → A → Prop} {xs : List A}
    (each : ∀ x ∈ opts.shown xs, ∀ u, Advances st u →
      ∃ y u', Looks (fun fuel => look fuel x) u (P x) y u' ∧ Q x y)
    {u : Store Value} (advances : Advances st u) :
    ∃ ys u', Looks (fun fuel => observeShown opts (look fuel) xs) u
        (fun s k => ∃ x ∈ opts.shown xs, P x s k) ys u' ∧
      ys.length = xs.length ∧ List.Forall₂ Q (opts.shown xs) (opts.shown ys) := by
  obtain ⟨ys, u', looks, all⟩ := mapM_looks each advances
  refine ⟨ys ++ xs.drop ys.length, u', looks.returns, ?_⟩
  have count := all.length_eq
  unfold PrintOptions.shown at all count ⊢
  cases limit : opts.length with
  | none =>
    simp only [limit] at all count ⊢
    rw [← count, List.drop_length, List.append_nil]
    exact ⟨count.symm, all⟩
  | some n =>
    simp only [limit] at all count ⊢
    rw [List.length_take] at count
    have total : (ys ++ xs.drop ys.length).length = xs.length := by
      rw [List.length_append, List.length_drop]
      omega
    refine ⟨total, ?_⟩
    have front : (ys ++ xs.drop ys.length).take n = ys := by
      by_cases less : n ≤ xs.length
      · exact List.take_left' (by omega)
      · rw [List.drop_eq_nil_of_le (by omega), List.append_nil, List.take_of_length_le (by omega)]
    rw [front]
    exact all

end Each

/-- Printed at the depth, the value has the cells that it opens looked at and comes to one that is
rendered to its text. -/
def Displays (st : Store Value) (opts : PrintOptions) (d : ℕ) (v : Value) : Prop :=
  ∀ u, Advances st u → ∃ w u',
    Looks (fun fuel => observe opts fuel d v) u (Opened st opts d v) w u' ∧
    Writes st opts d (.value v) (render opts d w)

/-- What is written of a value displays, one level further down. -/
structure PartsDisplay (st : Store Value) (opts : PrintOptions) (d : ℕ) (v : Value)
    (all : Seq.Items (List Value)) : Prop where
  has : HasPieces st v all
  own : v.frame?.isSome → opts.hides d = false → ∀ x, InRow opts all x →
    Displays st opts (d + 1) x
  sized : ∀ m, v.metadata? = some m → m.size = m.toList.length
  front : ∀ m, attached opts v.metadata? = some m → opts.hides d = false →
    ∀ x, InRow opts ((ofEntries m)[·]?) x → Displays st opts (d + 1) x

section Rows

variable {st : Store Value} {opts : PrintOptions} {d : ℕ}

/-- One row: its pieces are looked into one by one. -/
theorem row_looks {A : Type} (near : opts.hides d = false) {look : ℕ → A → Demand Value A}
    {inside : A → List Value} {xs : List A} {all : Seq.Items (List Value)}
    (trimmed : Trimmed opts all ((opts.shown xs).map inside) (opts.ellipsis xs))
    (each : ∀ a ∈ opts.shown xs, ∀ u, Advances st u → ∃ b u',
      Looks (fun fuel => look fuel a) u (fun s k => ∃ x ∈ inside a, Opened st opts (d + 1) x s k)
        b u' ∧
      List.Forall₂ (fun x y => Writes st opts (d + 1) (.value x) (render opts (d + 1) y))
        (inside a) (inside b))
    {u : Store Value} (advances : Advances st u) :
    ∃ ys u',
      Looks (fun fuel => observeShown opts (look fuel) xs) u (RowOpened st opts d all) ys u' ∧
      ys.length = xs.length ∧
      ∀ frame, Writes st opts d (.pieces frame all) (rowText opts d frame (ys.map inside)) := by
  obtain ⟨ys, u', looks, length, written⟩ := observeShown_looks each advances
  refine ⟨ys, u', looks.congr fun s k => ?_, length, fun frame => ?_⟩
  · unfold RowOpened
    simp only [near, inRow_iff trimmed, List.mem_map, true_and]
    constructor
    · rintro ⟨a, among, x, part, opened⟩
      exact ⟨x, ⟨_, ⟨a, among, rfl⟩, part⟩, opened⟩
    · rintro ⟨x, ⟨_, ⟨a, among, rfl⟩, part⟩, opened⟩
      exact ⟨a, among, x, part, opened⟩
  · obtain ⟨part, agrees⟩ := exists_texts st opts (d + 1)
    have texts : ((opts.shown xs).map inside).map (glue part) =
        (opts.shown (ys.map inside)).map (glue (render opts (d + 1))) := by
      rw [shown_map]
      refine List.forall₂_eq_eq_eq ▸ ?_
      simp only [List.forall₂_map_left_iff, List.forall₂_map_right_iff]
      exact written.imp fun a b h => glue_of_writes (h.imp fun x y w => agrees x _ w)
    unfold rowText
    rw [if_neg (by simp [near]), ← texts, ellipsis_of_length opts (List.length_map inside),
      ellipsis_of_length opts length]
    refine .pieces near trimmed fun piece among x within => ?_
    obtain ⟨a, here, rfl⟩ := List.mem_map.1 among
    obtain ⟨b, -, same⟩ := Matches.exists_mem ⟨_, written, .refl _⟩ here
    obtain ⟨y, -, text⟩ := Matches.exists_mem ⟨_, same, .refl _⟩ within
    exact agrees x _ text ▸ text

theorem items_looks (near : opts.hides d = false) {xs : List Value} {all : Seq.Items (List Value)}
    (trimmed : Trimmed opts all ((opts.shown xs).map ([·])) (opts.ellipsis xs))
    (parts : ∀ x, InRow opts all x → Displays st opts (d + 1) x) {u : Store Value}
    (advances : Advances st u) :
    ∃ ys u', Looks (fun fuel => observeShown opts (observe opts fuel (d + 1)) xs) u
        (RowOpened st opts d all) ys u' ∧
      ys.length = xs.length ∧
      ∀ frame, Writes st opts d (.pieces frame all) (rowText opts d frame (ys.map ([·]))) := by
  refine row_looks near trimmed (fun x among u advances => ?_) advances
  have inside : InRow opts all x :=
    (inRow_iff trimmed x).2 ⟨[x], List.mem_map.2 ⟨x, among, rfl⟩, List.mem_singleton_self x⟩
  obtain ⟨y, u', looks, text⟩ := parts x inside u advances
  exact ⟨y, u', looks.congr fun s k => by simp, .cons text .nil⟩

theorem entries_looks (near : opts.hides d = false) (m : Map Metadata Value Value)
    (parts : ∀ x, InRow opts ((ofEntries m)[·]?) x → Displays st opts (d + 1) x) {u : Store Value}
    (advances : Advances st u) :
    ∃ m' u', Looks (fun fuel => observeEntries opts (observe opts fuel (d + 1)) m) u
        (RowOpened st opts d ((ofEntries m)[·]?)) m' u' ∧
      m'.size = m.size ∧ m'.toList.length = m.toList.length ∧
      Writes st opts d (.pieces .entries ((ofEntries m)[·]?))
        (rowText opts d .entries (ofEntries m')) := by
  have trimmed : Trimmed opts ((ofEntries m)[·]?)
      ((opts.shown m.toList).map fun e => [e.1, e.2]) (opts.ellipsis m.toList) :=
    trimmed_map opts (fun e : Value × Value => [e.1, e.2]) m.toList
  have each (e : Value × Value) (among : e ∈ opts.shown m.toList) (u : Store Value)
      (advances : Advances st u) : ∃ f u',
      Looks (fun fuel => observeEntry (observe opts fuel (d + 1)) e) u
        (fun s k => ∃ x ∈ [e.1, e.2], Opened st opts (d + 1) x s k) f u' ∧
      List.Forall₂ (fun x y => Writes st opts (d + 1) (.value x) (render opts (d + 1) y))
        [e.1, e.2] [f.1, f.2] := by
    have inside (x : Value) (part : x ∈ [e.1, e.2]) : Displays st opts (d + 1) x :=
      parts x ((inRow_iff trimmed x).2 ⟨_, List.mem_map.2 ⟨e, among, rfl⟩, part⟩)
    obtain ⟨k, u₁, key, name⟩ := inside e.1 (by simp) u advances
    obtain ⟨y, u₂, value, text⟩ := inside e.2 (by simp) u₁ (advances.trans key.advances)
    exact ⟨(k, y), u₂, (key.bind value.returns).congr fun s i => by simp,
      .cons name (.cons text .nil)⟩
  obtain ⟨es, u', looks, length, written⟩ := row_looks near trimmed each advances
  refine ⟨{ m with toTable := m.toTable.refill es }, u', looks.returns, rfl, ?_, ?_⟩
  · exact (congrArg List.length (Table.toList_refill m.toTable length)).trans length
  · have row := written .entries
    rw [← Table.toList_refill m.toTable length] at row
    exact row

end Rows

section Front

variable {st : Store Value} {opts : PrintOptions} {d : ℕ}

/-- Metadata that is not written is looked at no further, and neither is that at a hidden depth. -/
theorem front_left {v : Value} {metadata : Option Metadata}
    (carries : v.metadata? = metadata.map (·.map))
    (left : ∀ m, attached opts v.metadata? = some m → opts.hides d = true) {u : Store Value}
    (ordered : Ordered u) :
    Looks (fun _ => (pure metadata : Demand Value (Option Metadata))) u
        (FrontOpened st opts d v.metadata?) metadata u ∧
      ∀ own, Writes st opts d (.own v) own →
        Writes st opts d (.value v) (frontText opts d (metadata.map (·.map)) ++ own) := by
  refine ⟨(looks_pure ordered metadata).congr fun s k => iff_of_false id ?_, fun own => ?_⟩
  · rintro ⟨m, carried, near, -⟩
    cases near.symm.trans (left m carried)
  · refine writes_value (fun absent => carries ▸ absent) fun m carried => ?_
    refine ⟨m, carries ▸ carried, ?_⟩
    rw [rowText, if_pos (left m carried)]
    exact .mark (left m carried)

theorem front_entered {v : Value} {m : Map Metadata Value Value} (carries : v.metadata? = some m)
    (sized : m.size = m.toList.length) (on : opts.metadata = true) (near : opts.hides d = false)
    (parts : ∀ x, InRow opts ((ofEntries m)[·]?) x → Displays st opts (d + 1) x) {u : Store Value}
    (advances : Advances st u) :
    ∃ m' u', Looks (fun fuel => observeEntries opts (observe opts fuel (d + 1)) m) u
        (FrontOpened st opts d v.metadata?) m' u' ∧
      ∀ own, Writes st opts d (.own v) own →
        Writes st opts d (.value v) (frontText opts d (some m') ++ own) := by
  obtain ⟨m', u', looks, size, length, row⟩ := entries_looks near m parts advances
  have same : m'.isEmpty = m.isEmpty := congrArg (· == 0) size
  refine ⟨m', u', looks.congr fun s k => ⟨?_, ?_⟩, fun own => ?_⟩
  · rintro ⟨near, x, inside, opened⟩
    exact ⟨m, carries ▸ attached_of_inRow on sized inside, near, x, inside, opened⟩
  · rintro ⟨m'', carried, opened⟩
    cases carries.symm.trans (attached_eq_some.1 carried).2.1
    exact opened
  · refine writes_value (fun absent => ?_) fun m'' carried => ?_
    · rw [attached_of_same same, ← carries, absent]
      rfl
    · cases carries.symm.trans (attached_eq_some.1 carried).2.1
      refine ⟨m', ?_, row⟩
      rw [attached_of_same same, ← carries, carried]
      rfl

theorem front_looks {v : Value} {all : Seq.Items (List Value)}
    (parts : PartsDisplay st opts d v all) {metadata : Option Metadata}
    (carries : v.metadata? = metadata.map (·.map)) {u : Store Value} (advances : Advances st u) :
    ∃ metadata' u',
      Looks (fun fuel => observeMetadata opts d (observe opts fuel (d + 1)) metadata) u
        (FrontOpened st opts d v.metadata?) metadata' u' ∧
      ∀ own, Writes st opts d (.own v) own →
        Writes st opts d (.value v) (frontText opts d (metadata'.map (·.map)) ++ own) := by
  rcases metadata with _ | ⟨⟨m⟩⟩
  · refine ⟨none, u, front_left carries (fun m carried => ?_) advances.ordered⟩
    cases carries.symm.trans (attached_eq_some.1 carried).2.1
  change v.metadata? = some m at carries
  by_cases skipped : (!opts.metadata || opts.hides d) = true
  · have step (fuel : ℕ) : observeMetadata opts d (observe opts fuel (d + 1)) (some (.of m)) =
        pure (some (.of m)) := if_pos skipped
    simp only [step]
    refine ⟨some (.of m), u, front_left carries (fun m carried => ?_) advances.ordered⟩
    simpa [(attached_eq_some.1 carried).1] using skipped
  · obtain ⟨on, near⟩ : opts.metadata = true ∧ opts.hides d = false := by simpa using skipped
    have step (fuel : ℕ) : observeMetadata opts d (observe opts fuel (d + 1)) (some (.of m)) =
        observeEntries opts (observe opts fuel (d + 1)) m >>= fun m => pure (some (.of m)) :=
      if_neg skipped
    simp only [step]
    obtain ⟨m', u', looks, written⟩ :=
      front_entered carries (parts.sized m carries) on near (fun x inside =>
        parts.front m (carries ▸ attached_of_inRow on (parts.sized m carries) inside) near x inside)
        advances
    exact ⟨some (.of m'), u', looks.returns, written⟩

end Front

end Persistent.Value
