import Persistent.Proofs.Value.Showing

/-!
Where printing comes to a text. It gets to the bottom of every founded value, and of any other one
if the level is limited. Conversely, what has been printed has a bottom, and without a limit on the
length each sequence in it that was opened has an end.
-/

set_option autoImplicit false

namespace Persistent.Value

open Demand (Orderly)

section Bottom

variable {st : Store Value} {opts : PrintOptions}

/-- Nothing is entered at the limit on the level or below it. -/
theorem grounded_of_level {level : ℕ} (limit : opts.level = some level) (d : ℕ) (v : Value) :
    Grounded st opts d v := by
  induction left : level - d generalizing d v with
  | zero =>
    have deep : opts.hides d = true := by
      simp only [PrintOptions.hides, limit, Option.any_some, decide_eq_true_eq]
      omega
    exact .intro fun near => nomatch deep.symm.trans near
  | succ n ih => exact .intro fun _ _ _ x _ => ih (d + 1) x (by omega)

theorem Founded.grounded [Hasher] {v : Value} (h : Founded st v) (d : ℕ) :
    Grounded st opts d v := by
  induction h generalizing d with
  | intro has _ _ _ ih ih' =>
    refine .intro fun _ all row x shown => ?_
    obtain ⟨i, piece, item, part⟩ := shown.exists_piece
    cases row with
    | own _ has' =>
      obtain rfl := has.unique has'
      exact ih i piece item x part (d + 1)
    | metadata carried =>
      exact ih' _ (attached_eq_some.1 carried).2.1 piece (List.mem_of_getElem? item) x part (d + 1)

end Bottom

section Walk

variable {u u' : Store Value} {s : Seq Value} {f : Seq.Items Value} {xs : List Value}

theorem uncons_of_look {r : Option (Value × Seq Value)} (looked : s.look u = some (r, u')) :
    (s.uncons u).1 = r ∧ (s.uncons u).2 = u' :=
  Prod.mk.inj (Option.some.inj looked)

theorem take_eq_of_shows (n : ℕ) (chained : u.Chained) (shows : Seq.Shows u s f)
    (done : s.take n u = some (xs, u')) : xs = Seq.Items.take n f := by
  induction n generalizing u s f xs with
  | zero =>
    cases done
    rfl
  | succ n ih =>
    have step := shows.uncons chained
    have item := step.item
    rw [Seq.take] at done
    obtain ⟨r, u₁, looked, done⟩ := of_bind done
    obtain ⟨here, rfl⟩ := uncons_of_look looked
    rw [here] at item
    cases r with
    | none =>
      cases done
      rw [Seq.Items.take, ← item]
      rfl
    | some first =>
      obtain ⟨x, rest⟩ := first
      obtain ⟨ys, u₂, taken, done⟩ := of_bind done
      cases done
      rw [Seq.Items.take, ← item, ih step.chained (step.rest x rest here) taken]
      rfl

theorem endsAt_of_toList (fuel : ℕ) (chained : u.Chained) (shows : Seq.Shows u s f)
    (done : s.toList fuel u = some (xs, u')) :
    ∃ n, Seq.Items.EndsAt f n ∧ xs = Seq.Items.take n f := by
  induction fuel generalizing u s f xs with
  | zero => cases done
  | succ fuel ih =>
    have step := shows.uncons chained
    have item := step.item
    rw [Seq.toList] at done
    obtain ⟨r, u₁, looked, done⟩ := of_bind done
    obtain ⟨here, rfl⟩ := uncons_of_look looked
    rw [here] at item
    cases r with
    | none =>
      cases done
      exact ⟨0, Seq.Items.endsAt_zero item.symm, rfl⟩
    | some first =>
      obtain ⟨x, rest⟩ := first
      obtain ⟨ys, u₂, taken, done⟩ := of_bind done
      cases done
      obtain ⟨n, ends, rfl⟩ := ih step.chained (step.rest x rest here) taken
      refine ⟨n + 1, ends.push (item ▸ rfl), ?_⟩
      rw [Seq.Items.take, ← item]
      rfl

end Walk

/-- In a store that has come from `st` the computation comes to the answer. -/
def Returns {A : Type} (st : Store Value) (c : Demand Value A) (a : A) : Prop :=
  ∃ u u', st.Extended u ∧ c u = some (a, u')

section Returns

variable {A B : Type} {st : Store Value}

/-- What comes first has returned, and so has what follows its answer. -/
theorem Returns.of_bind {c : Demand Value A} {f : A → Demand Value B} {b : B}
    (h : Returns st (c >>= f) b) (orderly : Orderly c) :
    ∃ a, Returns st c a ∧ Returns st (f a) b := by
  obtain ⟨u, u', extended, done⟩ := h
  obtain ⟨a, u₁, first, second⟩ := Value.of_bind done
  exact ⟨a, ⟨u, u₁, extended, first⟩, u₁, u',
    extended.trans (orderly u extended.chained a u₁ first), second⟩

theorem Returns.of_mapM {look : A → Demand Value B} (each : ∀ x, Orderly (look x)) {xs : List A}
    {ys : List B} (h : Returns st (xs.mapM look) ys) : ∀ x ∈ xs, ∃ y, Returns st (look x) y := by
  induction xs generalizing ys with
  | nil => exact fun x among => nomatch among
  | cons x xs ih =>
    rw [List.mapM_cons] at h
    obtain ⟨y, first, h⟩ := h.of_bind (each x)
    obtain ⟨ys, others, -⟩ := h.of_bind (Demand.orderly_mapM each xs)
    exact List.forall_mem_cons.2 ⟨⟨y, first⟩, ih others⟩

variable {opts : PrintOptions}

theorem Returns.of_shown {look : A → Demand Value A} (each : ∀ x, Orderly (look x)) {xs ys : List A}
    (h : Returns st (observeShown opts look xs) ys) :
    ∀ x ∈ opts.shown xs, ∃ y, Returns st (look x) y := by
  obtain ⟨seen, all, -⟩ := Returns.of_bind h (Demand.orderly_mapM each _)
  exact all.of_mapM each

variable {look : Value → Demand Value Value} (each : ∀ x, Orderly (look x))
include each

theorem Returns.of_items {xs ys : List Value} (h : Returns st (observeShown opts look xs) ys)
    {all : Seq.Items (List Value)}
    (trimmed : Trimmed opts all ((opts.shown xs).map ([·])) (opts.ellipsis xs)) (x : Value)
    (shown : InRow opts all x) : ∃ y, Returns st (look x) y := by
  obtain ⟨piece, among, part⟩ := (inRow_iff trimmed x).1 shown
  obtain ⟨x', here, rfl⟩ := List.mem_map.1 among
  obtain rfl := List.mem_singleton.1 part
  exact h.of_shown each x here

theorem Returns.of_entries {m m' : Map Metadata Value Value}
    (h : Returns st (observeEntries opts look m) m') (x : Value)
    (shown : InRow opts ((ofEntries m)[·]?) x) : ∃ y, Returns st (look x) y := by
  have entry (e : Value × Value) :
      Orderly (do return (← look e.1, ← look e.2) : Demand Value (Value × Value)) :=
    (each e.1).bind fun k => (each e.2).returns _
  obtain ⟨entries, h, -⟩ := Returns.of_bind h (orderly_observeShown opts entry m.toList)
  have trimmed := trimmed_map opts (fun e : Value × Value => [e.1, e.2]) m.toList
  obtain ⟨piece, among, part⟩ := (inRow_iff trimmed x).1 shown
  obtain ⟨e, here, rfl⟩ := List.mem_map.1 among
  obtain ⟨f, both⟩ := h.of_shown entry e here
  obtain ⟨k, first, both⟩ := both.of_bind (each e.1)
  obtain ⟨y, second, -⟩ := both.of_bind (each e.2)
  simp only [List.mem_cons, List.not_mem_nil, or_false] at part
  rcases part with rfl | rfl
  · exact ⟨k, first⟩
  · exact ⟨y, second⟩

theorem Returns.of_metadata {d : ℕ} (near : opts.hides d = false)
    {metadata metadata' : Option Metadata}
    (h : Returns st (observeMetadata opts d look metadata) metadata')
    {m : Map Metadata Value Value} (carried : attached opts (metadata.map (·.map)) = some m)
    (x : Value) (shown : InRow opts ((ofEntries m)[·]?) x) : ∃ y, Returns st (look x) y := by
  obtain ⟨on, carries, -⟩ := attached_eq_some.1 carried
  rcases metadata with _ | ⟨⟨m'⟩⟩
  · cases carries
  · cases carries
    have entered : observeMetadata opts d look (some (.of m')) =
        observeEntries opts look m' >>= fun m => pure (some (.of m)) :=
      if_neg (by simp [on, near])
    rw [entered] at h
    obtain ⟨m'', entries, -⟩ := h.of_bind (orderly_observeEntries opts each m')
    exact entries.of_entries each x shown

end Returns

section Printed

variable {st : Store Value} {opts : PrintOptions} {d fuel : ℕ} {v w : Value}

/-- A walk that has returned has stopped at the limit on the length or has met the end. -/
theorem Returns.of_observeItems {s : Seq Value} {f : Seq.Items Value} (shows : Seq.Shows st s f)
    {xs : List Value} (h : Returns st (observeItems opts fuel s) xs) :
    (opts.length.isSome ∨ ∃ n, Seq.Items.EndsAt f n) ∧
      Trimmed opts f (opts.shown xs) (opts.ellipsis xs) := by
  obtain ⟨u, u', extended, done⟩ := h
  have shows' := shows.mono extended.grows
  unfold observeItems at done
  cases limit : opts.length with
  | some n =>
    rw [limit] at done
    obtain rfl := take_eq_of_shows (n + 1) extended.chained shows' done
    exact ⟨.inl rfl, trimmed_front opts limit f⟩
  | none =>
    rw [limit] at done
    obtain ⟨n, ends, rfl⟩ := endsAt_of_toList fuel extended.chained shows' done
    exact ⟨.inr ⟨n, ends⟩, trimmed_whole opts ends⟩

/-- What is returned of a value has been returned of its metadata first. -/
theorem Returns.of_front {metadata : Option Metadata} (carries : v.metadata? = metadata.map (·.map))
    {c : Option Metadata → Demand Value Value}
    (step : observe opts (fuel + 1) d v =
      observeMetadata opts d (observe opts fuel (d + 1)) metadata >>= c)
    (h : Returns st (observe opts (fuel + 1) d v) w) (near : opts.hides d = false) :
    (∀ m, attached opts v.metadata? = some m → ∀ x, InRow opts ((ofEntries m)[·]?) x →
      ∃ y, Returns st (observe opts fuel (d + 1) x) y) ∧
      ∃ metadata', Returns st (c metadata') w := by
  have each := orderly_observe opts fuel (d + 1)
  rw [step] at h
  obtain ⟨metadata', front, own⟩ := h.of_bind (orderly_observeMetadata opts each d metadata)
  exact ⟨fun m carried => front.of_metadata each near (carries ▸ carried), metadata', own⟩

/-- A collection of items that are known. -/
theorem Returns.of_own (closed : ∀ s, v ≠ .seq s) {xs : List Value}
    (pieces : v.pieces = xs.map ([·])) {wrap : List Value → Value}
    (h : Returns st (observeShown opts (observe opts fuel (d + 1)) xs >>= fun ys =>
      pure (wrap ys)) w) {frame : Frame} {all : Seq.Items (List Value)}
    (_ : v.frame? = some frame) (has : HasPieces st v all) (x : Value)
    (shown : InRow opts all x) : ∃ y, Returns st (observe opts fuel (d + 1) x) y := by
  have each := orderly_observe opts fuel (d + 1)
  obtain rfl := has.unique (.known closed)
  obtain ⟨ys, items, -⟩ := h.of_bind (orderly_observeShown opts each xs)
  exact items.of_items each (pieces ▸ trimmed_map opts ([·]) xs) x shown

/-- Of a sequence its items have returned, and each item that is shown. -/
theorem Returns.of_seq {s : Seq Value} (h : Returns st (observe opts (fuel + 1) d (.seq s)) w)
    (near : opts.hides d = false) : ∃ xs ys, Returns st (observeItems opts fuel s) xs ∧
      Returns st (observeShown opts (observe opts fuel (d + 1)) xs) ys := by
  have step : observe opts (fuel + 1) d (.seq s) = observeItems opts fuel s >>= fun items =>
      observeShown opts (observe opts fuel (d + 1)) items >>= fun ys =>
        pure (.seq (s.refill ys)) := if_neg (by simp [near])
  rw [step] at h
  obtain ⟨xs, items, h⟩ := h.of_bind (orderly_observeItems opts fuel s)
  obtain ⟨ys, shown, -⟩ :=
    h.of_bind (orderly_observeShown opts (orderly_observe opts fuel (d + 1)) xs)
  exact ⟨xs, ys, items, shown⟩

theorem rows_of {P : Value → Prop}
    (front : ∀ m, attached opts v.metadata? = some m → ∀ x, InRow opts ((ofEntries m)[·]?) x → P x)
    (own : ∀ frame all, v.frame? = some frame → HasPieces st v all → ∀ x, InRow opts all x → P x)
    (all : Seq.Items (List Value)) (row : Row st opts v all) (x : Value)
    (shown : InRow opts all x) : P x := by
  cases row with
  | own framed has => exact own _ _ framed has x shown
  | metadata carried => exact front _ carried x shown

/-- All that is written of a value has returned before the value does. -/
theorem Returns.rows (h : Returns st (observe opts (fuel + 1) d v) w)
    (near : opts.hides d = false) : ∀ all, Row st opts v all → ∀ x, InRow opts all x →
      ∃ y, Returns st (observe opts fuel (d + 1) x) y := by
  have each := orderly_observe opts fuel (d + 1)
  cases v with
  | nil | bool | int | str | keyword =>
    refine rows_of (fun m carried => ?_) fun _ _ framed => nomatch framed
    cases (attached_eq_some.1 carried).2.1
  | symbol s =>
    obtain ⟨front, -⟩ := h.of_front rfl rfl near
    exact rows_of front fun _ _ framed => nomatch framed
  | list l =>
    obtain ⟨front, metadata, own⟩ := h.of_front rfl rfl near
    simp only [near] at own
    exact rows_of front fun _ _ => own.of_own (v := .list l) nofun rfl
  | vector v =>
    obtain ⟨front, metadata, own⟩ := h.of_front rfl rfl near
    simp only [near] at own
    exact rows_of front fun _ _ => own.of_own (v := .vector v) nofun rfl
  | set s =>
    obtain ⟨front, metadata, own⟩ := h.of_front rfl rfl near
    simp only [near] at own
    exact rows_of front fun _ _ => own.of_own (v := .set s) nofun rfl
  | map m =>
    obtain ⟨front, metadata, own⟩ := h.of_front rfl rfl near
    simp only [near] at own
    obtain ⟨m', entries, -⟩ := own.of_bind (orderly_observeEntries opts each m)
    refine rows_of front fun _ _ _ has => ?_
    obtain rfl := has.unique (.known nofun)
    exact entries.of_entries each
  | seq s =>
    obtain ⟨xs, ys, items, shown⟩ := h.of_seq near
    refine rows_of (fun m carried => ?_) fun _ _ _ has => ?_
    · cases (attached_eq_some.1 carried).2.1
    · cases has with
      | known closed => exact absurd rfl (closed s)
      | seq shows => exact shown.of_items each ((items.of_observeItems shows).2.map ([·]))

/-- By induction on the fuel: what returns has a bottom, with an end to each sequence that has been
opened without a limit. -/
theorem Returns.grounded (h : Returns st (observe opts fuel d v) w) :
    Grounded st opts d v ∧ Bounded st opts d v := by
  induction fuel generalizing d v w with
  | zero =>
    obtain ⟨u, u', -, done⟩ := h
    cases done
  | succ fuel ih =>
    have inner (near : opts.hides d = false) (all : Seq.Items (List Value))
        (row : Row st opts v all) (x : Value) (shown : InRow opts all x) :
        Grounded st opts (d + 1) x ∧ Bounded st opts (d + 1) x := by
      obtain ⟨y, returned⟩ := h.rows near all row x shown
      exact ih returned
    refine ⟨.intro fun near all row x shown => (inner near all row x shown).1, ?_⟩
    by_cases limit : opts.length.isSome
    · exact .inl limit
    · refine .inr fun d' s f reaches near shows => ?_
      cases reaches with
      | here =>
        obtain ⟨xs, ys, items, -⟩ := h.of_seq near
        exact (items.of_observeItems shows).1.resolve_left limit
      | part near' row shown onward =>
        exact (inner near' _ row _ shown).2.resolve_left limit d' s f onward near shows

end Printed

end Persistent.Value
