import Persistent.Proofs.Value.Items
import Persistent.Proofs.Value.Laws

/-!
One view of every value that is a sequence or can be seen as one. However its items are asked for,
by the next one or by the rest, from the sequence over it, by position or only for their number,
the answers are those of one list.
-/

set_option autoImplicit false

namespace Persistent.Value

/-- The first item of a value and of all that is next, until next is nil. -/
def walkNext : ℕ → Value → Action (List Value)
  | 0, _ => (Demand.exhausted : Demand Value (List Value))
  | fuel + 1, v => do
    let x ← v.first
    let behind ← v.next
    if behind.isNil then return [x] else return x :: (← walkNext fuel behind)

def itemsByNext (fuel : ℕ) (v : Value) : Action (List Value) := do
  match ← v.seq? with
  | none => return []
  | some _ => walkNext fuel v

/-- The first item of a value and of each rest, as long as there is a sequence over it. -/
def itemsByRest : ℕ → Value → Action (List Value)
  | 0, _ => (Demand.exhausted : Demand Value (List Value))
  | fuel + 1, v => do
    match ← v.seq? with
    | none => return []
    | some _ =>
      let x ← v.first
      let behind ← v.rest
      return x :: (← itemsByRest fuel behind)

/-- All items of the sequence over a value. -/
def itemsBySeq (fuel : ℕ) (v : Value) : Action (List Value) := do
  match ← v.seq? with
  | none => return []
  | some s => (s.toList fuel : Demand Value (List Value))

theorem itemAt?_inside {xs : List Value} {i : Int64} (inside : 0 ≤ i.toInt) :
    itemAt? xs i = xs[i.toInt.toNat]? := by
  unfold itemAt?
  rw [if_neg]
  · rfl
  · rw [Int64.lt_iff_toInt_lt]
    exact Int.not_lt.2 inside

theorem itemAt?_outside {xs : List Value} {i : Int64}
    (outside : ¬(0 ≤ i.toInt ∧ i.toInt < xs.length)) : itemAt? xs i = none := by
  unfold itemAt?
  split
  case isTrue => rfl
  case isFalse behind =>
    rw [Int64.lt_iff_toInt_lt] at behind
    have zero : (0 : Int64).toInt = 0 := rfl
    rw [List.getElem?_eq_none_iff]
    change xs.length ≤ i.toInt.toNat
    omega

/-- Where there is a sequence over a value, and a sequence itself has an end, there are items. -/
theorem exists_items {st st' : Store Value} {v : Value} {o : Option (Seq Value)}
    (seen : v.seq?.run st = some (.ok o, st')) (ends : ∀ s, v = .seq s → ∃ xs, Seq.Reads st s xs) :
    ∃ xs, Items st v xs := by
  cases v with
  | nil => exact ⟨_, .nil⟩
  | str => exact ⟨_, .str⟩
  | list l => exact ⟨_, .spine rfl (Seq.reads_ofList st l.items)⟩
  | vector v => exact ⟨_, .spine rfl (Seq.reads_ofList st v.toList)⟩
  | map => exact ⟨_, .map⟩
  | set => exact ⟨_, .set⟩
  | seq s =>
    obtain ⟨xs, reads⟩ := ends s rfl
    exact ⟨xs, .spine rfl reads⟩
  | bool | int | keyword | symbol => cases seen

section Hashing

variable [Hasher]

section Walks

variable {st : Store Value} {v : Value} {xs : List Value}

/-- One step of the walk, given the walk over what is next. -/
theorem walkNext_step (valid : In st v) {x : Value} (items : Items st v (x :: xs))
    (behind : xs ≠ [] → ∀ st₁ s, Offers st₁ s xs →
      Gives st₁ (fun fuel => walkNext fuel (.seq s)) (.ok xs)) :
    Gives st (fun fuel => walkNext fuel v) (.ok (x :: xs)) := by
  refine Delivers.succ (c := fun _ => _) ?_ fun fuel => rfl
  refine (first_does valid items).bind ?_ nofun
  rintro st₁ leads _ ⟨⟩
  refine (next_does (valid.later leads) (items.later leads)).bind ?_ ?_
  · rintro st₂ _ _ ⟨s, offers, ⟨⟩⟩
    cases xs with
    | nil => exact does_pure fun _ _ => rfl
    | cons y ys =>
      refine (behind (List.cons_ne_nil y ys) st₂ s offers).bind ?_ nofun
      rintro _ _ _ ⟨⟩
      exact does_pure fun _ _ => rfl
  · rintro st₂ _ _ ⟨s, -, ⟨⟩⟩

theorem walkNext_does (valid : In st v) {x : Value} (items : Items st v (x :: xs)) :
    Gives st (fun fuel => walkNext fuel v) (.ok (x :: xs)) := by
  induction xs generalizing st v x with
  | nil => exact walkNext_step valid items fun filled => absurd rfl filled
  | cons y xs ih =>
    exact walkNext_step valid items fun _ st₁ s offers => ih offers.valid offers.items

theorem itemsByNext_does (valid : In st v) (items : Items st v xs) :
    Gives st (fun fuel => itemsByNext fuel v) (.ok xs) := by
  refine (seq?_does valid items).bind ?_ ?_
  · rintro st₁ leads _ ⟨s, -, ⟨⟩⟩
    cases xs with
    | nil => exact does_pure fun _ _ => rfl
    | cons x xs => exact walkNext_does (valid.later leads) (items.later leads)
  · rintro _ _ _ ⟨s, -, ⟨⟩⟩

theorem itemsByRest_does (valid : In st v) (items : Items st v xs) :
    Gives st (fun fuel => itemsByRest fuel v) (.ok xs) := by
  induction xs generalizing st v with
  | nil =>
    refine Delivers.succ (c := fun _ => _) ?_ fun fuel => rfl
    refine (seq?_does valid items).bind ?_ ?_
    · rintro st₁ leads _ ⟨s, -, ⟨⟩⟩
      exact does_pure fun _ _ => rfl
    · rintro _ _ _ ⟨s, -, ⟨⟩⟩
  | cons x xs ih =>
    refine Delivers.succ (c := fun _ => _) ?_ fun fuel => rfl
    refine (seq?_does valid items).bind ?_ ?_
    · rintro st₁ leads _ ⟨s, -, ⟨⟩⟩
      refine (first_does (valid.later leads) (items.later leads)).bind ?_ nofun
      rintro st₂ leads₂ _ ⟨⟩
      have both := leads.trans leads₂
      refine (rest_does (valid.later both) (items.later both)).bind ?_ ?_
      · rintro st₃ _ _ ⟨t, ⟨⟩, offers⟩
        refine (ih offers.valid offers.items).bind ?_ nofun
        rintro _ _ _ ⟨⟩
        exact does_pure fun _ _ => rfl
      · rintro _ _ _ ⟨_, ⟨⟩, _⟩
    · rintro _ _ _ ⟨s, -, ⟨⟩⟩

theorem itemsBySeq_does (valid : In st v) (items : Items st v xs) :
    Gives st (fun fuel => itemsBySeq fuel v) (.ok xs) := by
  refine (seq?_does valid items).bind ?_ ?_
  · rintro st₁ leads _ ⟨s, offers, ⟨⟩⟩
    cases xs with
    | nil => exact does_pure fun _ _ => rfl
    | cons x xs =>
      refine (does_lift (toList_delivers offers.reads)).imp ?_
      rintro _ _ _ ⟨_, rfl, rfl⟩
      rfl
  · rintro _ _ _ ⟨s, -, ⟨⟩⟩

end Walks

/-- Every way to the items of a value leads to the same list. -/
structure OneView (st : Store Value) (v : Value) (xs : List Value) : Prop where
  items : Items st v xs
  next : Gives st (fun fuel => itemsByNext fuel v) (.ok xs)
  rest : Gives st (fun fuel => itemsByRest fuel v) (.ok xs)
  seq : Gives st (fun fuel => itemsBySeq fuel v) (.ok xs)
  count : Gives st (fun fuel => v.count fuel) (.ok xs.length)
  /-- The entries are those that lookups find, one for each key. -/
  entries : ∀ m, v = .map m → ∃ entries : List (Value × Value),
    xs = entries.map (fun e => ofEntry ⟨e.1, e.2⟩) ∧ Bindings.Distinct entries ∧
      ∀ k : Value, k.Known → ∀ e, m.find? k = some e ↔ e ∈ entries ∧ (k == e.1) = true
  elements : ∀ s, v = .set s → (xs.Pairwise fun x y => (x == y) = false) ∧
    ∀ k : Value, k.Known → ∀ x, s.get? k = some x ↔ x ∈ xs ∧ (k == x) = true
  nth_inside : v.isOrdered = true → ∀ (i : Int64) (x : Value), 0 ≤ i.toInt →
    xs[i.toInt.toNat]? = some x →
      ∀ default, Gives st (fun fuel => v.nth fuel i default) (.ok x)
  nth_outside : v.isOrdered = true → ∀ i : Int64, ¬(0 ≤ i.toInt ∧ i.toInt < xs.length) →
    (∀ d, Gives st (fun fuel => v.nth fuel i (some d)) (.ok d)) ∧
      Gives st (fun fuel => v.nth fuel i none) (.error (.indexOutOfRange i xs.length))

section Items

variable {st : Store Value} {v : Value} {xs : List Value}

theorem oneView_of_items (valid : In st v) (items : Items st v xs) : OneView st v xs where
  items := items
  next := itemsByNext_does valid items
  rest := itemsByRest_does valid items
  seq := itemsBySeq_does valid items
  count := count_does valid items
  entries m same := by
    subst same
    have law := lawful_known.toKeyLaw
    obtain ⟨keyed, -⟩ := valid_entries valid
    cases items with
    | spine sequence => cases sequence
    | map => exact ⟨m.toList, rfl, keyed.distinct law, fun k known e => keyed.find?_iff law known e⟩
  elements s same := by
    subst same
    have law := lawful_known.toKeyLaw
    have keyed := valid_elements valid
    cases items with
    | spine sequence => cases sequence
    | set =>
      refine ⟨List.pairwise_map.2 (keyed.distinct law), fun k known x => ?_⟩
      rw [Set.get?, Option.map_eq_some_iff]
      constructor
      · rintro ⟨e, found, rfl⟩
        obtain ⟨he, same⟩ := (keyed.find?_iff law known e).1 found
        exact ⟨List.mem_map_of_mem he, same⟩
      · rintro ⟨hx, same⟩
        obtain ⟨e, he, rfl⟩ := List.mem_map.1 hx
        exact ⟨e, (keyed.find?_iff law known e).2 ⟨he, same⟩, rfl⟩
  nth_inside ordered i x inside here default := by
    have answer := nth_does valid items ordered i default
    rw [itemAt?_inside inside, here] at answer
    exact answer
  nth_outside ordered i outside := by
    have answer := nth_does valid items ordered i
    rw [itemAt?_outside outside] at answer
    exact ⟨fun d => answer (some d), answer none⟩

end Items

/-- In a sane store all ways to the items of a value agree, if there is a sequence over the value
and that sequence has an end. The store of every program is sane. -/
theorem run_oneView :
    (∀ st, Sane st → ∀ v, In st v → (∃ o st', v.seq?.run st = some (.ok o, st')) →
      (∀ s, v = .seq s → ∃ xs, Seq.Reads st s xs) → ∃ xs, OneView st v xs) ∧
      ∀ steps : List (Step × ℕ), Sane (run steps).store ∧
        ∀ v ∈ (run steps).values, In (run steps).store v := by
  refine ⟨fun st _ v valid seen ends => ?_, sane_run⟩
  obtain ⟨o, st', seen⟩ := seen
  obtain ⟨xs, items⟩ := exists_items seen ends
  exact ⟨xs, oneView_of_items valid items⟩

end Hashing

/-- A text in front of a lazy sequence of a list. -/
def chained : List (Step × ℕ) :=
  [(.int 1, 1), (.str "α∀", 1), (.list [0, 1], 1), (.lazy fun k => [2][k]?, 1), (.conj 3 1, 1)]

attribute [local instance] Hasher.sum in
theorem run_oneView_chained :
    (run chained).value 4 = .seq (.cons (.str "α∀") (.lazy 0)) ∧
      ∃ xs, OneView (run chained).store ((run chained).value 4) xs := by
  have valid := valid_run chained
  refine ⟨rfl, run_oneView.1 _ valid.sane _ (valid.value 4) ⟨_, _, rfl⟩ ?_⟩
  rintro s ⟨⟩
  have pending : (run chained).store.Pending 0 { source := 0 }
      { answer := fun k => ([2][k]?).map (run (chained.take 3)).value } := ⟨rfl, rfl, rfl⟩
  have behind : Seq.Reads (run chained).store (.lazy 0) [(run chained).value 2] :=
    .pending pending ⟨rfl, rfl⟩
  exact ⟨_, .cons behind⟩

end Persistent.Value
