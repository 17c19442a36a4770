import Persistent.Proofs.Map.Walks
import Persistent.Proofs.Value.Delivering

/-!
The items of a value, and how they are reached. Every kind goes to its items in its own way: lists
share their tails, vectors are asked position by position, maps and sets are drained, and texts are
decoded. The sequence over a value has just these items, and so has whatever follows the first one.
-/

set_option autoImplicit false

namespace Persistent

theorem answers_of_getElem? {α : Type} {answer : ℕ → Option α} {xs : List α} (k : ℕ)
    (same : ∀ i, answer (k + i) = xs[i]?) : Answers answer k xs := by
  induction xs generalizing k with
  | nil => exact same 0
  | cons x xs ih =>
    refine ⟨same 0, ih (k + 1) fun i => ?_⟩
    rw [Nat.add_right_comm, Nat.add_assoc, same (i + 1)]
    rfl

namespace Value

/-- The kinds whose items have positions. -/
def isOrdered : Value → Bool
  | .nil | .str _ | .list _ | .vector _ | .seq _ => true
  | _ => false

/-- The items that a value shows as a sequence. -/
inductive Items (st : Store Value) : Value → List Value → Prop
  | nil : Items st .nil []
  | str {s : String} : Items st (.str s) (s.toList.map ofChar)
  | spine {v : Value} {s : Seq Value} {xs : List Value} (sequence : v.sequence? = some s)
      (reads : Seq.Reads st s xs) : Items st v xs
  | map {m : Map Metadata Value Value} :
      Items st (.map m) (m.toList.map fun e => ofEntry ⟨e.1, e.2⟩)
  | set {s : Set Metadata Value} : Items st (.set s) s.elements

theorem isEmpty_toList {K V : Type} [BEq K] [Hashable K] {t : Table K V} (wf : t.WellFormed)
    (empty : t.isEmpty = true) : t.toList = [] := by
  rw [← List.length_eq_zero_iff, ← wf.size_eq]
  exact eq_of_beq empty

variable [Hasher]

theorem Items.later {st st' : Store Value} {v : Value} {xs : List Value} (h : Items st v xs)
    (leads : Leads st st') : Items st' v xs := by
  cases h with
  | nil => exact .nil
  | str => exact .str
  | spine sequence reads => exact .spine sequence (leads.later.reads _ _ reads)
  | map => exact .map
  | set => exact .set

/-- A valid sequence that has these items. -/
structure Offers (st : Store Value) (s : Seq Value) (xs : List Value) : Prop where
  valid : In st (.seq s)
  reads : Seq.Reads st s xs

theorem Offers.later {st st' : Store Value} {s : Seq Value} {xs : List Value}
    (h : Offers st s xs) (leads : Leads st st') : Offers st' s xs :=
  ⟨h.valid.later leads, leads.later.reads s xs h.reads⟩

theorem offers_nil (st : Store Value) : Offers st .nil [] :=
  ⟨.seq (fun _ hx => nomatch hx) nofun, .nil⟩

theorem Offers.items {st : Store Value} {s : Seq Value} {xs : List Value} (h : Offers st s xs) :
    Items st (.seq s) xs :=
  .spine rfl h.reads

theorem Makes.delivers {A : Type} {st : Store Value} {c : Demand Value A}
    {P : Store Value → A → Prop} (h : Makes st c P) (total : ∀ st₁, ∃ r, c st₁ = some r) :
    Delivers st (fun _ => c) P := by
  intro st₁ leads
  obtain ⟨⟨r, st₂⟩, done⟩ := total st₁
  obtain ⟨leads₂, made⟩ := h st₁ leads r st₂ done
  exact ⟨r, st₂, ⟨0, fun _ _ => done⟩, leads₂, made⟩

section Seq

variable {st : Store Value} {s : Seq Value} {xs : List Value}

/-- What a look at the first cell shows of the items. -/
inductive Cut (st : Store Value) : Option (Value × Seq Value) → List Value → Prop
  | ended : Cut st none []
  | item {x : Value} {rest : Seq Value} {xs : List Value} (behind : Offers st rest xs) :
      Cut st (some (x, rest)) (x :: xs)

theorem look_delivers (h : Offers st s xs) :
    Delivers st (fun _ => s.look) fun st₁ r => Cut st₁ r xs := by
  refine ((makes_look h.valid).delivers fun st₁ => ⟨_, rfl⟩).imp fun st₁ _ r looked => ?_
  cases looked with
  | ended only =>
    rw [only xs h.reads]
    exact .ended
  | item _ behind only =>
    obtain ⟨ys, rfl, reads⟩ := only xs h.reads
    exact .item ⟨behind, reads⟩

theorem first?_delivers (h : Offers st s xs) :
    Delivers st (fun _ => s.first?) fun _ r => r = xs.head? := by
  refine (look_delivers h).returns fun _ _ r cut _ _ => ?_
  cases cut <;> rfl

theorem isEmpty_delivers (h : Offers st s xs) :
    Delivers st (fun _ => s.isEmpty) fun _ r => r = xs.isEmpty := by
  refine (look_delivers h).returns fun _ _ r cut _ _ => ?_
  cases cut <;> rfl

theorem rest_delivers (h : Offers st s xs) :
    Delivers st (fun _ => s.rest) fun st₁ r => Offers st₁ r xs.tail := by
  refine (look_delivers h).bind fun st₁ _ r cut => ?_
  cases cut with
  | ended => exact delivers_pure fun st₂ _ => offers_nil st₂
  | item behind => exact delivers_pure fun st₂ leads => behind.later leads

theorem get?_delivers (h : Offers st s xs) (n : ℕ) :
    Delivers st (fun _ => s.get? n) fun _ r => r = xs[n]? := by
  induction n generalizing st s xs with
  | zero =>
    rw [← List.head?_eq_getElem?]
    exact first?_delivers h
  | succ n ih =>
    refine (look_delivers h).bind fun st₁ _ r cut => ?_
    cases cut with
    | ended => exact delivers_pure fun _ _ => rfl
    | item behind => exact ih behind

theorem count_delivers (h : Offers st s xs) :
    Delivers st (fun fuel => s.count fuel) fun _ r => r = xs.length := by
  refine (toList_delivers h.reads).returns ?_
  rintro _ _ _ rfl _ _
  rfl

theorem lazily_delivers {answer : ℕ → Option Value} (answers : Answers answer 0 xs)
    (valid : ∀ k x, answer k = some x → In st x) :
    Delivers st (fun _ => Seq.lazily answer) fun st₁ s => Offers st₁ s xs := by
  have made := (makes_lazily valid).delivers fun st₁ => ⟨_, rfl⟩
  intro st₁ leads
  obtain ⟨s, st₂, ⟨N, run⟩, leads₂, within⟩ := made st₁ leads
  refine ⟨s, st₂, ⟨N, run⟩, leads₂, within, ?_⟩
  cases run N (Nat.le_refl N)
  have pending : (st₁.wrap answer).2.Pending st₁.cells.size { source := st₁.sources.size }
      { answer } :=
    ⟨Array.getElem?_push_size, rfl, Array.getElem?_push_size⟩
  exact .pending pending answers

/-- A sequence over the items of a collection, none of them looked at yet. -/
theorem lazily_items {answer : ℕ → Option Value} (same : ∀ i, answer i = xs[i]?)
    (valid : ∀ x ∈ xs, In st x) :
    Delivers st (fun _ => Seq.lazily answer) fun st₁ s => Offers st₁ s xs := by
  refine lazily_delivers (answers_of_getElem? 0 fun i => ?_) fun k x answered => ?_
  · rw [Nat.zero_add]
    exact same i
  · exact valid x (List.mem_of_getElem? ((same k).symm.trans answered))

theorem ofArray_delivers (valid : ∀ x ∈ xs, In st x) :
    Delivers st (fun _ => Seq.lazily (Source.ofArray xs.toArray)) fun st₁ s => Offers st₁ s xs :=
  lazily_items (fun _ => List.getElem?_toArray) valid

end Seq

section Kinds

variable {st : Store Value}

theorem in_ofEntry {k x : Value} (hk : In st k) (hx : In st x) : In st (ofEntry ⟨k, x⟩) :=
  valid_vector (Vector.holds_ofList [k, x])
    (List.forall_mem_cons.2 ⟨hk, List.forall_mem_cons.2 ⟨hx, fun _ none => nomatch none⟩⟩)

theorem in_ofChar (c : Char) : In st (ofChar c) :=
  .flat rfl

/-- An empty collection is given as the empty sequence, without a cell. -/
theorem unlessEmpty_delivers {xs : List Value} {empty : Bool} {c : ℕ → Demand Value (Seq Value)}
    (none : empty = true → xs = [])
    (h : Delivers st c fun st₁ s => Offers st₁ s xs) :
    Delivers st (fun fuel => if empty then return .nil else c fuel)
      fun st₁ s => Offers st₁ s xs := by
  cases empty with
  | true =>
    cases none rfl
    exact delivers_pure fun st₁ _ => offers_nil st₁
  | false => exact h

theorem mapSeq_delivers {m : Map Metadata Value Value} (valid : In st (.map m)) :
    Delivers st (fun _ => mapSeq m) fun st₁ s =>
      Offers st₁ s (m.toList.map fun e => ofEntry ⟨e.1, e.2⟩) := by
  obtain ⟨keyed, values⟩ := valid_entries valid
  refine unlessEmpty_delivers (fun empty => ?_) ?_
  · rw [isEmpty_toList keyed.toWellFormed empty]
    rfl
  · rw [keyed.drain_toList]
    refine ofArray_delivers (List.forall_mem_map.2 fun e he => ?_)
    exact in_ofEntry ((keyed.keys e he).mono (Nat.zero_le _)) (values e he)

theorem setSeq_delivers {s : Set Metadata Value} (valid : In st (.set s)) :
    Delivers st (fun _ => setSeq s) fun st₁ t => Offers st₁ t s.elements := by
  have keyed := valid_elements valid
  refine unlessEmpty_delivers (fun empty => ?_) ?_
  · rw [Set.elements, Table.keys, isEmpty_toList keyed.toWellFormed empty]
    rfl
  · rw [keyed.drain_toList]
    exact ofArray_delivers fun x hx => (Set.elements_in keyed x hx).mono (Nat.zero_le _)

theorem vectorSeq_delivers {v : Vector Metadata Value} (valid : In st (.vector v)) :
    Delivers st (fun _ => vectorSeq v) fun st₁ s => Offers st₁ s v.toList := by
  obtain ⟨held, items⟩ := holds_of_valid valid
  refine unlessEmpty_delivers (fun empty => ?_) (lazily_items held.get?_eq items)
  rw [← List.length_eq_zero_iff, ← held.size_eq]
  exact eq_of_beq empty

theorem stringSeq_delivers (s : String) :
    Delivers st (fun _ => stringSeq s) fun st₁ t => Offers st₁ t (s.toList.map ofChar) := by
  refine unlessEmpty_delivers (fun empty => ?_) ?_
  · rw [String.isEmpty_iff.1 empty]
    rfl
  · rw [Text.Cursor.toList_eq]
    exact ofArray_delivers (List.forall_mem_map.2 fun c _ => in_ofChar c)

/-- The items of a value, kind by kind. -/
inductive Shaped (st : Store Value) : Value → List Value → Prop
  | nil : Shaped st .nil []
  | str {s : String} : Shaped st (.str s) (s.toList.map ofChar)
  | list {l : ConsList Metadata Value} (offers : Offers st (Seq.ofList l.items) l.items) :
      Shaped st (.list l) l.items
  | vector {v : Vector Metadata Value} (held : v.Holds v.toList) : Shaped st (.vector v) v.toList
  | seq {s : Seq Value} {xs : List Value} (offers : Offers st s xs) : Shaped st (.seq s) xs
  | map {m : Map Metadata Value Value} (keyed : m.Over Known) :
      Shaped st (.map m) (m.toList.map fun e => ofEntry ⟨e.1, e.2⟩)
  | set {s : Set Metadata Value} (keyed : s.Over Known) : Shaped st (.set s) s.elements

variable {v : Value} {xs : List Value} (valid : In st v) (items : Items st v xs)
include valid items

theorem Items.shaped : Shaped st v xs := by
  cases items with
  | nil => exact .nil
  | str => exact .str
  | map => exact .map (valid_entries valid).1
  | set => exact .set (valid_elements valid)
  | @spine _ s _ sequence reads =>
    have offers : Offers st s xs := ⟨valid_sequence valid sequence, reads⟩
    cases v with
    | list l =>
      cases sequence
      cases Seq.reads_ofList_eq reads
      exact .list offers
    | vector v =>
      cases sequence
      cases Seq.reads_ofList_eq reads
      exact .vector (holds_of_valid valid).1
    | seq s =>
      cases sequence
      exact .seq offers
    | _ => cases sequence

theorem asSeq_does :
    Does st (fun _ => v.asSeq) fun st₁ r => ∃ s, r = .ok s ∧ Offers st₁ s xs := by
  cases items.shaped valid with
  | nil => exact does_pure fun st₁ _ => ⟨.nil, rfl, offers_nil st₁⟩
  | str => exact does_lift (stringSeq_delivers _)
  | list offers | seq offers => exact does_pure fun st₁ leads => ⟨_, rfl, offers.later leads⟩
  | vector => exact does_lift (vectorSeq_delivers valid)
  | map => exact does_lift (mapSeq_delivers valid)
  | set => exact does_lift (setSeq_delivers valid)

/-- The sequence over the items, none where there are none. -/
theorem seq?_does :
    Does st (fun _ => v.seq?) fun st₁ r =>
      ∃ s, Offers st₁ s xs ∧ r = .ok (if xs.isEmpty then none else some s) := by
  refine (asSeq_does valid items).bind ?_ ?_
  · rintro st₁ leads s ⟨_, ⟨⟩, offers⟩
    refine (isEmpty_delivers offers).answers ?_
    rintro st₂ leads₂ _ rfl st₃ leads₃
    exact ⟨s, (offers.later leads₂).later leads₃, rfl⟩
  · rintro st₁ leads fault ⟨_, ⟨⟩, _⟩

theorem seqOrEmpty_does :
    Does st (fun _ => v.seqOrEmpty) fun st₁ r => ∃ s, r = .ok s ∧ Offers st₁ s xs := by
  refine (seq?_does valid items).bind ?_ ?_
  · rintro st₁ leads _ ⟨s, offers, ⟨⟩⟩
    refine does_pure fun st₂ leads₂ => ?_
    cases xs with
    | nil => exact ⟨.nil, rfl, offers_nil st₂⟩
    | cons x xs => exact ⟨s, rfl, offers.later leads₂⟩
  · rintro st₁ leads fault ⟨_, _, ⟨⟩⟩

/-- What is made of the sequence over a value. -/
theorem seqOrEmpty_then {A : Type} {f : Seq Value → Action A}
    {P : Store Value → Except Fault A → Prop}
    (next : ∀ st₁, Leads st st₁ → ∀ s, Offers st₁ s xs → Does st₁ (fun _ => f s) P) :
    Does st (fun _ => v.seqOrEmpty >>= f) P := by
  refine (seqOrEmpty_does valid items).bind ?_ ?_
  · rintro st₁ leads s ⟨_, ⟨⟩, offers⟩
    exact next st₁ leads s offers
  · rintro st₁ leads fault ⟨_, ⟨⟩, _⟩

theorem first_does : Gives st (fun _ => v.first) (.ok (xs.head?.getD .nil)) := by
  refine seqOrEmpty_then valid items fun st₁ leads s offers => ?_
  refine (first?_delivers offers).answers ?_
  rintro _ _ _ rfl _ _
  rfl

theorem rest_does :
    Does st (fun _ => v.rest) fun st₁ r => ∃ s, r = .ok (.seq s) ∧ Offers st₁ s xs.tail := by
  refine seqOrEmpty_then valid items fun st₁ leads s offers => ?_
  exact (rest_delivers offers).answers fun _ _ t behind _ leads₂ => ⟨t, rfl, behind.later leads₂⟩

/-- What follows the first item, told apart from nil. -/
theorem next_does :
    Does st (fun _ => v.next) fun st₁ r =>
      ∃ s, Offers st₁ s xs.tail ∧ r = .ok (if xs.tail.isEmpty then .nil else .seq s) := by
  refine seqOrEmpty_then valid items fun st₁ leads s offers => ?_
  refine (rest_delivers offers).andThen fun st₂ _ t behind => ?_
  refine (isEmpty_delivers behind).answers ?_
  rintro st₃ leads₃ _ rfl st₄ leads₄
  exact ⟨t, (behind.later leads₃).later leads₄, rfl⟩

theorem count_does : Gives st (fun fuel => v.count fuel) (.ok xs.length) := by
  cases items.shaped valid with
  | nil | list => exact does_pure fun _ _ => rfl
  | str =>
    refine does_pure fun _ _ => ?_
    rw [List.length_map, String.length_toList]
  | vector held => exact does_pure fun _ _ => congrArg Except.ok held.size_eq
  | seq offers =>
    refine (does_lift (count_delivers offers)).imp ?_
    rintro _ _ _ ⟨_, rfl, rfl⟩
    rfl
  | map keyed =>
    refine does_pure fun _ _ => ?_
    rw [List.length_map, keyed.size_eq]
  | set keyed =>
    refine does_pure fun _ _ => ?_
    rw [Set.elements, Table.keys, List.length_map, keyed.size_eq]

omit valid items in
/-- The item at an index, none in front of the first one. -/
def itemAt? (xs : List Value) (index : Int64) : Option Value :=
  if index < 0 then none else xs[index.toNatClampNeg]?

theorem item?_does (ordered : v.isOrdered = true) (index : Int64) :
    Gives st (fun _ => v.item? index) (.ok (itemAt? xs index)) := by
  cases items.shaped valid with
  | nil =>
    refine does_pure fun _ _ => ?_
    rw [itemAt?]
    split <;> rfl
  | str =>
    refine does_pure fun _ _ => ?_
    rw [itemAt?, charAt?, List.getElem?_map]
  | list => exact does_pure fun _ _ => rfl
  | vector held =>
    refine does_pure fun _ _ => ?_
    rw [itemAt?, held.get?_eq]
  | seq offers =>
    unfold item? itemAt?
    dsimp only
    split
    case isTrue => exact does_pure fun _ _ => rfl
    case isFalse =>
      refine (does_lift (get?_delivers offers _)).imp ?_
      rintro _ _ _ ⟨_, rfl, rfl⟩
      rfl
  | map | set => cases ordered

theorem nth_does (ordered : v.isOrdered = true) (index : Int64) (default : Option Value) :
    Gives st (fun fuel => v.nth fuel index default)
      (match (itemAt? xs index).or default with
      | some x => .ok x
      | none => .error (.indexOutOfRange index xs.length)) := by
  refine (item?_does valid items ordered index).bind ?_ nofun
  rintro st₁ leads _ ⟨⟩
  cases itemAt? xs index with
  | some x => exact does_pure fun _ _ => rfl
  | none =>
    cases default with
    | some x => exact does_pure fun _ _ => rfl
    | none =>
      refine (count_does (valid.later leads) (items.later leads)).bind ?_ nofun
      rintro _ _ _ ⟨⟩
      exact does_throw fun _ _ => rfl

end Kinds

end Value

end Persistent
