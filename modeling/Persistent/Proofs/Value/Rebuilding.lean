import Persistent.Proofs.Value.Peers
import Persistent.Proofs.Value.Sequences
import Persistent.Proofs.Value.Unchanged

/-!
A collection is rebuilt from its sequence, by adding the items one by one to the empty collection
of its kind. The keys of a table are pairwise unequal. Each one is new where it is added, so the
new table has the entries of the old one, if in another order.
-/

set_option autoImplicit false

namespace Persistent

open Bindings

namespace Table

variable {K V : Type} [BEq K] [Hashable K] {D : K → Prop} (law : KeyLaw D) {t : Table K V}
include law

namespace Over

variable (keyed : t.Over D)
include keyed

/-- A key that is not bound is stored, beside what is bound already. -/
theorem insert_fresh {key : K} (hkey : D key) (absent : Absent key t.toList) (value : V) :
    (t.insert key value).toList.Perm ((key, value) :: t.toList) := by
  have entries := (keyed.insert_entries law value hkey).2
  rw [put_of_absent absent] at entries
  exact entries

variable {e : K × V} {entries : List (K × V)}

/-- Keys that are new, and not equal to each other, stay new when one of them is bound. -/
theorem fresh_insert (keys : ∀ x ∈ e :: entries, D x.1) (distinct : Distinct (e :: entries))
    (fresh : ∀ x ∈ e :: entries, Absent x.1 t.toList) :
    ∀ x ∈ entries, Absent x.1 (t.insert e.1 e.2).toList := by
  obtain ⟨hkey, keys⟩ := List.forall_mem_cons.1 keys
  obtain ⟨absent, fresh⟩ := List.forall_mem_cons.1 fresh
  intro x hx f hf
  rcases List.mem_cons.1 ((keyed.insert_fresh law hkey absent e.2).mem_iff.1 hf) with rfl | hf
  · rw [law.comm (keys x hx) hkey]
    exact (List.pairwise_cons.1 distinct).1 x hx
  · exact fresh x hx f hf

theorem insertAll_fresh (keys : ∀ x ∈ entries, D x.1) (distinct : Distinct entries)
    (fresh : ∀ x ∈ entries, Absent x.1 t.toList) :
    (t.insertAll entries).toList.Perm (entries ++ t.toList) := by
  induction entries generalizing t with
  | nil => exact .refl _
  | cons e entries ih =>
    obtain ⟨hkey, keys'⟩ := List.forall_mem_cons.1 keys
    have first := keyed.insert_fresh law hkey (fresh e List.mem_cons_self) e.2
    have rest := ih (keyed.insert law e.2 hkey) keys' distinct.of_cons
      (keyed.fresh_insert law keys distinct fresh)
    exact rest.trans ((first.append_left entries).trans List.perm_middle)

/-- A table filled anew with what it holds. -/
theorem ofList_toList : (ofList t.toList).Over D ∧ (ofList t.toList).toList.Perm t.toList := by
  have empty := over_empty (V := V) D
  refine ⟨empty.insertAll law keyed.keys, ?_⟩
  have filled := empty.insertAll_fresh law keyed.keys (keyed.distinct law)
    fun _ _ _ impossible => nomatch impossible
  rw [show ({} : Table K V).toList = [] from rfl, List.append_nil] at filled
  exact filled

end Over

theorem aligned_of_perm {S : V → V → Prop} {u : Table K V} (ht : t.Over D) (hu : u.Over D)
    (perm : u.toList.Perm t.toList) (related : ∀ e ∈ t.toList, S e.2 e.2) : t.Aligned D S u := by
  refine (aligned_iff_matches law ht hu).2 ⟨t.toList, List.forall₂_same.2 fun e he => ?_, perm.symm⟩
  exact ⟨⟨ht.keys e he, ht.keys e he, law.refl (ht.keys e he)⟩, related e he⟩

end Table

theorem ConsList.items_pushAll {μ α : Type} (l : ConsList μ α) (xs : List α) :
    l.pushAll xs = { l with items := xs.reverse ++ l.items } := by
  induction xs generalizing l with
  | nil => rfl
  | cons x xs ih =>
    refine (ih (l.push x)).trans ?_
    rw [List.reverse_cons, List.append_assoc]
    rfl

namespace Value

section Hashing

variable [Hasher]

/-- Adds the items one by one, in their order. -/
def conjEach (fuel : ℕ) (coll : Value) (items : List Value) : Action Value :=
  items.foldlM (fun coll x => coll.conj fuel x) coll

/-- The items of the sequence over a collection, added to the empty collection of its kind. -/
def rebuilt (fuel : ℕ) (coll : Value) : Action Value := do
  let items ← itemsBySeq fuel coll
  conjEach fuel (coll.emptied?.getD .nil) items

section Each

variable {st : Store Value}

theorem rebuilt_gives {coll : Value} {xs : List Value} (valid : In st coll)
    (items : Items st coll xs) {r : Except Fault Value}
    (added : Gives st (fun fuel => conjEach fuel (coll.emptied?.getD .nil) xs) r) :
    Gives st (fun fuel => rebuilt fuel coll) r := by
  refine (itemsBySeq_does valid items).bind ?_ nofun
  rintro st₁ leads _ ⟨⟩
  exact added.later leads

/-- One addition, and then the others. -/
theorem conjEach_cons {coll added x : Value} {xs : List Value} {r : Except Fault Value}
    (first : Gives st (fun fuel => coll.conj fuel x) (.ok added))
    (rest : ∀ st₁, Leads st st₁ → Gives st₁ (fun fuel => conjEach fuel added xs) r) :
    Gives st (fun fuel => conjEach fuel coll (x :: xs)) r := by
  refine first.bind ?_ nofun
  rintro st₁ leads _ ⟨⟩
  exact rest st₁ leads

/-- Additions that look at nothing come to a fold. -/
theorem conjEach_gives {A : Type} (wrap : A → Value) (add : A → Value → A)
    (adds : ∀ fuel a x, (wrap a).conj fuel x = pure (wrap (add a x))) (a : A) (xs : List Value) :
    Gives st (fun fuel => conjEach fuel (wrap a) xs) (.ok (wrap (xs.foldl add a))) := by
  induction xs generalizing st a with
  | nil => exact does_pure fun _ _ => rfl
  | cons x xs ih =>
    have first : Gives st (fun fuel => (wrap a).conj fuel x) (.ok (wrap (add a x))) := by
      simp only [adds]
      exact does_pure fun _ _ => rfl
    exact conjEach_cons first fun _ _ => ih (add a x)

end Each

section Tables

variable {V : Type}

/-- Adding an item binds the key of an entry, if the key is a new one. -/
def Adds (st : Store Value) (wrap : Table Value V → Value) (item : Value × V → Value) : Prop :=
  ∀ t e, t.Over Known → e.1.Known → Absent e.1 t.toList →
    Gives st (fun fuel => (wrap t).conj fuel (item e)) (.ok (wrap (t.insert e.1 e.2)))

variable {st : Store Value} {wrap : Table Value V → Value} {item : Value × V → Value}

theorem Adds.later (adds : Adds st wrap item) {st' : Store Value} (leads : Leads st st') :
    Adds st' wrap item :=
  fun t e keyed known absent => (adds t e keyed known absent).later leads

theorem Adds.all (adds : Adds st wrap item) {entries : List (Value × V)}
    (known : ∀ e ∈ entries, e.1.Known) (distinct : Distinct entries) {t : Table Value V}
    (keyed : t.Over Known) (fresh : ∀ e ∈ entries, Absent e.1 t.toList) :
    Gives st (fun fuel => conjEach fuel (wrap t) (entries.map item))
      (.ok (wrap (t.insertAll entries))) := by
  have law := lawful_known.toKeyLaw
  induction entries generalizing st t with
  | nil => exact does_pure fun _ _ => rfl
  | cons e entries ih =>
    obtain ⟨hkey, known'⟩ := List.forall_mem_cons.1 known
    refine conjEach_cons (adds t e keyed hkey (fresh e List.mem_cons_self)) fun st₁ leads => ?_
    exact ih (adds.later leads) known' distinct.of_cons (keyed.insert law e.2 hkey)
      (keyed.fresh_insert law known distinct fresh)

/-- All entries of a table, added to an empty one. -/
theorem Adds.refills (adds : Adds st wrap item) {t : Table Value V} (keyed : t.Over Known) :
    Gives st (fun fuel => conjEach fuel (wrap {}) (t.toList.map item))
      (.ok (wrap (Table.ofList t.toList))) :=
  adds.all keyed.keys (keyed.distinct lawful_known.toKeyLaw) (Table.over_empty Known)
    fun _ _ _ impossible => nomatch impossible

end Tables

/-- A collection, and what is rebuilt from its items. A map or a set gets the same keys, as they
were stored. -/
structure Rebuilds (st : Store Value) (c : Value) : Prop where
  map : ∀ m, c = .map m →
    Gives st (fun fuel => itemsBySeq fuel c) (.ok (m.toList.map fun e => ofEntry ⟨e.1, e.2⟩)) ∧
      ∃ n : Map Metadata Value Value, Gives st (fun fuel => rebuilt fuel c) (.ok (.map n)) ∧
        Twins st c (.map n) ∧ n.keys.Perm m.keys ∧ n.size = m.size
  set : ∀ s, c = .set s →
    Gives st (fun fuel => itemsBySeq fuel c) (.ok s.elements) ∧
      ∃ t : Set Metadata Value, Gives st (fun fuel => rebuilt fuel c) (.ok (.set t)) ∧
        Twins st c (.set t) ∧ t.elements.Perm s.elements ∧ t.size = s.size
  vector : ∀ v, c = .vector v →
    Gives st (fun fuel => itemsBySeq fuel c) (.ok v.toList) ∧
      ∃ w : Vector Metadata Value, Gives st (fun fuel => rebuilt fuel c) (.ok (.vector w)) ∧
        Twins st c (.vector w)
  list : ∀ l, c = .list l →
    Gives st (fun fuel => itemsBySeq fuel c) (.ok l.items) ∧
      Gives st (fun fuel => rebuilt fuel c) (.ok (.list (ConsList.ofList l.items.reverse))) ∧
        Gives st (fun fuel => do rebuilt fuel (← rebuilt fuel c))
          (.ok (.list (ConsList.ofList l.items))) ∧
            Twins st c (.list (ConsList.ofList l.items))

section Kinds

variable {st : Store Value} (sane : Sane st)
include sane

theorem adds_entries :
    Adds st (fun t => .map { toTable := t }) fun e : Value × Value => ofEntry ⟨e.1, e.2⟩ := by
  intro t e _ known _
  refine (conj_entry_does (realize_known sane known) { toTable := t }
    (Vector.holds_ofList [e.1, e.2]).toList_eq).imp ?_
  rintro _ _ _ ⟨_, rfl, rfl⟩
  rfl

theorem adds_elements : Adds st (fun t => .set { toTable := t }) fun e : Value × Unit => e.1 := by
  intro t e keyed known absent
  refine (conj_set_does (realize_known sane known) { toTable := t }).imp ?_
  rintro _ _ _ ⟨_, rfl, rfl⟩
  have missed : t.contains e.1 = false := by
    rw [Table.contains, keyed.find?_eq lawful_known.toKeyLaw known, lookup_of_absent absent]
    rfl
  rw [Set.insert, if_neg (ne_true_of_eq_false missed)]

theorem rebuilt_map {m : Map Metadata Value Value} (whole : Whole st (.map m)) :
    ∃ n : Map Metadata Value Value, Gives st (fun fuel => rebuilt fuel (.map m)) (.ok (.map n)) ∧
      Twins st (.map m) (.map n) ∧ n.keys.Perm m.keys ∧ n.size = m.size := by
  have law := lawful_known.toKeyLaw
  obtain ⟨keyed, -⟩ := valid_entries whole.valid
  obtain ⟨keyed', perm⟩ := keyed.ofList_toList law
  have values : ∀ e ∈ (Table.ofList m.toList).toList, Whole st e.2 :=
    fun e he => whole.values e (perm.mem_iff.1 he)
  have whole' : Whole st (.map { toTable := Table.ofList m.toList }) :=
    whole_map (valid_map keyed' fun e he => (values e he).valid) values
  refine ⟨{ toTable := Table.ofList m.toList }, ?_, ?_, perm.map _, ?_⟩
  · exact rebuilt_gives whole.valid .map ((adds_entries sane).refills keyed)
  · exact (twins_map_iff sane whole whole').2 (Table.aligned_of_perm law keyed keyed' perm
      fun e he => .refl sane (whole.values e he))
  · rw [keyed'.size_eq, keyed.size_eq, perm.length_eq]

theorem rebuilt_set {s : Set Metadata Value} (valid : In st (.set s)) :
    ∃ t : Set Metadata Value, Gives st (fun fuel => rebuilt fuel (.set s)) (.ok (.set t)) ∧
      Twins st (.set s) (.set t) ∧ t.elements.Perm s.elements ∧ t.size = s.size := by
  have law := lawful_known.toKeyLaw
  have keyed := valid_elements valid
  obtain ⟨keyed', perm⟩ := keyed.ofList_toList law
  refine ⟨{ toTable := Table.ofList s.toList }, ?_, ?_, perm.map _, ?_⟩
  · exact rebuilt_gives valid .set ((adds_elements sane).refills keyed)
  · exact (twins_set_iff sane valid (valid_set keyed')).2
      (Table.aligned_of_perm law keyed keyed' perm fun _ _ => trivial)
  · rw [keyed'.size_eq, keyed.size_eq, perm.length_eq]

theorem rebuilt_vector {v : Vector Metadata Value} (whole : Whole st (.vector v)) :
    ∃ w : Vector Metadata Value, Gives st (fun fuel => rebuilt fuel (.vector v)) (.ok (.vector w)) ∧
      Twins st (.vector v) (.vector w) := by
  obtain ⟨held, -⟩ := holds_of_valid whole.valid
  refine ⟨Vector.ofList v.toList, ?_, twins_vector sane held (Vector.holds_ofList _) ?_⟩
  · exact rebuilt_gives whole.valid (.spine rfl (Seq.reads_ofList st v.toList))
      (conjEach_gives Value.vector Vector.push (fun _ _ _ => rfl) {} v.toList)
  · exact List.forall₂_same.2 fun x hx => .refl sane (whole.items sane rfl x hx)

omit sane in
theorem rebuilt_list {l : ConsList Metadata Value} (valid : In st (.list l)) :
    Gives st (fun fuel => rebuilt fuel (.list l))
      (.ok (.list (ConsList.ofList l.items.reverse))) := by
  have added : Gives st (fun fuel => conjEach fuel (.list {}) l.items)
      (.ok (.list (ConsList.pushAll {} l.items))) :=
    conjEach_gives Value.list ConsList.push (fun _ _ _ => rfl) {} l.items
  rw [ConsList.items_pushAll, List.append_nil] at added
  exact rebuilt_gives valid (.spine rfl (Seq.reads_ofList st l.items)) added

omit sane in
theorem rebuilt_list_twice {l : ConsList Metadata Value} (valid : In st (.list l)) :
    Gives st (fun fuel => do rebuilt fuel (← rebuilt fuel (.list l)))
      (.ok (.list (ConsList.ofList l.items))) := by
  refine (rebuilt_list valid).bind ?_ nofun
  rintro st₁ leads _ ⟨⟩
  have reversed : In st₁ (.list (ConsList.ofList l.items.reverse)) :=
    .list fun x hx => (items_of_list (valid.later leads)) x (List.mem_reverse.1 hx)
  have again := rebuilt_list reversed
  rw [ConsList.ofList, List.reverse_reverse] at again
  exact again

theorem rebuilds_of_whole {c : Value} (whole : Whole st c) : Rebuilds st c where
  map m same := by
    subst same
    exact ⟨itemsBySeq_does whole.valid .map, rebuilt_map sane whole⟩
  set s same := by
    subst same
    exact ⟨itemsBySeq_does whole.valid .set, rebuilt_set sane whole.valid⟩
  vector v same := by
    subst same
    exact ⟨itemsBySeq_does whole.valid (.spine rfl (Seq.reads_ofList st _)),
      rebuilt_vector sane whole⟩
  list l same := by
    subst same
    refine ⟨itemsBySeq_does whole.valid (.spine rfl (Seq.reads_ofList st _)),
      rebuilt_list whole.valid, rebuilt_list_twice whole.valid, twins_list sane ?_⟩
    exact List.forall₂_same.2 fun x hx => .refl sane (whole.items sane rfl x hx)

end Kinds

/-- Every finite collection in a sane store is rebuilt from its sequence, and the store of every
program is sane. -/
theorem run_rebuilds :
    (∀ st, Sane st → ∀ c, Whole st c → Rebuilds st c) ∧
      ∀ steps : List (Step × ℕ), Sane (run steps).store ∧
        ∀ v ∈ (run steps).values, In (run steps).store v :=
  ⟨fun _ sane _ => rebuilds_of_whole sane, sane_run⟩

end Hashing

/-- A list, a map keyed by it, and a set of it and of one of its items. -/
def regrown : List (Step × ℕ) :=
  [(.int 1, 9), (.str "two", 9), (.list [0, 1], 9), (.hashMap [(2, 0)], 9), (.hashSet [2, 0], 9)]

attribute [local instance] Hasher.sum in
theorem run_rebuilds_regrown :
    Rebuilds (run regrown).store ((run regrown).value 3) ∧
      Rebuilds (run regrown).store ((run regrown).value 4) ∧
        ∃ m s, (run regrown).value 3 = .map m ∧ m.size = 1 ∧
          (run regrown).value 4 = .set s ∧ s.size = 2 := by
  have valid := valid_run regrown
  have map : (run regrown).value 3 =
      .map (Map.insert {} (.list (ConsList.ofList [.int 1, .str "two"])) (.int 1)) := rfl
  have key : (Value.list (ConsList.ofList [.int 1, .str "two"])).Known :=
    .list fun x hx => by
      rcases List.mem_pair.1 hx with rfl | rfl <;> exact .flat rfl
  have wholeMap := whole_insert whole_empty key (whole_flat (run regrown).store (v := .int 1) rfl)
  have wholeSet := whole_of_set (valid.value 4) (by decide +kernel)
  have rebuilds := run_rebuilds.1 _ valid.sane
  exact ⟨rebuilds _ (map ▸ wholeMap), rebuilds _ wholeSet, _, _, rfl, by decide +kernel, rfl,
    by decide +kernel⟩

end Value

end Persistent
