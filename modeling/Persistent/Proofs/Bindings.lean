import Mathlib.Data.List.Find
import Mathlib.Data.List.Perm.Basic
import Persistent.Proofs.KeyLaw

/-!
Association lists of pairwise unequal keys. Binding a key that is bound replaces the value and
keeps the key; the entries of a trie are such a list up to their order.
-/

set_option autoImplicit false

namespace Persistent.Bindings

variable {K V : Type} [BEq K]

def Distinct (entries : List (K × V)) : Prop :=
  entries.Pairwise fun a b => (a.1 == b.1) = false

def Absent (key : K) (entries : List (K × V)) : Prop :=
  ∀ e ∈ entries, (key == e.1) = false

/-- The entry whose key equals `key`. -/
def lookup (key : K) (entries : List (K × V)) : Option (K × V) :=
  entries.find? (key == ·.1)

/-- The key that binding `key` stores: the one that is bound already, if there is one. -/
def stored (key : K) (entries : List (K × V)) : K :=
  ((lookup key entries).map (·.1)).getD key

def remove (key : K) (entries : List (K × V)) : List (K × V) :=
  entries.filter fun e => !(key == e.1)

def put (key : K) (value : V) (entries : List (K × V)) : List (K × V) :=
  (stored key entries, value) :: remove key entries

theorem lookup_of_absent {key : K} {entries : List (K × V)} (absent : Absent key entries) :
    lookup key entries = none := by
  rw [lookup, List.find?_eq_none]
  intro e he
  simp [absent e he]

theorem remove_of_absent {key : K} {entries : List (K × V)} (absent : Absent key entries) :
    remove key entries = entries := by
  rw [remove, List.filter_eq_self]
  intro e he
  simp [absent e he]

theorem put_of_absent {key : K} {entries : List (K × V)} (absent : Absent key entries) (value : V) :
    put key value entries = (key, value) :: entries := by
  rw [put, stored, lookup_of_absent absent, remove_of_absent absent]
  rfl

theorem of_lookup {key : K} {entries : List (K × V)} {e : K × V}
    (h : lookup key entries = some e) : e ∈ entries ∧ (key == e.1) = true := by
  have same := List.find?_some h
  exact ⟨List.mem_of_find?_eq_some h, same⟩

theorem absent_of_lookup {key : K} {entries : List (K × V)} (h : lookup key entries = none) :
    Absent key entries := by
  rw [lookup, List.find?_eq_none] at h
  intro e he
  exact Bool.eq_false_iff.2 (h e he)

theorem distinct_remove {key : K} {entries : List (K × V)} (distinct : Distinct entries) :
    Distinct (remove key entries) :=
  List.Pairwise.filter _ distinct

theorem lookup_cons_hit {key : K} {e : K × V} (entries : List (K × V)) (hit : (key == e.1) = true) :
    lookup key (e :: entries) = some e := by
  rw [lookup, List.find?_cons, hit]

theorem lookup_cons_miss {key : K} {e : K × V} (entries : List (K × V))
    (miss : (key == e.1) = false) :
    lookup key (e :: entries) = lookup key entries := by
  rw [lookup, List.find?_cons, miss]
  rfl

theorem remove_cons_hit {key : K} {e : K × V} (entries : List (K × V)) (hit : (key == e.1) = true) :
    remove key (e :: entries) = remove key entries := by
  rw [remove, List.filter_cons, if_neg (by simp [hit])]
  rfl

theorem remove_cons_miss {key : K} {e : K × V} (entries : List (K × V))
    (miss : (key == e.1) = false) :
    remove key (e :: entries) = e :: remove key entries := by
  rw [remove, List.filter_cons, if_pos (by simp [miss])]
  rfl

theorem lookup_append (key : K) (front back : List (K × V)) :
    lookup key (front ++ back) = (lookup key front).or (lookup key back) :=
  List.find?_append

section Cut

variable {key : K} {front mid back : List (K × V)} (hf : Absent key front) (hb : Absent key back)
include hf hb

theorem lookup_cut : lookup key (front ++ mid ++ back) = lookup key mid := by
  rw [lookup_append, lookup_append, lookup_of_absent hf, lookup_of_absent hb]
  simp

theorem remove_cut : remove key (front ++ mid ++ back) = front ++ remove key mid ++ back := by
  have append (xs ys : List (K × V)) : remove key (xs ++ ys) = remove key xs ++ remove key ys :=
    List.filter_append ..
  rw [append, append, remove_of_absent hf, remove_of_absent hb]

/-- Binding changes a list only where the key stands. -/
theorem put_cut (value : V) :
    (put key value (front ++ mid ++ back)).Perm (front ++ put key value mid ++ back) := by
  unfold put stored
  rw [lookup_cut hf hb, remove_cut hf hb, List.append_assoc, List.append_assoc]
  exact List.perm_middle.symm

end Cut

section Law

variable [Hashable K] {D : K → Prop} (law : KeyLaw D)
include law

theorem absent_behind {key : K} {e : K × V} {entries : List (K × V)} (hkey : D key)
    (keys : ∀ x ∈ e :: entries, D x.1) (distinct : Distinct (e :: entries))
    (hit : (key == e.1) = true) : Absent key entries := by
  intro x hx
  rw [law.congr_left hkey (keys e List.mem_cons_self) (keys x (List.mem_cons_of_mem _ hx)) hit]
  exact (List.pairwise_cons.1 distinct).1 x hx

theorem lookup_congr {k key : K} {entries : List (K × V)} (hk : D k) (hkey : D key)
    (keys : ∀ e ∈ entries, D e.1) (same : (k == key) = true) :
    lookup k entries = lookup key entries := by
  apply List.find?_congr
  intro e he
  exact law.congr_left hk hkey (keys e he) same

theorem lookup_eq_some_iff {key : K} {entries : List (K × V)} (hk : D key)
    (keys : ∀ e ∈ entries, D e.1) (distinct : Distinct entries) (e : K × V) :
    lookup key entries = some e ↔ e ∈ entries ∧ (key == e.1) = true := by
  constructor
  · intro h
    exact of_lookup h
  · rintro ⟨he, same⟩
    induction entries with
    | nil => simp at he
    | cons first entries ih =>
      by_cases hit : (key == first.1) = true
      · rw [lookup_cons_hit entries hit]
        rcases List.mem_cons.1 he with rfl | he
        · rfl
        · have absent := absent_behind law hk keys distinct hit e he
          exact absurd (same.symm.trans absent) (by simp)
      · rw [Bool.not_eq_true] at hit
        rw [lookup_cons_miss entries hit]
        rcases List.mem_cons.1 he with rfl | he
        · exact absurd (same.symm.trans hit) (by simp)
        · exact ih (fun x hx => keys x (List.mem_cons_of_mem _ hx)) distinct.of_cons he

theorem distinct_perm {entries others : List (K × V)} (keys : ∀ e ∈ entries, D e.1)
    (distinct : Distinct entries) (perm : entries.Perm others) : Distinct others := by
  -- on the keys of the list the relation is symmetric, as a permutation asks
  have both : entries.Pairwise fun a b => (a.1 == b.1) = false ∧ (b.1 == a.1) = false := by
    apply distinct.imp_of_mem
    intro a b ha hb h
    exact ⟨h, law.comm (keys a ha) (keys b hb) ▸ h⟩
  exact (both.perm perm And.symm).imp And.left

theorem lookup_perm {key : K} {entries others : List (K × V)} (hk : D key)
    (keys : ∀ e ∈ entries, D e.1) (distinct : Distinct entries) (perm : entries.Perm others) :
    lookup key entries = lookup key others := by
  have keys' : ∀ e ∈ others, D e.1 := fun e he => keys e (perm.mem_iff.2 he)
  apply Option.ext
  intro e
  rw [lookup_eq_some_iff law hk keys distinct,
    lookup_eq_some_iff law hk keys' (distinct_perm law keys distinct perm), perm.mem_iff]

theorem nodup {entries : List (K × V)} (keys : ∀ e ∈ entries, D e.1)
    (distinct : Distinct entries) : entries.Nodup := by
  refine distinct.imp_of_mem ?_
  rintro a b ha hb apart rfl
  exact absurd ((law.refl (keys a ha)).symm.trans apart) nofun

/-- Lists with the same lookups are the same list up to the order of the entries. -/
theorem perm_of_lookup_eq {entries others : List (K × V)} (keys : ∀ e ∈ entries, D e.1)
    (keys' : ∀ e ∈ others, D e.1) (distinct : Distinct entries) (distinct' : Distinct others)
    (same : ∀ key, D key → lookup key entries = lookup key others) : entries.Perm others := by
  rw [List.perm_ext_iff_of_nodup (nodup law keys distinct) (nodup law keys' distinct')]
  intro e
  constructor
  · intro he
    have here := (lookup_eq_some_iff law (keys e he) keys distinct e).2
      ⟨he, law.refl (keys e he)⟩
    rw [same _ (keys e he)] at here
    exact (of_lookup here).1
  · intro he
    have here := (lookup_eq_some_iff law (keys' e he) keys' distinct' e).2
      ⟨he, law.refl (keys' e he)⟩
    rw [← same _ (keys' e he)] at here
    exact (of_lookup here).1

theorem stored_spec {key : K} {entries : List (K × V)} (hk : D key)
    (keys : ∀ e ∈ entries, D e.1) :
    D (stored key entries) ∧ (key == stored key entries) = true := by
  unfold stored
  cases found : lookup key entries with
  | none => exact ⟨hk, law.refl hk⟩
  | some e =>
    obtain ⟨member, same⟩ := of_lookup found
    exact ⟨keys e member, same⟩

theorem lookup_remove {k key : K} {entries : List (K × V)} (hk : D k) (hkey : D key)
    (keys : ∀ e ∈ entries, D e.1) :
    lookup k (remove key entries) = if (k == key) = true then none else lookup k entries := by
  unfold lookup remove
  rw [List.find?_filter]
  split
  case isTrue same =>
    rw [List.find?_eq_none]
    intro e he
    rw [law.congr_left hk hkey (keys e he) same]
    simp
  case isFalse other =>
    apply List.find?_congr
    intro e he
    by_cases hit : (k == e.1) = true
    · have miss : (key == e.1) = false := by
        rw [Bool.eq_false_iff]
        intro same
        exact other (law.trans hk (keys e he) hkey hit (law.symm hkey (keys e he) same))
      simp [miss]
    · simp [hit]

theorem lookup_put {k key : K} {value : V} {entries : List (K × V)} (hk : D k) (hkey : D key)
    (keys : ∀ e ∈ entries, D e.1) :
    lookup k (put key value entries) =
      if (k == key) = true then some (stored key entries, value) else lookup k entries := by
  obtain ⟨hs, same⟩ := stored_spec law hkey keys
  have first : lookup k (put key value entries) =
      if (k == stored key entries) = true then some (stored key entries, value)
      else lookup k (remove key entries) := by
    rw [lookup, put, List.find?_cons]
    split <;> simp_all [lookup]
  rw [first, ← law.congr_right hkey hs hk same, lookup_remove law hk hkey keys]
  split <;> rfl

theorem length_remove {key : K} {entries : List (K × V)} (hkey : D key)
    (keys : ∀ e ∈ entries, D e.1) (distinct : Distinct entries) :
    (remove key entries).length + (if (lookup key entries).isSome then 1 else 0) =
      entries.length := by
  induction entries with
  | nil => rfl
  | cons first entries ih =>
    by_cases hit : (key == first.1) = true
    · rw [remove_cons_hit entries hit, lookup_cons_hit entries hit,
        remove_of_absent (absent_behind law hkey keys distinct hit)]
      rfl
    · rw [Bool.not_eq_true] at hit
      have counted := ih (fun e he => keys e (List.mem_cons_of_mem _ he)) distinct.of_cons
      rw [remove_cons_miss entries hit, lookup_cons_miss entries hit, List.length_cons,
        List.length_cons]
      omega

theorem length_put {key : K} (value : V) {entries : List (K × V)} (hkey : D key)
    (keys : ∀ e ∈ entries, D e.1) (distinct : Distinct entries) :
    (put key value entries).length =
      entries.length + (if (lookup key entries).isNone then 1 else 0) := by
  have counted := length_remove law hkey keys distinct
  rw [put, List.length_cons]
  cases found : lookup key entries <;> simp [found] at counted ⊢ <;> omega

end Law

end Persistent.Bindings
