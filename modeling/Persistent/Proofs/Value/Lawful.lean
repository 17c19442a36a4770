import Persistent.Proofs.Table.Matching
import Persistent.Proofs.Value.Valid

/-!
Equality of known values is an equivalence, and equal values feed a hash the same words. Maps find
the keys of one another by hash, so the laws at one size rest on all of them at smaller sizes.
-/

set_option autoImplicit false

namespace Persistent.Value

theorem isFlat_of_bare {a b : Value} (h : a.isFlat = true) (same : a.bare = b.bare) :
    b.isFlat = true := by
  cases a <;> cases h <;> cases b <;> first | rfl | cases same

theorem kinds (v : Value) : v.isFlat = true ∨ (∃ xs i, v.spine? = some (xs, i)) ∨
    (∃ m, v = .map m) ∨ ∃ s, v = .set s := by
  cases v with
  | list | vector | seq => exact .inr (.inl ⟨_, _, rfl⟩)
  | map m => exact .inr (.inr (.inl ⟨m, rfl⟩))
  | set s => exact .inr (.inr (.inr ⟨s, rfl⟩))
  | _ => exact .inl rfl

variable [Hasher]

/-- Equality obeys the laws in a domain of values. -/
structure Lawful (D : Value → Prop) : Prop extends KeyLaw D where
  words_eq {a b : Value} : D a → D b → (a == b) = true → a.words = b.words

/-- Known values of a size below `N`. -/
def Small (N : ℕ) (v : Value) : Prop :=
  v.Known ∧ sizeOf v < N

/-- Two values with the same flat content, or with parts that are equal in the domain. -/
inductive Alike (D : Value → Prop) : Value → Value → Prop
  | flat {a b : Value} (h : a.isFlat = true) (same : a.bare = b.bare) : Alike D a b
  | spine {a b : Value} {xs ys : List Value} (ha : a.spine? = some (xs, none))
      (hb : b.spine? = some (ys, none)) (items : List.Forall₂ (EqualIn D) xs ys) : Alike D a b
  | map {m n : Map Metadata Value Value}
      (entries : Matches (Table.EntryMatches D (EqualIn D)) m.toList n.toList) :
      Alike D (.map m) (.map n)
  | set {s t : Set Metadata Value}
      (elements : Matches (Table.EntryMatches D fun _ _ => True) s.toList t.toList) :
      Alike D (.set s) (.set t)

theorem forall₂_equalIn {D : Value → Prop} {xs ys : List Value} (hx : ∀ x ∈ xs, D x)
    (hy : ∀ y ∈ ys, D y) :
    List.Forall₂ (fun x y => (x == y) = true) xs ys ↔ List.Forall₂ (EqualIn D) xs ys := by
  rw [List.forall₂_iff_zip, List.forall₂_iff_zip]
  constructor
  · rintro ⟨length, all⟩
    exact ⟨length, fun member => ⟨hx _ (List.of_mem_zip member).1,
      hy _ (List.of_mem_zip member).2, all member⟩⟩
  · rintro ⟨length, all⟩
    exact ⟨length, fun member => (all member).2.2⟩

/-! Parts of small values. -/

theorem Small.items {N : ℕ} {v : Value} {xs : List Value} {i : Option ℕ} (h : Small (N + 1) v)
    (spine : v.spine? = some (xs, i)) : i = none ∧ ∀ x ∈ xs, Small N x := by
  obtain ⟨known, size⟩ := h
  have smaller : ∀ x ∈ xs, sizeOf x < N := by
    intro x hx
    have := sizeOf_spine spine hx
    omega
  cases known with
  | flat flat => cases v <;> cases flat <;> cases spine
  | list items =>
    cases spine
    exact ⟨rfl, fun x hx => ⟨items x hx, smaller x hx⟩⟩
  | vector held items =>
    cases spine
    exact ⟨rfl, fun x hx => ⟨items x hx, smaller x hx⟩⟩
  | @seq _ s items cell =>
    have closed := Known.pending?_eq (.seq items cell)
    have parts := Prod.mk.inj (Option.some.inj spine)
    exact ⟨parts.2.symm.trans closed, fun x hx => ⟨items x (parts.1 ▸ hx), smaller x hx⟩⟩
  | map | set => cases spine

theorem Small.entries {N : ℕ} {m : Map Metadata Value Value} (h : Small (N + 1) (.map m)) :
    m.Over (Small N) ∧ ∀ e ∈ m.toList, Small N e.2 := by
  obtain ⟨known, size⟩ := h
  have smaller : ∀ e ∈ m.toList, sizeOf e.1 + sizeOf e.2 < N := by
    intro e he
    have := Map.sizeOf_mem he
    rw [map.sizeOf_spec] at size
    omega
  cases known with
  | flat flat => cases flat
  | map wf keys values =>
    refine ⟨⟨wf, fun e he => ⟨keys e he, ?_⟩⟩, fun e he => ⟨values e he, ?_⟩⟩
    · have := smaller e he
      omega
    · have := smaller e he
      omega

theorem Small.elements {N : ℕ} {s : Set Metadata Value} (h : Small (N + 1) (.set s)) :
    s.Over (Small N) := by
  obtain ⟨known, size⟩ := h
  cases known with
  | flat flat => cases flat
  | set wf elements =>
    refine ⟨wf, fun e he => ⟨elements e he, ?_⟩⟩
    have inside : e.1 ∈ s.elements := List.mem_map_of_mem he
    have := Set.sizeOf_mem inside
    rw [set.sizeOf_spec] at size
    omega

section Tables

variable {D : Value → Prop} (law : KeyLaw D)
include law

theorem beq_map_iff_matches {m n : Map Metadata Value Value} (hm : m.Over D) (hn : n.Over D) :
    (Value.map m == .map n) = true ↔
      Matches (Table.EntryMatches D fun x y => (x == y) = true) m.toList n.toList := by
  rw [← Table.covers_iff_matches law hm hn, beq_map_iff]
  constructor
  · rintro ⟨_, ⟨⟩, same⟩
    exact same
  · intro same
    exact ⟨n, rfl, same⟩

theorem beq_set_iff_matches {s t : Set Metadata Value} (hs : s.Over D) (ht : t.Over D) :
    (Value.set s == .set t) = true ↔
      Matches (Table.EntryMatches D fun _ _ => True) s.toList t.toList := by
  rw [← Table.covers_iff_matches law hs ht, beq_set_iff]
  constructor
  · rintro ⟨_, ⟨⟩, size, cover⟩
    refine ⟨size, fun e he => ?_⟩
    obtain ⟨f, found⟩ := cover e he
    exact ⟨f, found, trivial⟩
  · rintro ⟨size, cover⟩
    refine ⟨t, rfl, size, fun e he => ?_⟩
    obtain ⟨f, found, -⟩ := cover e he
    exact ⟨f, found⟩

end Tables

theorem alike_of_beq {N : ℕ} (law : KeyLaw (Small N)) {a b : Value} (ha : Small (N + 1) a)
    (hb : Small (N + 1) b) (same : (a == b) = true) : Alike (Small N) a b := by
  rcases kinds a with flat | ⟨xs, i, spine⟩ | ⟨m, rfl⟩ | ⟨s, rfl⟩
  · exact .flat flat ((beq_flat flat b).1 same)
  · obtain ⟨rfl, hx⟩ := ha.items spine
    obtain ⟨ys, spine', items⟩ := (beq_spine_iff spine b).1 same
    exact .spine spine spine' ((forall₂_equalIn hx (hb.items spine').2).1 items)
  · obtain ⟨n, rfl, size, cover⟩ := (beq_map_iff m b).1 same
    obtain ⟨hm, values⟩ := ha.entries
    obtain ⟨hn, values'⟩ := hb.entries
    refine .map ((Table.covers_iff_matches law hm hn).1 ⟨size, ?_⟩)
    intro e he
    obtain ⟨f, found, equal⟩ := cover e he
    have hf := found
    rw [hn.find?_eq law (hm.keys e he)] at hf
    exact ⟨f, found, values e he, values' f (Bindings.of_lookup hf).1, equal⟩
  · obtain ⟨t, rfl, -⟩ := (beq_set_iff s b).1 same
    exact .set ((beq_set_iff_matches law ha.elements hb.elements).1 same)

theorem beq_of_alike {N : ℕ} (law : KeyLaw (Small N)) {a b : Value} (ha : Small (N + 1) a)
    (hb : Small (N + 1) b) (alike : Alike (Small N) a b) : (a == b) = true := by
  cases alike with
  | flat flat same => exact (beq_flat flat b).2 same
  | spine spine spine' items =>
    exact (beq_spine_iff spine b).2 ⟨_, spine',
      (forall₂_equalIn (ha.items spine).2 (hb.items spine').2).2 items⟩
  | @map m n entries =>
    obtain ⟨zs, each, perm⟩ := entries
    exact (beq_map_iff_matches law ha.entries.1 hb.entries.1).2
      ⟨zs, each.imp fun _ _ h => ⟨h.1, h.2.2.2⟩, perm⟩
  | set elements => exact (beq_set_iff_matches law ha.elements hb.elements).2 elements

section Step

variable {D : Value → Prop} (law : KeyLaw D)
include law

theorem equalIn_symm (a b : Value) (h : EqualIn D a b) : EqualIn D b a :=
  ⟨h.2.1, h.1, law.symm h.1 h.2.1 h.2.2⟩

theorem equalIn_trans (a b c : Value) (h : EqualIn D a b) (k : EqualIn D b c) : EqualIn D a c :=
  ⟨h.1, k.2.1, law.trans h.1 h.2.1 k.2.1 h.2.2 k.2.2⟩

theorem equalIn_refl {a : Value} (h : D a) : EqualIn D a a :=
  ⟨h, h, law.refl h⟩

theorem Alike.symm {a b : Value} (h : Alike D a b) : Alike D b a := by
  cases h with
  | flat flat same => exact .flat (isFlat_of_bare flat same) same.symm
  | spine ha hb items =>
    exact .spine hb ha (items.flip.imp fun x y h => equalIn_symm law y x h)
  | map entries =>
    exact .map (entries.symm fun e f h => ⟨equalIn_symm law _ _ h.1, equalIn_symm law _ _ h.2⟩)
  | set elements =>
    exact .set (elements.symm fun e f h => ⟨equalIn_symm law _ _ h.1, trivial⟩)

theorem Alike.trans {a b c : Value} (h : Alike D a b) (k : Alike D b c) : Alike D a c := by
  cases h with
  | flat flat same =>
    have flat' := isFlat_of_bare flat same
    cases k with
    | flat _ same' => exact .flat flat (same.trans same')
    | spine hb => cases b <;> cases flat' <;> cases hb
    | map | set => cases flat'
  | spine ha hb items =>
    cases k with
    | flat flat => cases b <;> cases flat <;> cases hb
    | spine hb' hc items' =>
      rw [hb] at hb'
      cases hb'
      exact .spine ha hc (forall₂_trans (equalIn_trans law) items items')
    | map | set => cases hb
  | map entries =>
    cases k with
    | flat flat => cases flat
    | spine hb => cases hb
    | map entries' =>
      exact .map (entries.trans (fun e f g h k => ⟨equalIn_trans law _ _ _ h.1 k.1,
        equalIn_trans law _ _ _ h.2 k.2⟩) entries')
  | set elements =>
    cases k with
    | flat flat => cases flat
    | spine hb => cases hb
    | set elements' =>
      exact .set (elements.trans (fun e f g h k =>
        ⟨equalIn_trans law _ _ _ h.1 k.1, trivial⟩) elements')

end Step

theorem Alike.words_eq {D : Value → Prop} (lawful : Lawful D) {a b : Value} (h : Alike D a b) :
    a.words = b.words := by
  have same (x y : Value) (h : EqualIn D x y) : x.words = y.words :=
    lawful.words_eq h.1 h.2.1 h.2.2
  cases h with
  | flat flat bare => rw [← words_bare a, bare, words_bare b]
  | @spine _ _ xs ys ha hb items =>
    have parts : xs.map words = ys.map words := by
      clear ha hb
      induction items with
      | nil => rfl
      | cons h _ ih => rw [List.map_cons, List.map_cons, same _ _ h, ih]
    rw [words_spine ha, words_spine hb, parts]
  | map entries =>
    rw [words_map, words_map, entries.unordered_eq fun e f h => by
      rw [same _ _ h.1, same _ _ h.2]]
  | set elements =>
    rw [words_set, words_set, elements.unordered_eq fun e f h => same _ _ h.1]

theorem alike_refl {N : ℕ} (law : KeyLaw (Small N)) {a : Value} (ha : Small (N + 1) a) :
    Alike (Small N) a a := by
  rcases kinds a with flat | ⟨xs, i, spine⟩ | ⟨m, rfl⟩ | ⟨s, rfl⟩
  · exact .flat flat rfl
  · obtain ⟨rfl, hx⟩ := ha.items spine
    exact .spine spine spine (List.forall₂_same.2 fun x h => equalIn_refl law (hx x h))
  · obtain ⟨keyed, values⟩ := ha.entries
    refine .map ⟨m.toList, List.forall₂_same.2 ?_, .refl _⟩
    intro e he
    exact ⟨equalIn_refl law (keyed.keys e he), equalIn_refl law (values e he)⟩
  · refine .set ⟨s.toList, List.forall₂_same.2 ?_, .refl _⟩
    intro e he
    exact ⟨equalIn_refl law (ha.elements.keys e he), trivial⟩

/-- The laws at every size, by induction on the size. -/
theorem lawful_small (N : ℕ) : Lawful (Small N) := by
  induction N with
  | zero =>
    have none {a : Value} (h : Small 0 a) : False := Nat.not_lt_zero _ h.2
    exact ⟨⟨fun h => (none h).elim, fun h => (none h).elim, fun h => (none h).elim,
      fun h => (none h).elim⟩, fun h => (none h).elim⟩
  | succ N ih =>
    have law := ih.toKeyLaw
    have words {a b : Value} (ha : Small (N + 1) a) (hb : Small (N + 1) b)
        (same : (a == b) = true) : a.words = b.words :=
      (alike_of_beq law ha hb same).words_eq ih
    refine ⟨⟨?_, ?_, ?_, ?_⟩, words⟩
    · intro a ha
      exact beq_of_alike law ha ha (alike_refl law ha)
    · intro a b ha hb same
      exact beq_of_alike law hb ha ((alike_of_beq law ha hb same).symm law)
    · intro a b c ha hb hc same same'
      exact beq_of_alike law ha hc
        ((alike_of_beq law ha hb same).trans law (alike_of_beq law hb hc same'))
    · intro a b ha hb same
      exact congrArg Hasher.digest (words ha hb same)

theorem lawful_known : Lawful Known := by
  have small {a : Value} (N : ℕ) (h : a.Known) (le : sizeOf a < N) : Small N a := ⟨h, le⟩
  have words {a b : Value} (ha : a.Known) (hb : b.Known) (same : (a == b) = true) :
      a.words = b.words :=
    (lawful_small (sizeOf a + sizeOf b + 1)).words_eq (small _ ha (by omega))
      (small _ hb (by omega)) same
  refine ⟨⟨?_, ?_, ?_, ?_⟩, words⟩
  · intro a ha
    exact (lawful_small (sizeOf a + 1)).refl (small _ ha (by omega))
  · intro a b ha hb
    exact (lawful_small (sizeOf a + sizeOf b + 1)).symm (small _ ha (by omega))
      (small _ hb (by omega))
  · intro a b c ha hb hc
    exact (lawful_small (sizeOf a + sizeOf b + sizeOf c + 1)).trans (small _ ha (by omega))
      (small _ hb (by omega)) (small _ hc (by omega))
  · intro a b ha hb same
    exact congrArg Hasher.digest (words ha hb same)

end Persistent.Value
