import Persistent.Proofs.Enumeration
import Persistent.Proofs.Map.Refinement
import Persistent.Table.Cursor

/-!
The two walks over a map. A cursor and a drain keep what is still to come in different forms, but
both take the entries of the trie in the order of its slots, and the size kept beside the trie is
the number of entries they yield.
-/

set_option autoImplicit false

namespace Persistent

namespace Table

variable {K V : Type}

namespace Cursor

/-- The entries in front of a cursor. -/
def view (c : Cursor K V) : List (K × V) :=
  c.bucket ++ c.stack.flatMap Trie.slotsToList

theorem takes_advance (stack : List (List (Trie K V))) (bucket : List (K × V)) (remaining : ℕ) :
    Takes Cursor.remaining view ⟨stack, bucket, remaining⟩ (advance stack bucket remaining) := by
  fun_induction advance stack bucket remaining with
  | case1 | case2 | case4 => simp [Takes, view, Trie.slotsToList, Trie.toList]
  | case3 stack ih => exact ih.congr rfl rfl
  | case5 bits inner slots stack ih =>
    refine ih.congr ?_ rfl
    simp [view, Trie.slotsToList, Trie.toList]
  | case6 hash entries slots stack ih =>
    refine ih.congr ?_ rfl
    simp [view, Trie.slotsToList, Trie.toList]

theorem collect_end (c : Cursor K V) (ended : c.next? = none) :
    c.toList = [] ∧ c.counts = [c.remaining] := by
  rw [toList, counts]
  split <;> simp_all

theorem collect_item (c : Cursor K V) (e : K × V) (d : Cursor K V)
    (yielded : c.next? = some (e, d)) :
    c.toList = e :: d.toList ∧ c.counts = c.remaining :: d.counts := by
  rw [toList, counts]
  split <;> simp_all

theorem walk {c : Cursor K V} (count : c.remaining = c.view.length) :
    Enumerates next? Cursor.remaining c c.view :=
  enumerates_of_takes (fun c => takes_advance c.stack c.bucket c.remaining) count

end Cursor

namespace Drain

/-- What a drain still takes from an open node. -/
def rest : Trie K V → ℕ → List (K × V)
  | .branch _ slots, position => Trie.slotsToList (slots.drop position)
  | t, position => t.toList.drop position

/-- The entries in front of a drain. -/
def view (d : Drain K V) : List (K × V) :=
  d.stack.flatMap fun open_ => rest open_.1 open_.2

theorem rest_zero (t : Trie K V) : rest t 0 = t.toList := by
  cases t <;> rfl

theorem rest_slot {bits : BitVec 32} {slots : List (Trie K V)} {position : ℕ} {child : Trie K V}
    (here : slots[position]? = some child) :
    rest (.branch bits slots) position =
      child.toList ++ rest (.branch bits slots) (position + 1) := by
  obtain ⟨inside, rfl⟩ := List.getElem?_eq_some_iff.1 here
  rw [rest, List.drop_eq_getElem_cons inside]
  rfl

theorem rest_past {bits : BitVec 32} {slots : List (Trie K V)} {position : ℕ}
    (past : slots[position]? = none) : rest (.branch bits slots) position = [] := by
  rw [rest, List.drop_eq_nil_of_le (List.getElem?_eq_none_iff.1 past)]
  rfl

theorem takes_advance (stack : List (Trie K V × ℕ)) (remaining : ℕ) :
    Takes Drain.remaining view ⟨stack, remaining⟩ (advance stack remaining) := by
  fun_induction advance stack remaining with
  | case1 => rfl
  | case2 hash key value stack => simp [Takes, view, rest, Trie.toList]
  | case3 hash key value position stack positive ih =>
    refine ih.congr ?_ rfl
    simp [view, rest, Trie.toList, Nat.one_le_iff_ne_zero.2 positive]
  | case4 bits slots position stack past ih =>
    refine ih.congr ?_ rfl
    simp [view, rest_past past]
  | case5 bits slots position stack hash key value here =>
    simp [Takes, view, rest_slot here, Trie.toList]
  | case6 bits slots position stack child inner here ih =>
    refine ih.congr ?_ rfl
    simp [view, rest_slot here, rest_zero]
  | case7 hash entries position stack past ih =>
    refine ih.congr ?_ rfl
    simp [view, rest, Trie.toList, List.getElem?_eq_none_iff.1 past]
  | case8 hash entries position stack e here =>
    obtain ⟨inside, rfl⟩ := List.getElem?_eq_some_iff.1 here
    refine ⟨?_, rfl⟩
    change entries.drop position ++ _ = entries[position] :: (entries.drop (position + 1) ++ _)
    rw [List.drop_eq_getElem_cons inside, List.cons_append]

theorem collect_end (d : Drain K V) (ended : d.next? = none) :
    d.toList = [] ∧ d.counts = [d.remaining] := by
  rw [toList, counts]
  split <;> simp_all

theorem collect_item (d : Drain K V) (e : K × V) (d' : Drain K V)
    (yielded : d.next? = some (e, d')) :
    d.toList = e :: d'.toList ∧ d.counts = d.remaining :: d'.counts := by
  rw [toList, counts]
  split <;> simp_all

theorem walk {d : Drain K V} (count : d.remaining = d.view.length) :
    Enumerates next? Drain.remaining d d.view :=
  enumerates_of_takes (fun d => takes_advance d.stack d.remaining) count

end Drain

theorem WellFormed.view_eq [BEq K] [Hashable K] {t : Table K V} (wf : t.WellFormed) :
    t.cursor.view = t.toList ∧ t.drain.view = t.toList := by
  unfold cursor drain Cursor.ofTable Drain.ofTable
  cases h : t.root with
  | none => simp [Cursor.view, Drain.view, toList, h]
  | some root =>
    obtain ⟨bits, slots, rfl⟩ := wf.root_branch root h
    rw [toList_some h]
    simp [Cursor.view, Drain.view, Drain.rest_zero, Trie.toList]

theorem cursor_remaining (t : Table K V) : t.cursor.remaining = t.size := by
  unfold cursor Cursor.ofTable
  split <;> rfl

theorem WellFormed.cursor_toList [BEq K] [Hashable K] {t : Table K V} (wf : t.WellFormed) :
    t.cursor.toList = t.toList := by
  obtain ⟨ahead, -⟩ := wf.view_eq
  have walk := Cursor.walk (c := t.cursor) (by rw [cursor_remaining, ahead, wf.size_eq])
  rw [(walk.collected Cursor.collect_end Cursor.collect_item).1, ahead]

theorem WellFormed.drain_toList [BEq K] [Hashable K] {t : Table K V} (wf : t.WellFormed) :
    t.drain.toList = t.toList := by
  obtain ⟨-, behind⟩ := wf.view_eq
  have walk := Drain.walk (d := t.drain) (by rw [behind]; exact wf.size_eq)
  rw [(walk.collected Drain.collect_end Drain.collect_item).1, behind]

/-- Both walks yield the entries that lookups find, one for each key, and count them exactly. -/
structure Enumerated [BEq K] [Hashable K] (t : Table K V) : Prop where
  cursor_walk : Enumerates Cursor.next? Cursor.remaining t.cursor t.cursor.toList
  drain_walk : Enumerates Drain.next? Drain.remaining t.drain t.drain.toList
  same : t.cursor.toList = t.drain.toList
  cursor_counts : t.cursor.counts = countdown t.size
  drain_counts : t.drain.counts = countdown t.size
  apart : t.cursor.toList.Pairwise fun a b => (a.1 == b.1) = false
  mem_iff : ∀ e, e ∈ t.cursor.toList ↔ t.find? e.1 = some e
  find?_iff : ∀ key e, t.find? key = some e ↔ e ∈ t.cursor.toList ∧ (key == e.1) = true

theorem WellFormed.enumerated [BEq K] [Hashable K] [EquivBEq K] [LawfulHashable K]
    {t : Table K V} (wf : t.WellFormed) : t.Enumerated := by
  have law := KeyLaw.of_lawful (K := K)
  have keyed : t.Over fun _ => True := ⟨wf, fun _ _ => trivial⟩
  obtain ⟨ahead, behind⟩ := wf.view_eq
  have cursor := Cursor.walk (c := t.cursor) (by rw [cursor_remaining, ahead, wf.size_eq])
  have drain := Drain.walk (d := t.drain) (by rw [behind]; exact wf.size_eq)
  obtain ⟨cursor_items, cursor_counts⟩ := cursor.collected Cursor.collect_end Cursor.collect_item
  obtain ⟨drain_items, drain_counts⟩ := drain.collected Drain.collect_end Drain.collect_item
  rw [ahead] at cursor cursor_items cursor_counts
  rw [behind] at drain drain_items drain_counts
  have found (key : K) (e : K × V) :
      t.find? key = some e ↔ e ∈ t.cursor.toList ∧ (key == e.1) = true := by
    rw [cursor_items]
    exact keyed.find?_iff law trivial e
  refine ⟨?_, ?_, ?_, ?_, ?_, ?_, ?_, found⟩
  · rwa [cursor_items]
  · rwa [drain_items]
  · rw [cursor_items, drain_items]
  · rw [cursor_counts, wf.size_eq]
  · rw [drain_counts, wf.size_eq]
  · rw [cursor_items]
    exact keyed.distinct law
  · intro e
    rw [found, and_iff_left (BEq.refl e.1)]

end Table

namespace Map

variable {μ K V : Type} [BEq K] [Hashable K]

theorem run_enumerated [EquivBEq K] [LawfulHashable K] (steps : List (Step K V)) :
    ∀ m ∈ (run steps : List (Map μ K V)), m.Enumerated := by
  intro m hm
  exact (wellFormed_run steps m hm).enumerated

theorem run_enumerated_colliding :
    EquivBEq HashedKey ∧ LawfulHashable HashedKey ∧
      (run colliding : List (Map Unit HashedKey ℕ)).map (·.cursor.counts) =
        [0, 1, 3, 2, 3, 2].map countdown ∧
      ∀ m ∈ (run colliding : List (Map Unit HashedKey ℕ)), m.Enumerated :=
  ⟨inferInstance, inferInstance, by decide +kernel, run_enumerated colliding⟩

end Map

end Persistent
