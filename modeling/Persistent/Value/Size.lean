import Persistent.Value.Basic

/-!
Every part of a value is smaller than the value: entries, elements, known items, and the map that
is its metadata. Recursion on values goes through these parts.
-/

set_option autoImplicit false

namespace Persistent

variable {μ K V α : Type} [SizeOf μ] [SizeOf K] [SizeOf V] [SizeOf α]

mutual

theorem Trie.sizeOf_mem (t : Trie K V) (e : K × V) (h : e ∈ t.toList) :
    sizeOf e.1 + sizeOf e.2 < sizeOf t := by
  match t with
  | .entry _ _ _ =>
    simp only [Trie.toList, List.mem_singleton] at h
    subst h
    simp only [Trie.entry.sizeOf_spec]
    omega
  | .branch _ slots => have := Trie.sizeOf_mem_slots slots e h; simp; omega
  | .collision _ entries =>
    simp only [Trie.toList] at h
    have := List.sizeOf_lt_of_mem h
    cases e
    simp at this ⊢
    omega

theorem Trie.sizeOf_mem_slots (slots : List (Trie K V)) (e : K × V)
    (h : e ∈ Trie.slotsToList slots) : sizeOf e.1 + sizeOf e.2 < sizeOf slots := by
  match slots with
  | [] => simp [Trie.slotsToList] at h
  | slot :: slots =>
    simp only [Trie.slotsToList, List.mem_append] at h
    rcases h with h | h
    · have := Trie.sizeOf_mem slot e h; simp; omega
    · have := Trie.sizeOf_mem_slots slots e h; simp; omega

end

theorem Table.sizeOf_mem {t : Table K V} {e : K × V} (h : e ∈ t.toList) :
    sizeOf e.1 + sizeOf e.2 < sizeOf t := by
  obtain ⟨root, size⟩ := t
  cases root with
  | none => simp [Table.toList] at h
  | some root => have := Trie.sizeOf_mem root e h; simp; omega

theorem Map.sizeOf_mem {m : Map μ K V} {e : K × V} (h : e ∈ m.toList) :
    sizeOf e.1 + sizeOf e.2 < sizeOf m := by
  obtain ⟨table, metadata⟩ := m
  have := Table.sizeOf_mem h
  simp at this ⊢
  omega

theorem Set.sizeOf_mem {s : Set μ α} {x : α} (h : x ∈ s.elements) : sizeOf x < sizeOf s := by
  obtain ⟨table, metadata⟩ := s
  obtain ⟨e, stored, rfl⟩ := List.mem_map.1 h
  have := Table.sizeOf_mem stored
  simp at this ⊢
  omega

mutual

theorem Node.sizeOf_mem (n : Node α) (x : α) (h : x ∈ n.toList) : sizeOf x < sizeOf n := by
  match n with
  | .leaf items =>
    simp only [Node.toList] at h
    have := List.sizeOf_lt_of_mem h
    simp
    omega
  | .interior children => have := Node.sizeOf_mem_children children x h; simp; omega

theorem Node.sizeOf_mem_children (children : List (Node α)) (x : α)
    (h : x ∈ Node.childrenToList children) : sizeOf x < sizeOf children := by
  match children with
  | [] => simp [Node.childrenToList] at h
  | child :: children =>
    simp only [Node.childrenToList, List.mem_append] at h
    rcases h with h | h
    · have := Node.sizeOf_mem child x h; simp; omega
    · have := Node.sizeOf_mem_children children x h; simp; omega

end

theorem Vector.sizeOf_mem {v : Vector μ α} {x : α} (h : x ∈ v.toList) : sizeOf x < sizeOf v := by
  obtain ⟨root, size, height, metadata⟩ := v
  cases root with
  | none => simp [Vector.toList] at h
  | some root => have := Node.sizeOf_mem root x h; simp; omega

theorem ConsList.sizeOf_mem {l : ConsList μ α} {x : α} (h : x ∈ l.items) :
    sizeOf x < sizeOf l := by
  obtain ⟨items, metadata⟩ := l
  have := List.sizeOf_lt_of_mem h
  simp at this ⊢
  omega

theorem Seq.sizeOf_mem {s : Seq α} {x : α} (h : x ∈ s.known) : sizeOf x < sizeOf s := by
  induction s with
  | nil => simp [Seq.known] at h
  | cons y rest ih =>
    rcases List.mem_cons.1 h with rfl | h
    · simp; omega
    · have := ih h; simp; omega
  | list y rest =>
    rcases List.mem_cons.1 h with rfl | h
    · simp; omega
    · have := List.sizeOf_lt_of_mem h; simp; omega
  | lazy _ => simp [Seq.known] at h

theorem Value.sizeOf_metadata {v : Value} {m : Map Metadata Value Value}
    (h : v.metadata? = some m) : sizeOf m < sizeOf v := by
  have key (o : Option Metadata) (h : o.map (·.map) = some m) : sizeOf m < sizeOf o := by
    obtain ⟨i, rfl, rfl⟩ := Option.map_eq_some_iff.1 h
    cases i; simp [Metadata.map]; omega
  cases v with
  | symbol s => have := key _ h; cases s; simp at this ⊢; omega
  | list l => have := key _ h; cases l; simp at this ⊢; omega
  | vector v => have := key _ h; cases v; simp at this ⊢; omega
  | map m => have := key _ h; cases m; simp at this ⊢; omega
  | set s => have := key _ h; cases s; simp at this ⊢; omega
  | _ => simp [Value.metadata?] at h

end Persistent
