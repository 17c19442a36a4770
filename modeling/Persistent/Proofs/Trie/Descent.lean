import Persistent.Proofs.Trie.Insert

/-!
The way of a hash down a trie. A lookup and an insertion go the same way: from branch to branch
through the slot of the fragment that is read there. In a sound trie the way of a hash is spelled
by its own fragments, and by those of the hashes it comes to.
-/

set_option autoImplicit false

namespace Persistent.Trie

variable {K V : Type}

/-- The way of `h` from a trie at one shift to a trie at another. -/
inductive Leads (h : UInt64) : ℕ → Trie K V → ℕ → Trie K V → Prop
  | here {shift : ℕ} {t : Trie K V} : Leads h shift t shift t
  | down {shift bottom : ℕ} {bits : BitVec 32} {slots : List (Trie K V)} {slot t : Trie K V}
      (set : bits.getLsbD (fragment h shift) = true)
      (there : slots[rank bits (fragment h shift)]? = some slot)
      (below : Leads h (shift + 5) slot bottom t) : Leads h shift (.branch bits slots) bottom t

/-- An insertion of `key` under `h` stops here for want of a branch: at an entry of another key, or
at a collision node of another hash. -/
inductive Blocks [BEq K] (h : UInt64) (key : K) : UInt64 → Trie K V → Prop
  | entry {h' : UInt64} {k : K} {v : V} (other : (h' == h && key == k) = false) :
      Blocks h key h' (.entry h' k v)
  | collision {h' : UInt64} {entries : List (K × V)} (other : h' ≠ h) :
      Blocks h key h' (.collision h' entries)

theorem exists_cut {slots : List (Trie K V)} {n : ℕ} {slot : Trie K V}
    (there : slots[n]? = some slot) :
    ∃ front back, slots = front ++ slot :: back ∧ n = front.length := by
  obtain ⟨inside, rfl⟩ := List.getElem?_eq_some_iff.1 there
  refine ⟨slots.take n, slots.drop (n + 1), ?_, ?_⟩
  · rw [← List.drop_eq_getElem_cons inside, List.take_append_drop]
  · rw [List.length_take, Nat.min_eq_left (Nat.le_of_lt inside)]

theorem getElem?_cut (front back : List (Trie K V)) (slot : Trie K V) :
    (front ++ slot :: back)[front.length]? = some slot := by
  rw [List.getElem?_append_right (Nat.le_refl _), Nat.sub_self]
  rfl

/-- A slot is found under the position that occupies it. -/
theorem found_under {bits : BitVec 32} {i : ℕ} (is : List ℕ) {js : List ℕ}
    (front back : List (Trie K V)) (slot : Trie K V) (occupied : positions bits = is ++ i :: js)
    (level : is.length = front.length) :
    bits.getLsbD i = true ∧ (front ++ slot :: back)[rank bits i]? = some slot := by
  have among : i ∈ positions bits := by
    rw [occupied]
    exact List.mem_append_right _ List.mem_cons_self
  obtain ⟨inside, set⟩ := List.mem_filter.1 among
  have same : setBelow bits i = is := by
    rw [positions_of_set (List.mem_range.1 inside) set] at occupied
    exact ((List.append_cons_inj_of_notMem (fun h => Nat.lt_irrefl _ (mem_setBelow h))
      fun h => Nat.lt_irrefl _ (mem_setAbove h)).1 occupied).1
  refine ⟨set, ?_⟩
  rw [rank_eq, same, level, getElem?_cut]

namespace Leads

variable {h : UInt64} {shift bottom : ℕ} {s t : Trie K V}

theorem trans {further : ℕ} {r : Trie K V} (first : Leads h shift t bottom s)
    (second : Leads h bottom s further r) : Leads h shift t further r := by
  induction first with
  | here => exact second
  | down set there _ ih => exact .down set there (ih second)

/-- A lookup finds from the start of a way what it finds from its end. -/
theorem find?_eq (leads : Leads h shift t bottom s) (same : K → Bool) :
    t.find? h same shift = s.find? h same bottom := by
  induction leads with
  | here => rfl
  | down set there below ih =>
    obtain ⟨front, back, rfl, rank⟩ := exists_cut there
    rw [find?, if_pos set, rank, findAt?_cut]
    exact ih

/-- What an insertion does at the end of its way is all it does. -/
theorem insert [BEq K] (leads : Leads h shift t bottom s) (key : K) (value : V) :
    Leads h shift (t.insert h key value shift).1 bottom (s.insert h key value bottom).1 := by
  induction leads with
  | here => exact .here
  | @down shift bottom bits slots slot t set there below ih =>
    obtain ⟨front, back, rfl, rank⟩ := exists_cut there
    rw [Trie.insert, if_pos set, rank, insertAt_cut]
    exact .down set (by rw [rank, getElem?_cut]) ih

end Leads

theorem Blocks.insert_eq [BEq K] {h h' : UInt64} {key : K} {t : Trie K V}
    (blocks : Blocks h key h' t) (value : V) (shift : ℕ) :
    t.insert h key value shift = (pair shift h' t h (.entry h key value), true) := by
  cases blocks with
  | entry other => rw [insert, if_neg (ne_true_of_eq_false other)]
  | collision other => rw [insert, if_neg (by simpa using other)]

section Sound

variable [BEq K] [Hashable K]

theorem Blocks.onPath {h h' : UInt64} {key : K} {t : Trie K V} {path : List ℕ}
    (blocks : Blocks h key h' t) (sound : Sound path t) : OnPath path h' := by
  cases blocks with
  | entry =>
    obtain ⟨on, -⟩ := sound
    exact on
  | collision =>
    obtain _ | _ | ⟨on⟩ := sound
    exact on

/-- The end of a way stands at the end of a path, sound as the start. -/
theorem Sound.of_leads {path : List ℕ} {h : UInt64} {shift bottom : ℕ} {s t : Trie K V}
    (sound : Sound path t) (on : OnPath path h) (long : path.length ≤ 13)
    (start : shift = 5 * path.length) (leads : Leads h shift t bottom s) :
    ∃ below : List ℕ, below.length ≤ 13 ∧ bottom = 5 * below.length ∧ OnPath below h ∧
      Sound below s := by
  induction leads generalizing path with
  | here => exact ⟨path, long, start, on, sound⟩
  | @down shift bottom bits slots slot t set there below ih =>
    subst start
    have hi := fragment_lt h (5 * path.length)
    have shallow := (sound_branch_iff.1 sound).1
    obtain ⟨front, slot', back, rfl, rank, -, -, inside, -⟩ := sound.cut hi set
    -- the slot on the way is the one that the path goes on with
    rw [rank, getElem?_cut] at there
    cases there
    refine ih inside.1 ((onPath_concat _ _ _).2 ⟨on, rfl⟩) ?_ ?_
    · rw [List.length_append, List.length_singleton]
      omega
    · rw [List.length_append, List.length_singleton, Nat.mul_add]

end Sound

end Persistent.Trie
