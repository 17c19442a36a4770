import Persistent.Proofs.Vector.Refinement
import Persistent.Vector.Cursor

/-!
The shape of vectors. All leaves of a trie stand at its height, all nodes off the rightmost path
are full, no node is empty, and the height is the least at which the elements fit. A trie of this
shape is the one built from its elements, so two vectors with the same elements have one trie,
whatever their histories.
-/

set_option autoImplicit false

namespace Persistent

namespace Node

open Chunks

variable {α : Type}

/-- A node of a height with 32 elements in each leaf and 32 children in each interior node. -/
inductive Full : ℕ → Node α → Prop
  | leaf {items : List α} (full : items.length = 32) : Full 0 (.leaf items)
  | interior {height : ℕ} {children : List (Node α)} (full : children.length = 32)
      (each : ∀ child ∈ children, Full height child) : Full (height + 1) (.interior children)

/-- A node of a height without empty nodes, and with full nodes off its rightmost path. -/
inductive Packed : ℕ → Node α → Prop
  | leaf {items : List α} (filled : items ≠ []) (fits : items.length ≤ 32) :
      Packed 0 (.leaf items)
  | interior {height : ℕ} {front : List (Node α)} {last : Node α} (fits : front.length < 32)
      (full : ∀ child ∈ front, Full height child) (packed : Packed height last) :
      Packed (height + 1) (.interior (front ++ [last]))

theorem full_build {height : ℕ} {xs : List α} (full : xs.length = width height) :
    Full height (build height xs) := by
  induction height generalizing xs with
  | zero => exact .leaf full
  | succ height ih =>
    have exact : xs.length = width height * 32 := by rw [full, width_succ, Nat.mul_comm]
    have count := (chunks_append (width_pos height) exact []).2
    refine .interior (by rw [List.length_map, count]) ?_
    intro child member
    obtain ⟨part, there, rfl⟩ := List.mem_map.1 member
    exact ih (length_of_mem_chunks (width_pos height) exact part there)

theorem packed_build {height : ℕ} {xs : List α} (filled : xs ≠ [])
    (fits : xs.length ≤ width height) : Packed height (build height xs) := by
  induction height generalizing xs with
  | zero => exact .leaf filled fits
  | succ height ih =>
    obtain ⟨b, front, mid, rfl, cut⟩ := exists_last_cut (width_pos height) filled
    obtain ⟨parts, count⟩ := cut.chunks_eq
    have before := cut.before
    have positive := List.length_pos_iff.2 cut.filled
    rw [List.append_nil, chunks_nil] at parts
    rw [build, parts, List.map_append, List.map_singleton]
    refine .interior ?_ ?_ (ih cut.filled cut.fits)
    · rw [List.length_append, before, width_succ, Nat.mul_comm 32] at fits
      rw [List.length_map, count]
      exact Nat.lt_of_mul_lt_mul_left (show width height * b < width height * 32 by omega)
    · intro child member
      obtain ⟨part, there, rfl⟩ := List.mem_map.1 member
      exact full_build (length_of_mem_chunks (width_pos height) before part there)

theorem childrenToList_eq (children : List (Node α)) :
    childrenToList children = (children.map toList).flatten := by
  induction children with
  | nil => rfl
  | cons child children ih => rw [childrenToList, ih, List.map_cons, List.flatten_cons]

/-- Children that are built from their elements are built from the chunks of all elements. -/
theorem map_build {height : ℕ} {children : List (Node α)}
    (each : ∀ child ∈ children, child.toList.length = width height ∧
      child = build height child.toList) :
    chunks (width height) (childrenToList children) = children.map toList ∧
      (chunks (width height) (childrenToList children)).map (build height) = children := by
  have lengths : ∀ part ∈ children.map toList, part.length = width height := by
    intro part member
    obtain ⟨child, there, rfl⟩ := List.mem_map.1 member
    exact (each child there).1
  have parts := chunks_flatten (width_pos height) lengths
  rw [childrenToList_eq, parts, List.map_map]
  refine ⟨rfl, ?_⟩
  calc children.map (build height ∘ toList) = children.map id :=
        List.map_congr_left fun child member => (each child member).2.symm
    _ = children := List.map_id children

theorem length_childrenToList {c : ℕ} {children : List (Node α)}
    (each : ∀ child ∈ children, child.toList.length = c) :
    (childrenToList children).length = c * children.length := by
  induction children with
  | nil => rfl
  | cons child children ih =>
    rw [childrenToList, List.length_append, each child List.mem_cons_self,
      ih fun other ho => each other (List.mem_cons_of_mem _ ho), List.length_cons, Nat.mul_succ,
      Nat.add_comm]

theorem Full.eq_build {height : ℕ} {t : Node α} (h : Full height t) :
    t.toList.length = width height ∧ t = build height t.toList := by
  induction h with
  | leaf full => exact ⟨full, rfl⟩
  | @interior height children full each ih =>
    rw [toList, build, (map_build ih).2]
    refine ⟨?_, rfl⟩
    rw [length_childrenToList fun child member => (ih child member).1, full, width_succ,
      Nat.mul_comm]

/-- The shape leaves no choice: a packed node is the one built from its elements. -/
theorem Packed.eq_build {height : ℕ} {t : Node α} (h : Packed height t) :
    t.toList ≠ [] ∧ t.toList.length ≤ width height ∧ t = build height t.toList := by
  induction h with
  | leaf filled fits => exact ⟨filled, fits, rfl⟩
  | @interior height front last fits full packed ih =>
    obtain ⟨filled, within, same⟩ := ih
    have each := fun child member => (full child member).eq_build
    have length := length_childrenToList fun child member => (each child member).1
    have items : (Node.interior (front ++ [last])).toList =
        childrenToList front ++ last.toList := by
      simp [toList, childrenToList_eq]
    rw [items]
    refine ⟨?_, ?_, ?_⟩
    · exact List.append_ne_nil_of_right_ne_nil _ filled
    · rw [List.length_append, length, width_succ]
      have := Nat.mul_le_mul_left (width height) (show front.length + 1 ≤ 32 by omega)
      rw [Nat.mul_succ, Nat.mul_comm _ 32] at this
      omega
    · rw [build, (chunks_append (width_pos height) length _).1, chunks_single filled within,
        List.map_append, (map_build each).2, List.map_singleton, ← same]

end Node

namespace Vector

variable {μ α : Type}

/-- A vector of the one shape that its elements allow. -/
structure Canonical (v : Vector μ α) : Prop where
  root_none_iff : v.root = none ↔ v.size = 0
  packed : ∀ root, v.root = some root → root.Packed v.height
  branching : ∀ children, v.root = some (.interior children) → 2 ≤ children.length
  fits : v.size ≤ 32 ^ (v.height + 1)
  least : ∀ height, v.size ≤ 32 ^ (height + 1) → v.height ≤ height
  size_eq : v.size = v.toList.length
  get?_eq : ∀ i, v.get? i = v.toList[i]?
  /-- The number of elements that the fullness test compares with. -/
  capacity : v.size < 2 ^ 60 → 32 ^ (v.height + 1) ≤ 2 ^ 60

theorem toList_some {v : Vector μ α} {root : Node α} (h : v.root = some root) :
    v.toList = root.toList := by
  unfold toList
  rw [h]

theorem Holds.canonical {v : Vector μ α} {xs : List α} (h : v.Holds xs) : v.Canonical := by
  have size := h.size_eq
  have fits := h.fits
  have least (height : ℕ) (room : v.size ≤ 32 ^ (height + 1)) : v.height ≤ height := by
    by_contra high
    have more := h.least (by omega)
    have grown : Node.width height ≤ Node.width (v.height - 1) :=
      Nat.pow_le_pow_right (by decide) (by omega)
    rw [size] at room
    exact absurd (Nat.lt_of_lt_of_le more (Nat.le_trans room grown)) (Nat.lt_irrefl _)
  have packed (root : Node α) (hroot : v.root = some root) : root.Packed v.height := by
    by_cases empty : xs = []
    · rw [h.root_none empty] at hroot
      cases hroot
    · rw [h.root_some empty] at hroot
      cases hroot
      exact Node.packed_build empty fits
  refine ⟨?_, packed, ?_, ?_, least, ?_, ?_, ?_⟩
  · rw [size, List.length_eq_zero_iff, h.root_eq]
    cases xs <;> simp
  · intro children hroot
    have items := toList_some hroot
    have inner := packed _ hroot
    have above := h.least
    rw [h.toList_eq] at items
    generalize v.height = height at inner above
    cases inner with
    | @interior height front last room full inner =>
      by_contra single
      rw [List.length_append, List.length_singleton] at single
      have none : front = [] := List.length_eq_zero_iff.1 (by omega)
      subst none
      have more := above (Nat.succ_ne_zero height)
      have within := inner.eq_build.2.1
      rw [items] at more
      simp [Node.toList, Node.childrenToList] at more
      omega
  · rw [size]
    exact fits
  · rw [size, h.toList_eq]
  · intro i
    rw [h.get?_eq, h.toList_eq]
  · intro small
    have low := least 11 (by omega)
    exact Nat.pow_le_pow_right (show 0 < 32 by decide) (show v.height + 1 ≤ 12 by omega)

/-- The trie is a function of the elements. -/
theorem Canonical.unique {v w : Vector μ α} (hv : v.Canonical) (hw : w.Canonical)
    (same : v.toList = w.toList) : v.size = w.size ∧ v.height = w.height ∧ v.root = w.root := by
  have size : v.size = w.size := by rw [hv.size_eq, hw.size_eq, same]
  have height : v.height = w.height := by
    apply Nat.le_antisymm
    · exact hv.least _ (size ▸ hw.fits)
    · exact hw.least _ (size ▸ hv.fits)
  refine ⟨size, height, ?_⟩
  cases hroot : v.root with
  | none => rw [hw.root_none_iff.2 (size ▸ hv.root_none_iff.1 hroot)]
  | some root =>
    cases hroot' : w.root with
    | none =>
      rw [hv.root_none_iff.2 (size ▸ hw.root_none_iff.1 hroot')] at hroot
      cases hroot
    | some root' =>
      have built := (hv.packed root hroot).eq_build.2.2
      have built' := (hw.packed root' hroot').eq_build.2.2
      rw [toList_some hroot, toList_some hroot'] at same
      rw [built, built', height, same]

theorem Holds.unique {v w : Vector μ α} {xs : List α} (h : v.Holds xs) (k : w.Holds xs)
    (metadata : v.metadata = w.metadata) : v = w := by
  obtain ⟨size, height, root⟩ := h.canonical.unique k.canonical (by rw [h.toList_eq, k.toList_eq])
  obtain ⟨_, _, _, _⟩ := v
  obtain ⟨_, _, _, _⟩ := w
  dsimp only at size height root metadata
  subst size height root metadata
  rfl

theorem push_metadata (v : Vector μ α) (x : α) : (v.push x).metadata = v.metadata := by
  unfold push addLevel
  dsimp only
  split
  · split <;> rfl
  · rfl

theorem pushAll_metadata (v : Vector μ α) (xs : List α) :
    (v.pushAll xs).metadata = v.metadata := by
  unfold pushAll
  induction xs generalizing v with
  | nil => rfl
  | cons x xs ih => exact (ih (v.push x)).trans (push_metadata v x)

theorem set_metadata {v w : Vector μ α} {index : Int64} {x : α} (stored : v.set index x = .ok w) :
    w.metadata = v.metadata := by
  unfold set at stored
  split at stored
  · cases stored
    exact push_metadata v x
  · split at stored
    · cases stored
    · cases stored
      rfl

theorem pop_metadata {v w : Vector μ α} (popped : v.pop = .ok w) : w.metadata = v.metadata := by
  unfold pop shrink at popped
  split at popped
  · cases popped
  · cases popped
    dsimp only
    split <;> split <;> rfl

/-- An element that is appended and removed leaves no trace. -/
theorem Holds.pop_push {v : Vector μ α} {xs : List α} (h : v.Holds xs) (x : α) :
    (v.push x).pop = .ok v := by
  obtain ⟨w, popped, held⟩ := (h.push x).pop_filled (by simp)
  rw [List.dropLast_concat] at held
  have metadata := (pop_metadata popped).trans (push_metadata v x)
  rw [popped, held.unique h metadata]

/-- A step of a program, a slice of a vector made before, or a collection of items. -/
inductive Way (α : Type) where
  | step (s : Step α)
  | subvec (v : ℕ) (low high : Bound)
  | collect (xs : List α)

def make (outcomes : List (Except Fault (Vector μ α))) : Way α → Except Fault (Vector μ α)
  | .step s => step outcomes s
  | .subvec v low high => .ok ((made {} outcomes v).subvec low high)
  | .collect xs => .ok (ofList xs)

/-- The outcomes of a history, the empty vector first. -/
def history (ways : List (Way α)) : List (Except Fault (Vector μ α)) :=
  ways.foldl (fun outcomes way => outcomes ++ [make outcomes way]) [.ok {}]

theorem history_concat (ways : List (Way α)) (way : Way α) :
    (history (ways ++ [way]) : List (Except Fault (Vector μ α))) =
      history ways ++ [make (history ways) way] := by
  unfold history
  rw [List.foldl_append]
  rfl

/-- All vectors among the outcomes hold lists. -/
def Held (outcomes : List (Except Fault (Vector μ α))) : Prop :=
  ∀ v, .ok v ∈ outcomes → ∃ xs, v.Holds xs

theorem Held.made {outcomes : List (Except Fault (Vector μ α))} (held : Held outcomes) (i : ℕ) :
    ∃ xs, (made {} outcomes i).Holds xs := by
  unfold Vector.made
  split
  case h_1 v here => exact held v (List.mem_of_getElem? here)
  case h_2 => exact ⟨[], holds_empty⟩

theorem Holds.of_setAll {v w : Vector μ α} {xs : List α} (h : v.Holds xs)
    {pairs : List (Int64 × α)} (stored : v.setAll pairs = .ok w) : ∃ ys, w.Holds ys := by
  induction pairs generalizing v xs with
  | nil =>
    cases stored
    exact ⟨xs, h⟩
  | cons pair pairs ih =>
    obtain ⟨index, x⟩ := pair
    rw [setAll_cons] at stored
    cases first : v.set index x with
    | error fault =>
      rw [first] at stored
      cases stored
    | ok u =>
      rw [first] at stored
      obtain ⟨ys, held, -⟩ := h.of_set first
      exact ih held stored

theorem Holds.of_pop {v w : Vector μ α} {xs : List α} (h : v.Holds xs) (popped : v.pop = .ok w) :
    ∃ ys, w.Holds ys := by
  by_cases empty : xs = []
  · rw [h.pop_empty empty] at popped
    cases popped
  · obtain ⟨u, popped', held⟩ := h.pop_filled empty
    cases popped'.symm.trans popped
    exact ⟨_, held⟩

theorem held_step {outcomes : List (Except Fault (Vector μ α))} (held : Held outcomes)
    {s : Step α} {w : Vector μ α} (stepped : step outcomes s = .ok w) : ∃ xs, w.Holds xs := by
  cases s with
  | push v x =>
    obtain ⟨xs, h⟩ := held.made v
    cases stepped
    exact ⟨_, h.push x⟩
  | pushAll v xs =>
    obtain ⟨_, h⟩ := held.made v
    cases stepped
    exact ⟨_, h.pushAll xs⟩
  | set v index x =>
    obtain ⟨xs, h⟩ := held.made v
    obtain ⟨ys, stored, -⟩ := h.of_set stepped
    exact ⟨ys, stored⟩
  | setAll v pairs =>
    obtain ⟨xs, h⟩ := held.made v
    exact h.of_setAll stepped
  | pop v =>
    obtain ⟨xs, h⟩ := held.made v
    exact h.of_pop stepped

theorem held_make {outcomes : List (Except Fault (Vector μ α))} (held : Held outcomes)
    {way : Way α} {w : Vector μ α} (made : make outcomes way = .ok w) : ∃ xs, w.Holds xs := by
  cases way with
  | step s => exact held_step held made
  | subvec v low high =>
    cases made
    exact ⟨_, (holds_ofList _).withMetadata _⟩
  | collect xs =>
    cases made
    exact ⟨_, holds_ofList xs⟩

theorem held_history (ways : List (Way α)) :
    Held (history ways : List (Except Fault (Vector μ α))) := by
  induction ways using List.reverseRecOn with
  | nil =>
    intro v hv
    cases List.mem_singleton.1 hv
    exact ⟨[], holds_empty⟩
  | append_singleton ways way ih =>
    intro v hv
    rw [history_concat, List.mem_append, List.mem_singleton] at hv
    rcases hv with hv | hv
    · exact ih v hv
    · exact held_make ih hv.symm

/-- Every vector of a history is canonical and loses an appended element without trace, and
vectors of any two histories that show the same elements have the same trie. -/
theorem history_canonical (ways ways' : List (Way α)) (v w : Vector μ α)
    (hv : .ok v ∈ (history ways : List (Except Fault (Vector μ α))))
    (hw : .ok w ∈ (history ways' : List (Except Fault (Vector μ α)))) :
    v.Canonical ∧ (∀ x, (v.push x).pop = .ok v) ∧
      (v.toList = w.toList → v.size = w.size ∧ v.height = w.height ∧ v.root = w.root) := by
  obtain ⟨xs, h⟩ := held_history ways v hv
  obtain ⟨ys, k⟩ := held_history ways' w hw
  exact ⟨h.canonical, h.pop_push, h.canonical.unique k.canonical⟩

theorem getElem?_made {β : Type} {outcomes : List (Except Fault β)} {i : ℕ}
    (made? : ((outcomes[i]?).bind Except.toOption).isSome = true) (empty : β) :
    outcomes[i]? = some (.ok (made empty outcomes i)) := by
  unfold made
  cases here : outcomes[i]? with
  | none =>
    rw [here] at made?
    cases made?
  | some outcome =>
    cases outcome with
    | error fault =>
      rw [here] at made?
      cases made?
    | ok x => rfl

/-- Two ways to the same elements, one of them from beyond the boundary of a level. -/
def boundary : List (Way ℕ) :=
  [.step (.pushAll 0 (List.range 33)), .step (.pop 1), .subvec 1 .unbounded (.excluded 32),
    .collect (List.range 32)]

theorem history_canonical_boundary :
    ∃ v w : Vector Unit ℕ, .ok v ∈ history boundary ∧ .ok w ∈ history boundary ∧
      v.toList = List.range 32 ∧ w.toList = List.range 32 ∧
      v.Canonical ∧ (∀ x, (v.push x).pop = .ok v) ∧
      v.size = w.size ∧ v.height = w.height ∧ v.root = w.root := by
  let outcomes : List (Except Fault (Vector Unit ℕ)) := history boundary
  have succeeded : ∀ i ∈ [2, 4], ((outcomes[i]?).bind Except.toOption).isSome = true := by
    decide +kernel
  have popped := getElem?_made (succeeded 2 (by decide)) {}
  have collected := getElem?_made (succeeded 4 (by decide)) {}
  have shown : (made {} outcomes 2).toList = List.range 32 := by decide +kernel
  have shown' : (made {} outcomes 4).toList = List.range 32 := by decide +kernel
  obtain ⟨canonical, undone, same⟩ := history_canonical boundary boundary _ _
    (List.mem_of_getElem? popped) (List.mem_of_getElem? collected)
  exact ⟨_, _, List.mem_of_getElem? popped, List.mem_of_getElem? collected, shown, shown',
    canonical, undone, same (shown.trans shown'.symm)⟩

end Vector

end Persistent
