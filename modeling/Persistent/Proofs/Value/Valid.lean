import Persistent.Proofs.Table.WellFormed
import Persistent.Proofs.Vector.Canonical
import Persistent.Value.Equality

/-!
Valid values: maps and sets are well-formed tables whose keys are known, vectors hold their items,
and sequences end in a lazy cell that exists, if they end in one. How their equality and their
words are made up from those of their parts.
-/

set_option autoImplicit false

namespace Persistent.Value

/-- Values without parts, metadata apart. -/
def isFlat : Value → Bool
  | .nil | .bool _ | .int _ | .str _ | .keyword _ | .symbol _ => true
  | _ => false

/-- The value without its metadata, where it is flat. -/
def bare : Value → Value
  | .symbol s => .symbol { s with metadata := none }
  | v => v

theorem all_attach {A : Type} (p : A → Bool) (xs : List A) :
    (xs.attach.all fun x => p x.1) = xs.all p := by
  have plain := List.all_map (l := xs.attach) (f := Subtype.val) (p := p)
  rw [List.attach_map_subtype_val] at plain
  exact plain.symm

theorem all_zip_attach {A B : Type} (p : A → B → Bool) (xs : List A) (ys : List B) :
    ((xs.attach.zip ys).all fun (⟨x, _⟩, y) => p x y) = (xs.zip ys).all fun e => p e.1 e.2 := by
  have plain : xs.zip ys = (xs.attach.zip ys).map (Prod.map Subtype.val id) := by
    rw [← List.zip_map_left, List.attach_map_subtype_val]
  rw [plain, List.all_map]
  rfl

variable [Hasher]

/-- Values over the first `n` lazy cells. Over none a value is known. -/
inductive Valid : ℕ → Value → Prop
  | flat {n : ℕ} {v : Value} (h : v.isFlat = true) : Valid n v
  | list {n : ℕ} {l : ConsList Metadata Value} (items : ∀ x ∈ l.items, Valid n x) :
      Valid n (.list l)
  | vector {n : ℕ} {v : Vector Metadata Value} (held : v.Holds v.toList)
      (items : ∀ x ∈ v.toList, Valid n x) : Valid n (.vector v)
  | seq {n : ℕ} {s : Seq Value} (items : ∀ x ∈ s.known, Valid n x)
      (cell : ∀ c, s.pending? = some c → c < n) : Valid n (.seq s)
  | map {n : ℕ} {m : Map Metadata Value Value} (wf : m.toTable.WellFormed)
      (keys : ∀ e ∈ m.toList, Valid 0 e.1) (values : ∀ e ∈ m.toList, Valid n e.2) :
      Valid n (.map m)
  | set {n : ℕ} {s : Set Metadata Value} (wf : s.toTable.WellFormed)
      (elements : ∀ e ∈ s.toList, Valid 0 e.1) : Valid n (.set s)

abbrev Known (v : Value) : Prop := v.Valid 0

theorem Valid.mono {m n : ℕ} (le : m ≤ n) {v : Value} (h : v.Valid m) : v.Valid n := by
  induction h with
  | flat h => exact .flat h
  | list _ ih => exact .list fun x hx => ih x hx le
  | vector held _ ih => exact .vector held fun x hx => ih x hx le
  | seq _ cell ih =>
    exact .seq (fun x hx => ih x hx le) fun c hc => Nat.lt_of_lt_of_le (cell c hc) le
  | map wf keys _ _ ih => exact .map wf keys fun e he => ih e he le
  | set wf elements => exact .set wf elements

theorem Known.pending?_eq {s : Seq Value} (h : (Value.seq s).Known) : s.pending? = none := by
  cases h with
  | flat h => cases h
  | seq _ cell =>
    rw [Option.eq_none_iff_forall_ne_some]
    intro c hc
    exact Nat.not_lt_zero c (cell c hc)

theorem words_bare (v : Value) : v.bare.words = v.words := by
  cases v with
  | symbol s => rw [bare, words, words]
  | _ => rfl

theorem words_spine {v : Value} {xs : List Value} (h : v.spine? = some (xs, none)) :
    v.words = 6 :: Hash.ordered (xs.map words) := by
  cases v with
  | list l =>
    cases h
    rw [words]
    simp
  | vector v =>
    cases h
    rw [words]
    simp
  | seq s =>
    have parts := Prod.mk.inj (Option.some.inj h)
    rw [words, parts.2, ← parts.1]
    simp
  | _ => cases h

theorem words_map (m : Map Metadata Value Value) :
    (Value.map m).words = 7 :: Hash.unordered (m.toList.map fun e => e.1.words ++ e.2.words) := by
  rw [words]
  have parts := List.attach_map_val (l := m.toList)
    (f := fun e : Value × Value => e.1.words ++ e.2.words)
  exact congrArg (fun parts => 7 :: Hash.unordered parts) parts

theorem words_set (s : Set Metadata Value) :
    (Value.set s).words = 8 :: Hash.unordered (s.toList.map fun e => e.1.words) := by
  rw [words]
  simp [Set.elements, Table.keys, Function.comp_def]

theorem beq_flat {a : Value} (h : a.isFlat = true) (b : Value) :
    (a == b) = true ↔ a.bare = b.bare := by
  change beq a b = true ↔ _
  cases a <;> cases b <;> cases h <;> rw [beq] <;> simp [bare, spine?]
  case symbol.symbol s t =>
    change (s.toQualifiedName == t.toQualifiedName) = true ↔ _
    exact beq_iff_eq

theorem beq_map (m n : Map Metadata Value Value) :
    (Value.map m == .map n) = (m.size == n.size && m.toList.all fun e =>
      (n.find? e.1).any fun f => e.2 == f.2) := by
  change beq _ _ = _
  rw [beq, ← all_attach (fun e : Value × Value => (n.find? e.1).any fun f => e.2 == f.2)]
  refine congrArg (fun p => m.size == n.size && m.toList.attach.all p) ?_
  funext e
  obtain ⟨e, he⟩ := e
  have found : n.root.bind (·.find? (hash e.1) (fun key => beq e.1 key) 0) = n.find? e.1 := rfl
  dsimp only
  rw [found]
  cases n.find? e.1 <;> rfl

theorem beq_map_iff (m : Map Metadata Value Value) (b : Value) :
    (Value.map m == b) = true ↔ ∃ n, b = .map n ∧ m.size = n.size ∧
      ∀ e ∈ m.toList, ∃ f, n.find? e.1 = some f ∧ (e.2 == f.2) = true := by
  cases b with
  | map n =>
    rw [beq_map, Bool.and_eq_true, beq_iff_eq, List.all_eq_true]
    constructor
    · rintro ⟨size, all⟩
      exact ⟨n, rfl, size, fun e he => (Option.any_eq_true _ _).1 (all e he)⟩
    · rintro ⟨_, ⟨⟩, size, all⟩
      exact ⟨size, fun e he => (Option.any_eq_true _ _).2 (all e he)⟩
  | _ =>
    change beq _ _ = true ↔ _
    rw [beq]
    · simp [spine?]
    all_goals
      intros
      contradiction

theorem beq_set_iff (s : Set Metadata Value) (b : Value) :
    (Value.set s == b) = true ↔ ∃ t, b = .set t ∧ s.size = t.size ∧
      ∀ e ∈ s.toList, ∃ f, t.find? e.1 = some f := by
  change beq _ b = true ↔ _
  cases b with
  | set t =>
    rw [beq, Bool.and_eq_true, beq_iff_eq, List.all_eq_true]
    constructor
    · rintro ⟨size, all⟩
      refine ⟨t, rfl, size, ?_⟩
      intro e he
      exact Option.isSome_iff_exists.1
        (all ⟨e.1, List.mem_map_of_mem he⟩ (List.mem_attach ..))
    · rintro ⟨_, ⟨⟩, size, all⟩
      refine ⟨size, ?_⟩
      rintro ⟨x, hx⟩ -
      obtain ⟨e, he, rfl⟩ := List.mem_map.1 hx
      exact Option.isSome_iff_exists.2 (all e he)
  | _ =>
    rw [beq]
    · simp [spine?]
    all_goals
      intros
      contradiction

theorem beq_of_spine {a : Value} {spine : List Value × Option ℕ} (h : a.spine? = some spine)
    (b : Value) :
    beq a b =
      match _h : a.spine?, b.spine? with
      | some (xs, i), some (ys, j) =>
        i == j && xs.length == ys.length && (xs.attach.zip ys).all fun (⟨x, _⟩, y) => beq x y
      | _, _ => false := by
  rw [beq.eq_def]
  split
  case h_9 => rfl
  -- the kinds with an equality of their own are not sequential
  all_goals cases h

theorem beq_spines {a b : Value} {xs ys : List Value} {i j : Option ℕ}
    (ha : a.spine? = some (xs, i)) (hb : b.spine? = some (ys, j)) :
    beq a b = (i == j && xs.length == ys.length && (xs.zip ys).all fun e => beq e.1 e.2) := by
  rw [← all_zip_attach, beq_of_spine ha]
  rw [hb]
  split
  case h_1 xs' i' ys' j' left right =>
    rw [left] at ha
    cases ha
    cases right
    rfl
  case h_2 other => exact absurd rfl (other _ _ _ _ ha)

theorem beq_spine_iff {a : Value} {xs : List Value} {i : Option ℕ}
    (h : a.spine? = some (xs, i)) (b : Value) :
    (a == b) = true ↔ ∃ ys, b.spine? = some (ys, i) ∧
      List.Forall₂ (fun x y => (x == y) = true) xs ys := by
  change beq a b = true ↔ _
  cases hb : b.spine? with
  | none =>
    have apart : beq a b = false := by
      rw [beq_of_spine h]
      rw [hb]
      split
      case h_1 impossible => cases impossible
      case h_2 => rfl
    rw [apart]
    constructor
    · intro impossible
      cases impossible
    · rintro ⟨_, ⟨⟩, _⟩
  | some spine =>
    obtain ⟨ys, j⟩ := spine
    rw [beq_spines h hb, Bool.and_eq_true, Bool.and_eq_true, beq_iff_eq, beq_iff_eq,
      List.all_eq_true]
    constructor
    · rintro ⟨⟨rfl, length⟩, all⟩
      exact ⟨ys, rfl, List.forall₂_iff_zip.2 ⟨length, fun member => all _ member⟩⟩
    · rintro ⟨_, ⟨⟩, related⟩
      obtain ⟨length, all⟩ := List.forall₂_iff_zip.1 related
      exact ⟨⟨rfl, length⟩, fun e member => all member⟩

end Persistent.Value
