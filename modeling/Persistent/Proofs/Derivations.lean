import Persistent.Name
import Persistent.Proofs.Bulk
import Persistent.Proofs.Carrier
import Persistent.Proofs.Vector.Walks

/-!
What is made of one collection: by one operation after another on it, whatever their further
arguments are. All that is made carries the metadata of the collection it is made of, and is
otherwise the same whatever that metadata is.
-/

set_option autoImplicit false

namespace Persistent

open Carrier

namespace Vector

variable {μ α : Type}

def carrier : Carrier μ (Vector μ α) where
  carried v := v.metadata
  recarry metadata v := { v with metadata }
  carried_recarry _ _ := rfl
  recarry_carried _ := rfl

inductive Derivation (α : Type) where
  | push (x : α)
  | pushAll (xs : List α)
  | set (index : Int64) (x : α)
  | setAll (pairs : List (Int64 × α))
  | pop
  | subvec (low high : Bound)

def derive (v : Vector μ α) : Derivation α → Except Fault (Vector μ α)
  | .push x => .ok (v.push x)
  | .pushAll xs => .ok (v.pushAll xs)
  | .set index x => v.set index x
  | .setAll pairs => v.setAll pairs
  | .pop => v.pop
  | .subvec low high => .ok (v.subvec low high)

theorem push_recarry (m : Option μ) (v : Vector μ α) (x : α) :
    (carrier.recarry m v).push x = carrier.recarry m (v.push x) := by
  obtain ⟨root, size, height, metadata⟩ := v
  unfold push addLevel isFull carrier
  dsimp only
  cases root with
  | none => rfl
  | some root => split <;> rfl

theorem pushAll_recarry (m : Option μ) (v : Vector μ α) (xs : List α) :
    (carrier.recarry m v).pushAll xs = carrier.recarry m (v.pushAll xs) := by
  unfold pushAll
  induction xs generalizing v with
  | nil => rfl
  | cons x xs ih => rw [List.foldl_cons, List.foldl_cons, push_recarry, ih]

theorem set_recarry (m : Option μ) (v : Vector μ α) (index : Int64) (x : α) :
    (carrier.recarry m v).set index x = (v.set index x).map (carrier.recarry m) := by
  have placed : (carrier.recarry m v).resolve index = v.resolve index := rfl
  have counted : (carrier.recarry m v).size = v.size := rfl
  unfold set
  rw [push_recarry, placed, counted]
  split
  · rfl
  · cases v.resolve index <;> rfl

theorem pop_recarry (m : Option μ) (v : Vector μ α) :
    (carrier.recarry m v).pop = v.pop.map (carrier.recarry m) := by
  have counted : (carrier.recarry m v).size = v.size := rfl
  have shrunk (u : Vector μ α) :
      (carrier.recarry m u).shrink = carrier.recarry m u.shrink := by
    obtain ⟨root, size, height, metadata⟩ := u
    unfold shrink carrier
    dsimp only
    split <;> split <;> rfl
  unfold pop
  rw [counted]
  split
  · rfl
  · exact congrArg Except.ok (shrunk { v with root := v.root.map Node.pop, size := v.size - 1 })

theorem next?_recarry (m : Option μ) (c : Cursor μ α) :
    { c with source := carrier.recarry m c.source }.next? =
      c.next?.map fun (x, d) => (x, { d with source := carrier.recarry m d.source }) := by
  have fetches : (carrier.recarry m c.source).leaf? c.index = c.source.leaf? c.index := rfl
  unfold Cursor.next?
  dsimp only
  rw [fetches]
  split
  · rfl
  · generalize (if c.index % 32 = 0 ∨ c.chunk.isEmpty then c.source.leaf? c.index
      else some c.chunk) = fetched
    cases fetched with
    | none => rfl
    | some chunk => cases h : chunk[c.index % 32]? <;> simp [h]

theorem toList_recarry (m : Option μ) (c : Cursor μ α) :
    { c with source := carrier.recarry m c.source }.toList = c.toList := by
  induction c using Cursor.toList.induct with
  | case1 c ended =>
    have ended' := next?_recarry m c
    rw [ended] at ended'
    rw [(Cursor.collect_end _ ended).1, (Cursor.collect_end _ ended').1]
  | case2 c x d yielded _ ih =>
    have yielded' := next?_recarry m c
    rw [yielded] at yielded'
    rw [(Cursor.collect_item _ _ _ yielded).1, (Cursor.collect_item _ _ _ yielded').1, ih]

theorem subvec_recarry (m : Option μ) (v : Vector μ α) (low high : Bound) :
    (carrier.recarry m v).subvec low high = carrier.recarry m (v.subvec low high) := by
  have items := toList_recarry m (.ofRange v low.start (high.stop v.size))
  unfold subvec
  exact congrArg (fun xs => { (ofList xs : Vector μ α) with metadata := m }) items

theorem derive_blind (d : Derivation α) : (carrier (μ := μ)).Blind (derive · d) := by
  intro m v
  cases d with
  | push x => exact congrArg Except.ok (push_recarry m v x)
  | pushAll xs => exact congrArg Except.ok (pushAll_recarry m v xs)
  | set index x => exact set_recarry m v index x
  | setAll pairs =>
    dsimp only [derive]
    rw [setAll_eq_foldlM, setAll_eq_foldlM]
    exact Blind.foldlM (fun pair m v => set_recarry m v pair.1 pair.2) pairs m v
  | pop => exact pop_recarry m v
  | subvec low high => exact congrArg Except.ok (subvec_recarry m v low high)

end Vector

namespace ConsList

variable {μ α : Type}

def carrier : Carrier μ (ConsList μ α) where
  carried l := l.metadata
  recarry metadata l := { l with metadata }
  carried_recarry _ _ := rfl
  recarry_carried _ := rfl

inductive Derivation (α : Type) where
  | push (x : α)
  | pop

def derive (l : ConsList μ α) : Derivation α → Except Fault (ConsList μ α)
  | .push x => .ok (l.push x)
  | .pop => l.pop

theorem pop_recarry (m : Option μ) (l : ConsList μ α) :
    (carrier.recarry m l).pop = l.pop.map (carrier.recarry m) := by
  obtain ⟨items, metadata⟩ := l
  cases items <;> rfl

theorem derive_blind (d : Derivation α) : (carrier (μ := μ)).Blind (derive · d) := by
  intro m l
  cases d with
  | push x => rfl
  | pop => exact pop_recarry m l

end ConsList

namespace Map

variable {μ K V : Type}

def carrier : Carrier μ (Map μ K V) where
  carried m := m.metadata
  recarry metadata m := { m with metadata }
  carried_recarry _ _ := rfl
  recarry_carried _ := rfl

inductive Derivation (μ K V : Type) where
  | insert (key : K) (value : V)
  | insertAll (entries : List (K × V))
  | erase (key : K)
  | eraseAll (keys : List K)
  | merge (n : Map μ K V)

variable [BEq K] [Hashable K]

def derive (m : Map μ K V) : Derivation μ K V → Except Fault (Map μ K V)
  | .insert key value => .ok (m.insert key value)
  | .insertAll entries => .ok (m.insertAll entries)
  | .erase key => .ok (m.erase key)
  | .eraseAll keys => .ok (m.eraseAll keys)
  | .merge n => .ok (m.merge n)

theorem derive_blind (d : Derivation μ K V) : carrier.Blind (derive · d) := by
  intro metadata m
  cases d <;> rfl

end Map

namespace Set

variable {μ α : Type}

def carrier : Carrier μ (Set μ α) where
  carried s := s.metadata
  recarry metadata s := { s with metadata }
  carried_recarry _ _ := rfl
  recarry_carried _ := rfl

inductive Derivation (μ α : Type) where
  | insert (x : α)
  | insertAll (xs : List α)
  | erase (x : α)
  | eraseAll (xs : List α)
  | union (t : Set μ α)
  | inter (t : Set μ α)
  | diff (t : Set μ α)

variable [BEq α] [Hashable α]

def derive (s : Set μ α) : Derivation μ α → Except Fault (Set μ α)
  | .insert x => .ok (s.insert x)
  | .insertAll xs => .ok (s.insertAll xs)
  | .erase x => .ok (s.erase x)
  | .eraseAll xs => .ok (s.eraseAll xs)
  | .union t => .ok (s.union t)
  | .inter t => .ok (s.inter t)
  | .diff t => .ok (s.diff t)

theorem insert_recarry (m : Option μ) (s : Set μ α) (x : α) :
    (carrier.recarry m s).insert x = carrier.recarry m (s.insert x) := by
  rw [insert_eq, insert_eq]
  rfl

theorem derive_blind (d : Derivation μ α) : carrier.Blind (derive · d) := by
  intro m s
  cases d with
  | insert x => exact congrArg Except.ok (insert_recarry m s x)
  | _ => rfl

end Set

namespace Symbol

def carrier {μ : Type} : Carrier μ (Symbol μ) where
  carried a := a.metadata
  recarry metadata a := { a with metadata }
  carried_recarry _ _ := rfl
  recarry_carried _ := rfl

end Symbol

/-- Whatever is made of a collection by a chain of derivations is transparent to its metadata, and
of a second collection the metadata has no part in what is made. -/
structure MetadataFramed (μ α K V : Type) [BEq K] [Hashable K] : Prop where
  vector : ∀ ds : List (Vector.Derivation α),
    (Vector.carrier (μ := μ)).Transparent (ds.foldlM Vector.derive)
  list : ∀ ds : List (ConsList.Derivation α),
    (ConsList.carrier (μ := μ)).Transparent (ds.foldlM ConsList.derive)
  map : ∀ ds : List (Map.Derivation μ K V), Map.carrier.Transparent (ds.foldlM Map.derive)
  set : ∀ ds : List (Set.Derivation μ K), Set.carrier.Transparent (ds.foldlM Set.derive)
  symbol : (Symbol.carrier (μ := μ)).Transparent fun a => .ok a.unqualified
  merge_eq : ∀ (m n : Map μ K V) x, m.merge (Map.carrier.recarry x n) = m.merge n
  union_eq : ∀ (s t : Set μ K) x, s.union (Set.carrier.recarry x t) = s.union t
  inter_eq : ∀ (s t : Set μ K) x, s.inter (Set.carrier.recarry x t) = s.inter t
  diff_eq : ∀ (s t : Set μ K) x, s.diff (Set.carrier.recarry x t) = s.diff t

theorem metadataFramed (μ α K V : Type) [BEq K] [Hashable K] : MetadataFramed μ α K V where
  vector ds := (Blind.foldlM Vector.derive_blind ds).transparent
  list ds := (Blind.foldlM ConsList.derive_blind ds).transparent
  map ds := (Blind.foldlM Map.derive_blind ds).transparent
  set ds := (Blind.foldlM Set.derive_blind ds).transparent
  symbol := ⟨fun _ _ made => by cases made; rfl, fun _ _ => rfl⟩
  merge_eq _ _ _ := rfl
  union_eq _ _ _ := rfl
  inter_eq _ _ _ := rfl
  diff_eq _ _ _ := rfl

end Persistent
