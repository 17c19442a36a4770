import Persistent.Proofs.Derivations
import Persistent.Proofs.Value.Keying

/-!
What is made of one collection value. On each kind of collection an operation is one on what the
value holds, and as such it neither loses the metadata nor looks at it, whatever lazy cells it looks
at and however it fails.
-/

set_option autoImplicit false

namespace Persistent.Value

open Carrier

inductive Derivation where
  | conj (item : Value)
  | assoc (key value : Value)
  | dissoc (key : Value)
  | disj (item : Value)
  | pop

def bearsMetadata : Value → Bool
  | .list _ | .vector _ | .map _ | .set _ => true
  | _ => false

/-- A collection with other metadata. -/
def recarry (m : Option Metadata) : Value → Value
  | .list l => .list (ConsList.carrier.recarry m l)
  | .vector v => .vector (Vector.carrier.recarry m v)
  | .map n => .map (Map.carrier.recarry m n)
  | .set s => .set (Set.carrier.recarry m s)
  | v => v

/-- On one kind of value the operation is a blind one on what the value holds. -/
def Lifts {C : Type} (κ : Carrier Metadata C) (into : C → Value) (f : Value → Action Value) :
    Prop :=
  ∃ g : C → Action C, κ.Blind g ∧ ∀ c, f (into c) = into <$> g c

theorem of_map {A B : Type} {c : Action A} {h : A → B} {st st' : Store Value} {b : B}
    (made : (h <$> c).run st = some (.ok b, st')) :
    ∃ a, c.run st = some (.ok a, st') ∧ h a = b := by
  rw [ExceptT.run_map, map_eq_pure_bind] at made
  obtain ⟨r, st₁, first, rest⟩ := of_bind made
  cases r with
  | error fault => cases rest
  | ok a =>
    cases rest
    exact ⟨a, first, rfl⟩

section Lifts

variable {C A : Type} {κ : Carrier Metadata C} {into : C → Value}

theorem Lifts.foldlM {f : Value → A → Action Value} (each : ∀ a, Lifts κ into (f · a))
    (steps : List A) : Lifts κ into (steps.foldlM f) := by
  choose g blind lifted using each
  refine ⟨steps.foldlM fun c a => g a c, Blind.foldlM blind steps, fun c => ?_⟩
  induction steps generalizing c with
  | nil => exact (map_pure into c).symm
  | cons a steps ih =>
    dsimp only at lifted ih ⊢
    simp only [List.foldlM_cons, lifted, bind_map_left, map_bind, ih]

theorem Lifts.blind {f : Value → Action Value} (lifts : Lifts κ into f)
    (kind : ∀ m c, recarry m (into c) = into (κ.recarry m c)) (m : Option Metadata) (c : C) :
    f (recarry m (into c)) = recarry m <$> f (into c) := by
  obtain ⟨g, blind, lifted⟩ := lifts
  rw [kind, lifted, lifted, blind m c, Functor.map_map, Functor.map_map]
  exact congrArg (· <$> g c) (funext fun d => (kind m d).symm)

/-- A result is one of the operation on what the value holds, with the metadata still there. -/
theorem Lifts.carried_eq {f : Value → Action Value} (lifts : Lifts κ into f) {c : C}
    {st st' : Store Value} {w : Value} (made : (f (into c)).run st = some (.ok w, st')) :
    ∃ d, into d = w ∧ κ.carried d = κ.carried c := by
  obtain ⟨g, blind, lifted⟩ := lifts
  have same := blind (κ.carried c) c
  rw [κ.recarry_carried] at same
  rw [lifted, same] at made
  obtain ⟨e, reached, rfl⟩ := of_map made
  obtain ⟨d, -, rfl⟩ := of_map reached
  exact ⟨_, rfl, κ.carried_recarry _ d⟩

theorem lifts_pure {f : Value → Action Value} (g : C → C)
    (commutes : ∀ m c, g (κ.recarry m c) = κ.recarry m (g c))
    (lifted : ∀ c, f (into c) = pure (into (g c))) : Lifts κ into f :=
  ⟨fun c => pure (g c), blind_pure commutes, fun c => by rw [lifted, map_pure]⟩

theorem lifts_unsupported {f : Value → Action Value} (operation kind : String)
    (lifted : ∀ c, f (into c) = throw (.unsupported operation kind)) : Lifts κ into f :=
  ⟨fun _ => throw (.unsupported operation kind), fun _ _ => rfl, fun c => (lifted c).trans rfl⟩

theorem lifts_invalidKey {f : Value → Action Value} (fuel : ℕ) (kind : String) (key : Value)
    (lifted : ∀ c, f (into c) = invalidKey fuel kind key) : Lifts κ into f := by
  refine ⟨fun _ => invalidKey fuel kind key, ?_, fun c => ?_⟩
  · exact Blind.after (fun text m c => rfl) (fun _ _ => rfl)
  · rw [lifted]
    exact (map_bind into (key.print {} fuel : Action String)
      fun text => throw (.invalidKey kind text)).symm

theorem lifts_except {f : Value → Action Value} (g : C → Except Fault C)
    (commutes : ∀ m c, g (κ.recarry m c) = (g c).map (κ.recarry m))
    (lifted : ∀ c, f (into c) = liftM ((g c).map into)) : Lifts κ into f := by
  refine ⟨fun c => liftM (g c), fun m c => ?_, fun c => ?_⟩
  · dsimp only
    rw [commutes]
    cases g c <;> rfl
  · dsimp only
    rw [lifted]
    cases g c <;> rfl

/-- A change through a key that is looked at first. -/
theorem lifts_keyed {f : Value → Action Value} (first : C → Demand Value Value)
    (g : C → Value → C) (same : ∀ m c, first (κ.recarry m c) = first c)
    (commutes : ∀ m c u, g (κ.recarry m c) u = κ.recarry m (g c u))
    (lifted : ∀ c, f (into c) = do return into (g c (← first c))) : Lifts κ into f := by
  refine ⟨fun c => do return g c (← first c), ?_, fun c => ?_⟩
  · refine Blind.after (fun u => blind_pure fun m c => commutes m c u) fun m c => ?_
    rw [same]
  · rw [lifted, map_bind]
    rfl

end Lifts

variable [Hasher]

def derive (fuel : ℕ) (v : Value) : Derivation → Action Value
  | .conj item => v.conj fuel item
  | .assoc key value => v.assoc fuel key value
  | .dissoc key => v.dissoc fuel key
  | .disj item => v.disj fuel item
  | .pop => v.pop

theorem list_lifts (fuel : ℕ) (d : Derivation) :
    Lifts ConsList.carrier .list (derive fuel · d) := by
  cases d with
  | conj item => exact lifts_pure (·.push item) (fun _ _ => rfl) fun _ => rfl
  | assoc key value => exact lifts_unsupported "assoc" "list" fun _ => rfl
  | dissoc key => exact lifts_unsupported "dissoc" "list" fun _ => rfl
  | disj item => exact lifts_unsupported "disj" "list" fun _ => rfl
  | pop => exact lifts_except ConsList.pop ConsList.pop_recarry fun l => rfl

theorem vector_lifts (fuel : ℕ) (d : Derivation) :
    Lifts Vector.carrier .vector (derive fuel · d) := by
  cases d with
  | conj item =>
    exact lifts_pure (·.push item) (fun m v => Vector.push_recarry m v item) fun _ => rfl
  | assoc key value =>
    cases key with
    | int index =>
      exact lifts_except (·.set index value) (fun m v => Vector.set_recarry m v index value)
        fun v => assoc_index v fuel index value
    | _ => exact lifts_invalidKey fuel "vector" _ fun _ => rfl
  | dissoc key => exact lifts_unsupported "dissoc" "vector" fun _ => rfl
  | disj item => exact lifts_unsupported "disj" "vector" fun _ => rfl
  | pop => exact lifts_except Vector.pop Vector.pop_recarry fun v => rfl

theorem map_lifts (fuel : ℕ) (d : Derivation) :
    Lifts Map.carrier .map (derive fuel · d) := by
  cases d with
  | conj item =>
    cases item with
    | vector pair =>
      -- a vector is an entry only if it holds a key and a value
      by_cases two : pair.toList.length = 2
      · obtain ⟨key, value, two⟩ := List.length_eq_two.1 two
        exact lifts_keyed (fun _ => key.realize fuel) (fun m u => m.insert u value)
          (fun _ _ => rfl) (fun _ _ _ => rfl) fun m => conj_pair m two fuel
      · exact lifts_invalidKey fuel "map" _ fun m => conj_pair_other m two fuel
    | map n => exact lifts_pure (·.merge n) (fun _ _ => rfl) fun _ => rfl
    | _ => exact lifts_invalidKey fuel "map" _ fun _ => rfl
  | assoc key value =>
    exact lifts_keyed (fun _ => key.realize fuel) (fun m u => m.insert u value) (fun _ _ => rfl)
      (fun _ _ _ => rfl) fun _ => rfl
  | dissoc key =>
    exact lifts_keyed (fun m => searchKey fuel m.toTable key) (fun m u => m.erase u)
      (fun _ _ => rfl) (fun _ _ _ => rfl) fun _ => rfl
  | disj item => exact lifts_unsupported "disj" "map" fun _ => rfl
  | pop => exact lifts_unsupported "pop" "map" fun _ => rfl

theorem set_lifts (fuel : ℕ) (d : Derivation) :
    Lifts Set.carrier .set (derive fuel · d) := by
  cases d with
  | conj item =>
    exact lifts_keyed (fun _ => item.realize fuel) (fun s u => s.insert u) (fun _ _ => rfl)
      Set.insert_recarry fun _ => rfl
  | disj item =>
    exact lifts_keyed (fun s => searchKey fuel s.toTable item) (fun s u => s.erase u)
      (fun _ _ => rfl) (fun _ _ _ => rfl) fun _ => rfl
  | assoc key value => exact lifts_unsupported "assoc" "set" fun _ => rfl
  | dissoc key => exact lifts_unsupported "dissoc" "set" fun _ => rfl
  | pop => exact lifts_unsupported "pop" "set" fun _ => rfl

/-- Every result that an operation gives for a collection carries the metadata of the collection.
With other metadata the same cells are looked at, the same fault is met, and the result is the same
but for the metadata. -/
structure Transparent (f : Value → Action Value) : Prop where
  metadata?_eq : ∀ v st w st', v.bearsMetadata = true → (f v).run st = some (.ok w, st') →
    w.metadata? = v.metadata?
  blind : ∀ m v, v.bearsMetadata = true → f (v.recarry m) = recarry m <$> f v

theorem chain_transparent (fuel : ℕ) (ds : List Derivation) :
    Transparent fun v => ds.foldlM (derive fuel) v where
  metadata?_eq v st w st' bears made := by
    cases v with
    | list l =>
      obtain ⟨k, rfl, same⟩ := (Lifts.foldlM (list_lifts fuel) ds).carried_eq made
      exact congrArg (Option.map Metadata.map) same
    | vector u =>
      obtain ⟨k, rfl, same⟩ := (Lifts.foldlM (vector_lifts fuel) ds).carried_eq made
      exact congrArg (Option.map Metadata.map) same
    | map m =>
      obtain ⟨k, rfl, same⟩ := (Lifts.foldlM (map_lifts fuel) ds).carried_eq made
      exact congrArg (Option.map Metadata.map) same
    | set s =>
      obtain ⟨k, rfl, same⟩ := (Lifts.foldlM (set_lifts fuel) ds).carried_eq made
      exact congrArg (Option.map Metadata.map) same
    | _ => cases bears
  blind m v bears := by
    cases v with
    | list l => exact (Lifts.foldlM (list_lifts fuel) ds).blind (fun _ _ => rfl) m l
    | vector u => exact (Lifts.foldlM (vector_lifts fuel) ds).blind (fun _ _ => rfl) m u
    | map n => exact (Lifts.foldlM (map_lifts fuel) ds).blind (fun _ _ => rfl) m n
    | set s => exact (Lifts.foldlM (set_lifts fuel) ds).blind (fun _ _ => rfl) m s
    | _ => cases bears

/-- The metadata of a map that is merged into another has no part in the outcome. -/
theorem conj_map_recarry (fuel : ℕ) (m n : Map Metadata Value Value) (x : Option Metadata) :
    (Value.map m).conj fuel (recarry x (.map n)) = (Value.map m).conj fuel (.map n) :=
  rfl

end Persistent.Value

namespace Persistent

/-- Metadata is carried through every derivation and has no part in any, of typed collections and
of values alike. -/
structure MetadataCarried [Hasher] (μ α K V : Type) [BEq K] [Hashable K] : Prop extends
    MetadataFramed μ α K V where
  value : ∀ fuel (ds : List Value.Derivation),
    Value.Transparent fun v => ds.foldlM (Value.derive fuel) v
  conj_map_eq : ∀ fuel (m n : Map Metadata Value Value) x,
    (Value.map m).conj fuel (Value.recarry x (.map n)) = (Value.map m).conj fuel (.map n)

theorem metadata_carried [Hasher] (μ α K V : Type) [BEq K] [Hashable K] :
    MetadataCarried μ α K V where
  toMetadataFramed := metadataFramed μ α K V
  value := Value.chain_transparent
  conj_map_eq := Value.conj_map_recarry

attribute [local instance] Hasher.sum in
/-- The last entry of a map is removed, and what is left still carries its metadata. -/
theorem metadata_carried_emptied :
    let held : Map String HashedKey ℕ :=
      Map.carrier.recarry (some "kept") (Map.ofList [(⟨1, 7, ""⟩, 10)])
    MetadataCarried String ℕ HashedKey ℕ ∧ held.isEmpty = false ∧
      ∃ rest, [Map.Derivation.erase ⟨1, 7, ""⟩].foldlM Map.derive held = .ok rest ∧
        rest.isEmpty = true ∧ rest.metadata = some "kept" := by
  intro held
  have all := metadata_carried String ℕ HashedKey ℕ
  refine ⟨all, by decide +kernel, held.erase ⟨1, 7, ""⟩, rfl, by decide +kernel, ?_⟩
  exact (all.map [.erase ⟨1, 7, ""⟩]).carried_eq held (held.erase ⟨1, 7, ""⟩) rfl

end Persistent
