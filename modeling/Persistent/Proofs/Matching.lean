import Mathlib.Data.List.Perm.Basic
import Persistent.Hash

/-!
Lists that match up to their order: some reordering of one is item by item related to the other.
Parts that feed a hash in no order may be reordered so.
-/

set_option autoImplicit false

namespace Persistent

variable {A B C : Type}

theorem unordered_perm [Hasher] {parts others : List (List UInt64)} (perm : parts.Perm others) :
    Hash.unordered parts = Hash.unordered others := by
  have swap : RightCommutative (fun a b : UInt64 => a + b) := by
    refine ⟨fun a b c => ?_⟩
    rw [UInt64.add_assoc, UInt64.add_comm b c, ← UInt64.add_assoc]
  unfold Hash.unordered
  rw [perm.length_eq, (perm.map Hasher.digest).foldl_eq]

def Matches (R : A → B → Prop) (xs : List A) (ys : List B) : Prop :=
  ∃ zs, List.Forall₂ R xs zs ∧ zs.Perm ys

theorem forall₂_trans {R : A → B → Prop} {S : B → C → Prop} {T : A → C → Prop}
    (comp : ∀ x y z, R x y → S y z → T x z) {xs : List A} {ys : List B} {zs : List C}
    (hxy : List.Forall₂ R xs ys) (hyz : List.Forall₂ S ys zs) : List.Forall₂ T xs zs := by
  induction hxy generalizing zs with
  | nil =>
    cases hyz
    exact .nil
  | cons h _ ih =>
    cases hyz with
    | cons k hyz => exact .cons (comp _ _ _ h k) (ih hyz)

theorem forall₂_imp_mem {R S : A → B → Prop} {xs : List A} {ys : List B}
    (h : List.Forall₂ R xs ys) (imp : ∀ x ∈ xs, ∀ y ∈ ys, R x y → S x y) :
    List.Forall₂ S xs ys := by
  rw [List.forall₂_iff_zip] at h ⊢
  exact ⟨h.1, fun member => imp _ (List.of_mem_zip member).1 _ (List.of_mem_zip member).2
    (h.2 member)⟩

theorem exists_forall₂ {R : A → B → Prop} {xs : List A} (each : ∀ x ∈ xs, ∃ y, R x y) :
    ∃ ys, List.Forall₂ R xs ys := by
  induction xs with
  | nil => exact ⟨[], .nil⟩
  | cons x xs ih =>
    obtain ⟨y, related⟩ := each x List.mem_cons_self
    obtain ⟨ys, relateds⟩ := ih fun x' hx' => each x' (List.mem_cons_of_mem _ hx')
    exact ⟨y :: ys, .cons related relateds⟩

namespace Matches

theorem symm {R : A → B → Prop} {S : B → A → Prop} (flip : ∀ x y, R x y → S y x) {xs : List A}
    {ys : List B} (h : Matches R xs ys) : Matches S ys xs := by
  obtain ⟨zs, related, perm⟩ := h
  have back : List.Forall₂ S zs xs := related.flip.imp fun _ _ h => flip _ _ h
  obtain ⟨ws, related', perm'⟩ := List.perm_comp_forall₂ perm.symm back
  exact ⟨ws, related', perm'⟩

theorem trans {R : A → B → Prop} {S : B → C → Prop} {T : A → C → Prop}
    (comp : ∀ x y z, R x y → S y z → T x z) {xs : List A} {ys : List B} {zs : List C}
    (hxy : Matches R xs ys) (hyz : Matches S ys zs) : Matches T xs zs := by
  obtain ⟨us, related, perm⟩ := hxy
  obtain ⟨vs, related', perm'⟩ := hyz
  obtain ⟨ws, related'', perm''⟩ := List.perm_comp_forall₂ perm related'
  exact ⟨ws, forall₂_trans comp related related'', perm''.trans perm'⟩

theorem length_eq {R : A → B → Prop} {xs : List A} {ys : List B} (h : Matches R xs ys) :
    xs.length = ys.length := by
  obtain ⟨zs, related, perm⟩ := h
  exact related.length_eq.trans perm.length_eq

theorem exists_mem {R : A → B → Prop} {xs : List A} {ys : List B} (h : Matches R xs ys) {x : A}
    (hx : x ∈ xs) : ∃ y ∈ ys, R x y := by
  obtain ⟨zs, related, perm⟩ := h
  obtain ⟨i, hi, rfl⟩ := List.getElem_of_mem hx
  have hj : i < zs.length := related.length_eq ▸ hi
  exact ⟨zs[i], perm.mem_iff.1 (List.getElem_mem hj), related.get hi hj⟩

/-- Images that the relation makes equal are the same up to their order. -/
theorem map_perm {D : Type} {R : A → B → Prop} {f : A → D} {g : B → D}
    (same : ∀ x y, R x y → f x = g y) {xs : List A} {ys : List B} (h : Matches R xs ys) :
    (xs.map f).Perm (ys.map g) := by
  obtain ⟨zs, related, perm⟩ := h
  have images : xs.map f = zs.map g := by
    clear perm
    induction related with
    | nil => rfl
    | cons h _ ih => rw [List.map_cons, List.map_cons, same _ _ h, ih]
  rw [images]
  exact perm.map g

theorem unordered_eq [Hasher] {R : A → B → Prop} {f : A → List UInt64} {g : B → List UInt64}
    (same : ∀ x y, R x y → f x = g y) {xs : List A} {ys : List B} (h : Matches R xs ys) :
    Hash.unordered (xs.map f) = Hash.unordered (ys.map g) :=
  unordered_perm (h.map_perm same)

end Matches

/-- If no two items share a partner, each item has a partner of its own. -/
theorem exists_partners {R : A → B → Prop} {xs : List A} {ys : List B}
    (apart : xs.Pairwise fun x x' => ∀ y, R x y → ¬R x' y)
    (cover : ∀ x ∈ xs, ∃ y ∈ ys, R x y) :
    ∃ zs others, List.Forall₂ R xs zs ∧ (zs ++ others).Perm ys := by
  induction xs generalizing ys with
  | nil => exact ⟨[], ys, .nil, .refl _⟩
  | cons x xs ih =>
    obtain ⟨alone, apart⟩ := List.pairwise_cons.1 apart
    obtain ⟨y, hy, h⟩ := cover x List.mem_cons_self
    obtain ⟨front, back, rfl⟩ := List.append_of_mem hy
    have perm : (y :: (front ++ back)).Perm (front ++ y :: back) := List.perm_middle.symm
    have covered : ∀ x' ∈ xs, ∃ y' ∈ front ++ back, R x' y' := by
      intro x' hx'
      obtain ⟨y', hy', h'⟩ := cover x' (List.mem_cons_of_mem _ hx')
      rcases List.mem_cons.1 (perm.mem_iff.2 hy') with rfl | hy'
      · exact absurd h' (alone x' hx' y' h)
      · exact ⟨y', hy', h'⟩
    obtain ⟨zs, others, related, perm'⟩ := ih apart covered
    exact ⟨y :: zs, others, .cons h related, (perm'.cons y).trans perm⟩

section Cover

variable {R : A → B → Prop} {xs : List A} {ys : List B}
  (apart : xs.Pairwise fun x x' => ∀ y, R x y → ¬R x' y) (cover : ∀ x ∈ xs, ∃ y ∈ ys, R x y)
include apart cover

theorem length_le_of_cover : xs.length ≤ ys.length := by
  obtain ⟨zs, others, related, perm⟩ := exists_partners apart cover
  rw [related.length_eq, ← perm.length_eq, List.length_append]
  exact Nat.le_add_right ..

/-- As many items as partners use up all of them. -/
theorem matches_of_cover (count : xs.length = ys.length) : Matches R xs ys := by
  obtain ⟨zs, others, related, perm⟩ := exists_partners apart cover
  have none : others = [] := by
    rw [related.length_eq, ← perm.length_eq, List.length_append] at count
    apply List.length_eq_zero_iff.1
    omega
  subst none
  rw [List.append_nil] at perm
  exact ⟨zs, related, perm⟩

end Cover

end Persistent
