import Mathlib.Data.Nat.Notation
import Persistent.HashedKey
import Persistent.Name

/-!
The law that keys obey: their equality is an equivalence, and equal keys have equal hashes. It is
asked only of the keys in a domain, since a type may hold more than the keys that come to be used.
-/

set_option autoImplicit false

namespace Persistent

structure KeyLaw {K : Type} [BEq K] [Hashable K] (D : K → Prop) : Prop where
  refl {a : K} : D a → (a == a) = true
  symm {a b : K} : D a → D b → (a == b) = true → (b == a) = true
  trans {a b c : K} : D a → D b → D c → (a == b) = true → (b == c) = true → (a == c) = true
  hash_eq {a b : K} : D a → D b → (a == b) = true → hash a = hash b

namespace KeyLaw

variable {K : Type} [BEq K] [Hashable K] {D : K → Prop}

/-- A type with a lawful equality and hash is a domain of its own. -/
theorem of_lawful [EquivBEq K] [LawfulHashable K] : KeyLaw (fun _ : K => True) where
  refl _ := BEq.refl _
  symm _ _ h := BEq.symm h
  trans _ _ _ h k := BEq.trans h k
  hash_eq _ _ h := LawfulHashable.hash_eq _ _ h

theorem comm (law : KeyLaw D) {a b : K} (ha : D a) (hb : D b) : (a == b) = (b == a) := by
  rw [Bool.eq_iff_iff]
  exact ⟨law.symm ha hb, law.symm hb ha⟩

/-- Equal keys have the same equals. -/
theorem congr_left (law : KeyLaw D) {a b c : K} (ha : D a) (hb : D b) (hc : D c)
    (h : (a == b) = true) : (a == c) = (b == c) := by
  rw [Bool.eq_iff_iff]
  exact ⟨law.trans hb ha hc (law.symm ha hb h), law.trans ha hb hc h⟩

theorem congr_right (law : KeyLaw D) {a b c : K} (ha : D a) (hb : D b) (hc : D c)
    (h : (a == b) = true) : (c == a) = (c == b) := by
  rw [law.comm hc ha, law.comm hc hb, law.congr_left ha hb hc h]

theorem ne_of_hash_ne (law : KeyLaw D) {a b : K} (ha : D a) (hb : D b)
    (h : hash a ≠ hash b) : (a == b) = false := by
  rw [Bool.eq_false_iff]
  intro same
  exact h (law.hash_eq ha hb same)

end KeyLaw

namespace HashedKey

theorem beq_iff (a b : HashedKey) : (a == b) = true ↔ a.id = b.id ∧ a.code = b.code := by
  change (a.id == b.id && a.code == b.code) = true ↔ _
  rw [Bool.and_eq_true, beq_iff_eq, beq_iff_eq]

instance : EquivBEq HashedKey where
  rfl := (beq_iff _ _).2 ⟨rfl, rfl⟩
  symm h := by
    rw [beq_iff] at h ⊢
    exact ⟨h.1.symm, h.2.symm⟩
  trans h k := by
    rw [beq_iff] at h k ⊢
    exact ⟨h.1.trans k.1, h.2.trans k.2⟩

instance : LawfulHashable HashedKey where
  hash_eq _ _ h := ((beq_iff _ _).1 h).2

end HashedKey

namespace Symbol

variable {μ : Type}

/-- Symbols are equal by namespace and name alone. -/
theorem beq_iff (a b : Symbol μ) :
    (a == b) = true ↔ a.toQualifiedName = b.toQualifiedName := by
  change (a.toQualifiedName == b.toQualifiedName) = true ↔ _
  exact beq_iff_eq

instance : EquivBEq (Symbol μ) where
  rfl := (beq_iff _ _).2 rfl
  symm h := (beq_iff _ _).2 ((beq_iff _ _).1 h).symm
  trans h k := (beq_iff _ _).2 (((beq_iff _ _).1 h).trans ((beq_iff _ _).1 k))

instance [Hasher] : LawfulHashable (Symbol μ) where
  hash_eq a b h := by
    change Hasher.digest a.words = Hasher.digest b.words
    rw [(beq_iff a b).1 h]

end Symbol

end Persistent
