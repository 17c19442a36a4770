import Persistent.Proofs.Value.Meaning

/-!
Computations that come to an end. With enough fuel they have one answer, which does not depend on
what has been looked at before.
-/

set_option autoImplicit false

namespace Persistent.Value

theorem bind_of_eq {A B : Type} {c : Demand Value A} {f : A → Demand Value B}
    {st st' : Store Value} {r : A} (h : c st = some (r, st')) : (c >>= f) st = f r st' := by
  change (c st >>= fun (x : A × Store Value) => f x.1 x.2) = _
  rw [h]
  rfl

theorem of_bind {A B : Type} {c : Demand Value A} {f : A → Demand Value B} {st : Store Value}
    {r : B × Store Value} (h : (c >>= f) st = some r) :
    ∃ a st', c st = some (a, st') ∧ f a st' = some r := by
  obtain ⟨⟨a, st'⟩, first, second⟩ := Option.bind_eq_some_iff.1 h
  exact ⟨a, st', first, second⟩

variable [Hasher]

/-- With enough fuel the computation answers `r`, in the store and in every later one. -/
def Settles {A : Type} (st : Store Value) (c : ℕ → Demand Value A) (r : A) : Prop :=
  ∃ N, ∀ fuel ≥ N, ∀ st₁, Leads st st₁ → ∃ st₂, c fuel st₁ = some (r, st₂) ∧ Leads st₁ st₂

/-! A look at the first cell of a sequence whose items are given. -/

theorem look_nil {A : Type} {st : Store Value} (sane : Sane st) {s : Seq Value}
    (reads : Seq.Reads st s []) (f : Option (Value × Seq Value) → Demand Value A) :
    ∃ st', (s.look >>= f) st = f none st' ∧ Leads st st' := by
  refine ⟨(s.uncons st).2, ?_, leads_uncons sane s⟩
  change f (s.uncons st).1 (s.uncons st).2 = _
  rw [Seq.uncons_nil reads]

theorem look_cons {A : Type} {st : Store Value} (sane : Sane st) {s : Seq Value} {x : Value}
    {xs : List Value} (reads : Seq.Reads st s (x :: xs))
    (f : Option (Value × Seq Value) → Demand Value A) :
    ∃ rest st', (s.look >>= f) st = f (some (x, rest)) st' ∧ Leads st st' ∧
      Seq.Reads st' rest xs := by
  obtain ⟨rest, shown, behind⟩ := Seq.uncons_cons sane.intact reads
  refine ⟨rest, (s.uncons st).2, ?_, leads_uncons sane s, behind⟩
  change f (s.uncons st).1 (s.uncons st).2 = _
  rw [shown]

theorem settles_pure {A : Type} (st : Store Value) (r : A) :
    Settles st (fun _ => (pure r : Demand Value A)) r :=
  ⟨0, fun _ _ st₁ leads => ⟨st₁, rfl, leads.sane, .refl st₁⟩⟩

/-- A computation settles on one answer only. -/
theorem Settles.unique {A : Type} {st : Store Value} (sane : Sane st) {c : ℕ → Demand Value A}
    {r r' : A} (h : Settles st c r) (k : Settles st c r') : r = r' := by
  obtain ⟨N, run⟩ := h
  obtain ⟨M, run'⟩ := k
  obtain ⟨_, done, -⟩ := run (max N M) (Nat.le_max_left ..) st ⟨sane, .refl st⟩
  obtain ⟨_, done', -⟩ := run' (max N M) (Nat.le_max_right ..) st ⟨sane, .refl st⟩
  exact (Prod.mk.inj (Option.some.inj (done.symm.trans done'))).1

theorem Settles.succ {A : Type} {st : Store Value} {c d : ℕ → Demand Value A} {r : A}
    (step : ∀ fuel, c (fuel + 1) = d fuel) (h : Settles st d r) : Settles st c r := by
  obtain ⟨N, run⟩ := h
  refine ⟨N + 1, fun fuel enough st₁ leads => ?_⟩
  obtain ⟨fuel, rfl⟩ := Nat.exists_eq_add_of_le' (Nat.le_trans (Nat.le_add_left 1 N) enough)
  rw [step]
  exact run fuel (Nat.le_of_succ_le_succ enough) st₁ leads

theorem Settles.bind {A B : Type} {st : Store Value} {c : ℕ → Demand Value A}
    {f : ℕ → A → Demand Value B} {a : A} {b : B} (h : Settles st c a)
    (k : Settles st (fun fuel => f fuel a) b) : Settles st (fun fuel => c fuel >>= f fuel) b := by
  obtain ⟨N, run⟩ := h
  obtain ⟨M, run'⟩ := k
  refine ⟨max N M, fun fuel enough st₁ leads => ?_⟩
  obtain ⟨st₂, first, leads₂⟩ := run fuel (by omega) st₁ leads
  obtain ⟨st₃, second, leads₃⟩ := run' fuel (by omega) st₂ (leads.trans leads₂)
  exact ⟨st₃, (bind_of_eq first).trans second, leads₂.trans leads₃⟩

end Persistent.Value
