import Mathlib.Data.List.Basic
import Persistent.Fault

/-!
Metadata beside content. What carries metadata can be given other metadata, and an operation that
commutes with the change neither loses the metadata of what it is called on nor looks at it: with
other metadata its outcome is the same, but for the metadata.
-/

set_option autoImplicit false

namespace Persistent

/-- A kind of thing that carries metadata, and how it is given other metadata. -/
structure Carrier (M C : Type) where
  carried : C → Option M
  recarry : Option M → C → C
  carried_recarry : ∀ m c, carried (recarry m c) = m
  recarry_carried : ∀ c, recarry (carried c) c = c

namespace Carrier

variable {M C A : Type} {κ : Carrier M C}

/-- The operation commutes with a change of metadata. -/
def Blind {F : Type → Type} [Functor F] (κ : Carrier M C) (f : C → F C) : Prop :=
  ∀ m c, f (κ.recarry m c) = κ.recarry m <$> f c

section Monad

variable {F : Type → Type} [Monad F] [LawfulMonad F]

theorem blind_pure {f : C → C} (commutes : ∀ m c, f (κ.recarry m c) = κ.recarry m (f c)) :
    κ.Blind fun c => (pure (f c) : F C) := by
  intro m c
  dsimp only
  rw [map_pure, commutes]

/-- An operation on what is computed first, if that does not depend on the metadata. -/
theorem Blind.after {f : A → C → F C} (each : ∀ a, κ.Blind (f a)) {first : C → F A}
    (same : ∀ m c, first (κ.recarry m c) = first c) :
    κ.Blind fun c => first c >>= fun a => f a c := by
  intro m c
  dsimp only
  rw [same, map_bind]
  exact congrArg (first c >>= ·) (funext fun a => each a m c)

theorem Blind.then {f g : C → F C} (hf : κ.Blind f) (hg : κ.Blind g) :
    κ.Blind fun c => f c >>= g := by
  intro m c
  dsimp only
  rw [hf m c, map_bind, bind_map_left]
  exact congrArg (f c >>= ·) (funext fun d => hg m d)

theorem Blind.foldlM {f : C → A → F C} (each : ∀ a, κ.Blind (f · a)) (steps : List A) :
    κ.Blind fun c => steps.foldlM f c := by
  induction steps with
  | nil => exact blind_pure fun _ _ => rfl
  | cons a steps ih =>
    simp only [List.foldlM_cons]
    exact (each a).then ih

end Monad

/-- Every result carries what the operation was called on, and nothing else depends on that. -/
structure Transparent (κ : Carrier M C) (f : C → Except Fault C) : Prop where
  carried_eq : ∀ c d, f c = .ok d → κ.carried d = κ.carried c
  blind : ∀ m c, f (κ.recarry m c) = (f c).map (κ.recarry m)

theorem Blind.transparent {f : C → Except Fault C} (blind : κ.Blind f) : κ.Transparent f where
  carried_eq c d made := by
    have same := blind (κ.carried c) c
    rw [κ.recarry_carried, made] at same
    rw [Except.ok.inj same]
    exact κ.carried_recarry _ d
  blind := blind

end Carrier

end Persistent
