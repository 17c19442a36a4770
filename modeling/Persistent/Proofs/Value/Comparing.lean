import Persistent.Proofs.Value.Building
import Persistent.Proofs.Value.Making

/-!
Comparisons with any fuel: where they answer, they lead to a sane store, and more fuel does not
change the answer.
-/

set_option autoImplicit false

namespace Persistent.Value

variable {A B : Type}

/-- Wherever `c` answers, `d` answers the same. -/
def Extends (c d : Demand Value A) : Prop :=
  ∀ st r, c st = some r → d st = some r

theorem Extends.refl (c : Demand Value A) : Extends c c :=
  fun _ _ done => done

theorem Extends.bind {c d : Demand Value A} {f g : A → Demand Value B} (h : Extends c d)
    (k : ∀ a, Extends (f a) (g a)) : Extends (c >>= f) (d >>= g) := by
  intro st r done
  obtain ⟨a, st', first, second⟩ := of_bind done
  exact (bind_of_eq (h st _ first)).trans (k a st' r second)

theorem Extends.ite {p : Prop} [Decidable p] {c c' d d' : Demand Value A} (h : Extends c d)
    (k : Extends c' d') : Extends (if p then c else c') (if p then d else d') := by
  split
  · exact h
  · exact k

theorem seqEqual_extends {same same' : Value → Value → Demand Value Bool}
    (extend : ∀ x y, Extends (same x y) (same' x y)) {m n : ℕ} (le : m ≤ n) (s t : Seq Value) :
    Extends (Seq.equal same m s t) (Seq.equal same' n s t) := by
  induction m generalizing n s t with
  | zero => exact fun _ _ done => nomatch done
  | succ m ih =>
    obtain ⟨n, rfl⟩ := Nat.exists_eq_add_of_le' (Nat.le_trans (Nat.le_add_left 1 m) le)
    refine (Extends.refl s.look).bind fun r => ?_
    cases r with
    | none => exact .refl _
    | some step =>
      refine (Extends.refl t.look).bind fun r' => ?_
      cases r' with
      | none => exact .refl _
      | some step' =>
        exact (extend _ _).bind fun b => .ite (ih (Nat.le_of_succ_le_succ le) _ _) (.refl _)

variable [Hasher]

section Makes

variable {st : Store Value} (fuel : ℕ)

theorem makes_seqEqual {same : Value → Value → Demand Value Bool}
    (each : ∀ st₁, Leads st st₁ → ∀ x y, In st₁ x → In st₁ y →
      Makes st₁ (same x y) fun _ _ => True) {s t : Seq Value} (hs : In st (.seq s))
    (ht : In st (.seq t)) : Makes st (Seq.equal same fuel s t) fun _ _ => True := by
  induction fuel generalizing st s t with
  | zero => exact makes_exhausted
  | succ fuel ih =>
    refine (makes_look hs).bind fun st₁ leads r looked => ?_
    cases looked with
    | ended =>
      exact (makes_look (ht.later leads)).bind fun _ _ _ _ => makes_pure fun _ _ => trivial
    | item hx hs' =>
      refine (makes_look (ht.later leads)).bind fun st₂ leads₂ r' looked' => ?_
      cases looked' with
      | ended => exact makes_pure fun _ _ => trivial
      | item hy ht' =>
        have leads' := leads.trans leads₂
        refine (each st₂ leads' _ _ (hx.later leads₂) hy).bind fun st₃ leads₃ b _ => ?_
        cases b with
        | false => exact makes_pure fun _ _ => trivial
        | true =>
          exact ih (fun st₄ leads₄ => each st₄ ((leads'.trans leads₃).trans leads₄))
            ((hs'.later leads₂).later leads₃) (ht'.later leads₃)

theorem makes_equalEntries {same : Value → Value → Demand Value Bool}
    (each : ∀ st₁, Leads st st₁ → ∀ x y, In st₁ x → In st₁ y →
      Makes st₁ (same x y) fun _ _ => True) {n : Map Metadata Value Value} (hn : In st (.map n))
    {entries : List (Value × Value)} (valid : ∀ e ∈ entries, e.1.Known ∧ In st e.2) :
    Makes st (equalEntries same n entries) fun _ _ => True := by
  induction entries generalizing st with
  | nil => exact makes_pure fun _ _ => trivial
  | cons e entries ih =>
    obtain ⟨key, value⟩ := valid e List.mem_cons_self
    rw [equalEntries]
    split
    case h_1 => exact makes_pure fun _ _ => trivial
    case h_2 x found =>
      have hx : In st x := valid_get? hn key found
      have compared : Makes st (same x e.2) fun _ _ => True := fun st₁ leads =>
        each st₁ leads x e.2 (hx.later leads) (value.later leads) st₁ (.refl leads.sane)
      refine compared.bind fun st₁ leads b _ => ?_
      cases b with
      | false => exact makes_pure fun _ _ => trivial
      | true =>
        refine ih (fun st₂ leads₂ => each st₂ (leads.trans leads₂)) (hn.later leads) fun f hf => ?_
        obtain ⟨key', value'⟩ := valid f (List.mem_cons_of_mem _ hf)
        exact ⟨key', value'.later leads⟩

theorem makes_equal {a b : Value} (ha : In st a) (hb : In st b) :
    Makes st (equal fuel a b) fun _ _ => True := by
  induction fuel generalizing st a b with
  | zero => exact makes_exhausted
  | succ fuel ih =>
    have each (st₁ : Store Value) (_ : Leads st st₁) (x y : Value) (hx : In st₁ x) (hy : In st₁ y) :
        Makes st₁ (equal fuel x y) fun _ _ => True := ih hx hy
    have answered (b : Bool) : Makes st (pure b : Demand Value Bool) fun _ _ => True :=
      makes_pure fun _ _ => trivial
    unfold equal
    split
    case h_1 m n =>
      split
      · exact answered false
      · obtain ⟨keyed, values⟩ := valid_entries ha
        exact makes_equalEntries each hb fun e he => ⟨keyed.keys e he, values e he⟩
    case h_2 =>
      split
      · exact answered false
      · exact makes_seqEqual fuel each (valid_sequence ha rfl) (valid_sequence hb rfl)
    case h_3 =>
      split
      · exact answered false
      · exact makes_seqEqual fuel each (valid_sequence ha rfl) (valid_sequence hb rfl)
    case h_4 =>
      split
      case h_1 s t left right =>
        exact makes_seqEqual fuel each (valid_sequence ha left) (valid_sequence hb right)
      case h_2 => exact answered _
      case h_3 => exact answered false

end Makes

theorem equalEntries_extends {same same' : Value → Value → Demand Value Bool}
    (extend : ∀ x y, Extends (same x y) (same' x y)) (n : Map Metadata Value Value)
    (entries : List (Value × Value)) :
    Extends (equalEntries same n entries) (equalEntries same' n entries) := by
  induction entries with
  | nil => exact .refl _
  | cons e entries ih =>
    rw [equalEntries, equalEntries]
    cases n.get? e.1 with
    | none => exact .refl _
    | some x => exact (extend x e.2).bind fun b => .ite ih (.refl _)

theorem equal_extends {m n : ℕ} (le : m ≤ n) (a b : Value) :
    Extends (equal m a b) (equal n a b) := by
  induction m generalizing n a b with
  | zero => exact fun _ _ done => nomatch done
  | succ m ih =>
    obtain ⟨n, rfl⟩ := Nat.exists_eq_add_of_le' (Nat.le_trans (Nat.le_add_left 1 m) le)
    have less := Nat.le_of_succ_le_succ le
    have walk (s t : Seq Value) :
        Extends (Seq.equal (equal m) m s t) (Seq.equal (equal n) n s t) :=
      seqEqual_extends (ih less) less s t
    rw [equal.eq_def, equal.eq_def (n + 1)]
    dsimp only
    split
    case h_1 => exact .ite (.refl _) (equalEntries_extends (ih less) _ _)
    case h_2 => exact .ite (.refl _) (walk _ _)
    case h_3 => exact .ite (.refl _) (walk _ _)
    case h_4 =>
      cases a.sequence? <;> cases b.sequence?
      case some.some s t => exact walk s t
      all_goals exact .refl _

/-- The computation comes to an end with this answer, and has no other with any fuel. -/
structure Yields (st : Store Value) (c : ℕ → Demand Value A) (r : A) : Prop where
  settles : Settles st c r
  only : ∀ fuel st₁, Leads st st₁ → ∀ r' st₂, c fuel st₁ = some (r', st₂) → r' = r

theorem Settles.yields {st : Store Value} {c : ℕ → Demand Value A} {r : A} (h : Settles st c r)
    (mono : ∀ m n, m ≤ n → Extends (c m) (c n)) : Yields st c r := by
  refine ⟨h, fun fuel st₁ leads r' st₂ done => ?_⟩
  obtain ⟨N, run⟩ := h
  obtain ⟨st₃, settled, -⟩ := run (max N fuel) (Nat.le_max_left ..) st₁ leads
  have more := mono fuel (max N fuel) (Nat.le_max_right ..) st₁ _ done
  exact (Prod.mk.inj (Option.some.inj (more.symm.trans settled))).1

end Persistent.Value
