import Persistent.Proofs.Value.Settling
import Persistent.Value.Sequence

/-!
What a computation makes, if it makes anything: from a sane store it leads to a sane one, and its
answer is as stated there.
-/

set_option autoImplicit false

namespace Persistent.Value

variable [Hasher]

/-- From `st` on, whatever the computation answers is as stated, in the store it leads to. -/
def Makes {A : Type} (st : Store Value) (c : Demand Value A) (P : Store Value → A → Prop) : Prop :=
  ∀ st₁, Leads st st₁ → ∀ a st₂, c st₁ = some (a, st₂) → Leads st₁ st₂ ∧ P st₂ a

/-- The value is valid in the store. -/
def In (st : Store Value) (v : Value) : Prop :=
  v.Valid st.cells.size

theorem In.later {st st' : Store Value} {v : Value} (h : In st v) (leads : Leads st st') :
    In st' v :=
  Valid.later h leads.later

theorem Leads.refl {st : Store Value} (sane : Sane st) : Leads st st :=
  ⟨sane, .refl st⟩

section Makes

variable {A B : Type} {st : Store Value} {c : Demand Value A} {P : Store Value → A → Prop}

theorem makes_pure {a : A} (h : ∀ st₁, Leads st st₁ → P st₁ a) : Makes st (pure a) P := by
  intro st₁ leads b st₂ done
  cases done
  exact ⟨.refl leads.sane, h st₁ leads⟩

theorem Makes.later (h : Makes st c P) {st' : Store Value} (leads : Leads st st') :
    Makes st' c P :=
  fun st₁ leads₁ => h st₁ (leads.trans leads₁)

theorem makes_exhausted : Makes st (Demand.exhausted : Demand Value A) P := by
  intro st₁ _ a st₂ done
  cases done

theorem Makes.bind (h : Makes st c P) {f : A → Demand Value B} {Q : Store Value → B → Prop}
    (next : ∀ st₁, Leads st st₁ → ∀ a, P st₁ a → Makes st₁ (f a) Q) : Makes st (c >>= f) Q := by
  intro st₁ leads b st₂ done
  obtain ⟨a, st₃, first, second⟩ := of_bind done
  obtain ⟨leads₃, made⟩ := h st₁ leads a st₃ first
  obtain ⟨leads₂, made'⟩ :=
    next st₃ (leads.trans leads₃) a made st₃ (.refl leads₃.sane) b st₂ second
  exact ⟨leads₃.trans leads₂, made'⟩

theorem Makes.imp (h : Makes st c P) {Q : Store Value → A → Prop}
    (weaker : ∀ st₁ a, P st₁ a → Q st₁ a) : Makes st c Q := by
  intro st₁ leads a st₂ done
  obtain ⟨leads₂, made⟩ := h st₁ leads a st₂ done
  exact ⟨leads₂, weaker st₂ a made⟩

end Makes

/-- As `Makes`, of a computation that may fail. -/
def Performs {A : Type} (st : Store Value) (c : Action A) (P : Store Value → A → Prop) : Prop :=
  Makes st c.run fun st₁ r => ∀ a, r = .ok a → P st₁ a

section Performs

variable {A B : Type} {st : Store Value} {c : Action A} {P : Store Value → A → Prop}

theorem performs_pure {a : A} (h : ∀ st₁, Leads st st₁ → P st₁ a) : Performs st (pure a) P :=
  makes_pure fun st₁ leads b same => by
    cases same
    exact h st₁ leads

theorem performs_throw (fault : Fault) : Performs st (throw fault : Action A) P :=
  makes_pure fun _ _ _ same => nomatch same

theorem performs_lift {d : Demand Value A} (h : Makes st d P) :
    Performs st (liftM d : Action A) P := by
  intro st₁ leads r st₂ done
  obtain ⟨⟨a, st₃⟩, first, second⟩ := Option.bind_eq_some_iff.1 done
  cases second
  obtain ⟨leads₂, made⟩ := h st₁ leads a st₂ first
  refine ⟨leads₂, fun b same => ?_⟩
  cases same
  exact made

theorem performs_except {r : Except Fault A} (h : ∀ a, r = .ok a → ∀ st₁, Leads st st₁ → P st₁ a) :
    Performs st (liftM r : Action A) P := by
  cases r with
  | error fault => exact performs_throw fault
  | ok a => exact performs_pure (h a rfl)

theorem Performs.bind (h : Performs st c P) {f : A → Action B} {Q : Store Value → B → Prop}
    (next : ∀ st₁, Leads st st₁ → ∀ a, P st₁ a → Performs st₁ (f a) Q) :
    Performs st (c >>= f) Q := by
  refine Makes.bind h fun st₁ leads r made => ?_
  cases r with
  | error fault => exact makes_pure fun _ _ _ same => nomatch same
  | ok a => exact next st₁ leads a (made a rfl)

/-- What is made of the answer, where what is known of the answer stays true. -/
theorem performs_returns {d : Demand Value A} {R : A → Prop} (h : Makes st d fun _ a => R a)
    {f : A → B} {Q : Store Value → B → Prop}
    (made : ∀ st₁, Leads st st₁ → ∀ a, R a → Q st₁ (f a)) :
    Performs st (do return f (← d)) Q :=
  (performs_lift h).bind fun _ leads a known =>
    performs_pure fun st₂ leads₂ => made st₂ (leads.trans leads₂) a known

end Performs

section Looks

variable {st : Store Value} {s : Seq Value}

/-- What a look at the first cell of a valid sequence can show, and what the sequence reads then. -/
inductive Looked (st : Store Value) (s : Seq Value) (st₁ : Store Value) :
    Option (Value × Seq Value) → Prop
  | ended (only : ∀ ys, Seq.Reads st s ys → ys = []) : Looked st s st₁ none
  | item {x : Value} {rest : Seq Value} (first : In st₁ x) (behind : In st₁ (.seq rest))
      (only : ∀ ys, Seq.Reads st s ys → ∃ zs, ys = x :: zs ∧ Seq.Reads st₁ rest zs) :
      Looked st s st₁ (some (x, rest))

theorem makes_look (hs : In st (.seq s)) : Makes st s.look (Looked st s) := by
  intro st₁ leads r st₂ done
  have same : s.uncons st₁ = (r, st₂) := Option.some.inj done
  have leads₂ := leads_uncons leads.sane s
  have shown (x : Value) (rest : Seq Value) (here : (s.uncons st₁).1 = some (x, rest)) :=
    valid_uncons leads.sane (hs.later leads) here
  have reads (ys : List Value) (h : Seq.Reads st s ys) : Seq.Reads st₁ s ys :=
    leads.later.reads s ys h
  cases r with
  | none =>
    rw [same] at leads₂
    refine ⟨leads₂, .ended fun ys h => ?_⟩
    cases ys with
    | nil => rfl
    | cons y ys =>
      obtain ⟨rest, some, -⟩ := Seq.uncons_cons leads.sane.intact (reads _ h)
      rw [same] at some
      cases some
  | some step =>
    obtain ⟨x, rest⟩ := step
    rw [same] at leads₂ shown
    refine ⟨leads₂, .item (shown x rest rfl).1 (shown x rest rfl).2 fun ys h => ?_⟩
    cases ys with
    | nil =>
      have none := Seq.uncons_nil (reads _ h)
      rw [same] at none
      cases none
    | cons y ys =>
      obtain ⟨rest', some, behind⟩ := Seq.uncons_cons leads.sane.intact (reads _ h)
      rw [same] at some behind
      cases some
      exact ⟨ys, rfl, behind⟩

theorem makes_rest (hs : In st (.seq s)) :
    Makes st s.rest fun st₁ rest => In st₁ (.seq rest) := by
  refine (makes_look hs).bind fun st₁ leads r looked => ?_
  cases looked with
  | ended => exact makes_pure fun _ _ => .seq (fun x hx => nomatch hx) nofun
  | item _ behind => exact makes_pure fun _ leads₂ => behind.later leads₂

theorem makes_lazily {answer : ℕ → Option Value} (valid : ∀ k x, answer k = some x → In st x) :
    Makes st (Seq.lazily answer) fun st₁ s => In st₁ (.seq s) := by
  intro st₁ leads s st₂ done
  cases done
  refine ⟨leads_wrap leads.sane fun k x answered =>
    ((valid k x answered).later leads).mono (Nat.le_succ _), ?_⟩
  refine .seq (fun x hx => nomatch hx) ?_
  rintro _ ⟨⟩
  exact Nat.lt_of_lt_of_eq (Nat.lt_succ_self _) (Store.wrap_size ..).symm

theorem makes_toList (hs : In st (.seq s)) (fuel : ℕ) :
    Makes st (s.toList fuel) fun st₁ xs =>
      (∀ x ∈ xs, In st₁ x) ∧ ∀ ys, Seq.Reads st s ys → ys = xs := by
  induction fuel generalizing st s with
  | zero => exact makes_exhausted
  | succ fuel ih =>
    refine (makes_look hs).bind fun st₁ leads r looked => ?_
    cases looked with
    | ended only => exact makes_pure fun _ _ => ⟨fun x hx => (nomatch hx), only⟩
    | @item x rest first behind only =>
      refine (ih behind).bind fun st₂ leads₂ xs made => makes_pure fun st₃ leads₃ => ?_
      refine ⟨List.forall_mem_cons.2 ⟨(first.later leads₂).later leads₃, fun y hy =>
        (made.1 y hy).later leads₃⟩, fun ys reads => ?_⟩
      obtain ⟨zs, rfl, reads'⟩ := only ys reads
      rw [made.2 zs reads']

theorem makes_mapM {A B : Type} {P : A → B → Prop} {look : A → Demand Value B} {xs : List A}
    (each : ∀ x ∈ xs, Makes st (look x) fun _ y => P x y) :
    Makes st (xs.mapM look) fun _ ys => List.Forall₂ P xs ys := by
  induction xs generalizing st with
  | nil => exact makes_pure fun _ _ => .nil
  | cons x xs ih =>
    rw [List.mapM_cons]
    refine (each x List.mem_cons_self).bind fun st₁ leads y hy => ?_
    have others := ih fun x' hx' => (each x' (List.mem_cons_of_mem _ hx')).later leads
    exact others.bind fun _ _ ys hys => makes_pure fun _ _ => .cons hy hys

end Looks

end Persistent.Value
