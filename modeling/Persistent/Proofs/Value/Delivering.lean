import Persistent.Proofs.Value.Laws

/-!
Computations that come to one answer. Fuel is only ever a reason to give up: an answer that is
given with some fuel is given with any more of it, so from some fuel on there is one answer and one
store behind it. An answer that names new cells depends on that store, and is stated in it.
-/

set_option autoImplicit false

namespace Persistent.Value

variable {A B : Type}

/-- From some fuel on the computation answers `r` and leaves the store `st'`. -/
def Comes (c : ℕ → Demand Value A) (st : Store Value) (r : A) (st' : Store Value) : Prop :=
  ∃ N, ∀ fuel ≥ N, c fuel st = some (r, st')

/-- More fuel does not change an answer. -/
def Stable (c : ℕ → Demand Value A) : Prop :=
  ∀ m n, m ≤ n → Extends (c m) (c n)

theorem Comes.unique {c : ℕ → Demand Value A} {st st₁ st₂ : Store Value} {r s : A}
    (h : Comes c st r st₁) (k : Comes c st s st₂) : r = s ∧ st₁ = st₂ := by
  obtain ⟨N, run⟩ := h
  obtain ⟨M, run'⟩ := k
  have same := (run (max N M) (Nat.le_max_left N M)).symm.trans (run' _ (Nat.le_max_right N M))
  exact Prod.mk.inj (Option.some.inj same)

theorem Comes.bind {c : ℕ → Demand Value A} {f : ℕ → A → Demand Value B}
    {st st₁ st₂ : Store Value} {a : A} {b : B} (h : Comes c st a st₁)
    (k : Comes (fun fuel => f fuel a) st₁ b st₂) :
    Comes (fun fuel => c fuel >>= f fuel) st b st₂ := by
  obtain ⟨N, first⟩ := h
  obtain ⟨M, second⟩ := k
  exact ⟨max N M, fun fuel enough =>
    (bind_of_eq (first fuel (by omega))).trans (second fuel (by omega))⟩

theorem toList_extends {m n : ℕ} (le : m ≤ n) (s : Seq Value) :
    Extends (s.toList m) (s.toList n) := by
  induction m generalizing n s with
  | zero => exact fun _ _ done => nomatch done
  | succ m ih =>
    obtain ⟨n, rfl⟩ := Nat.exists_eq_add_of_le' (Nat.le_trans (Nat.le_add_left 1 m) le)
    refine (Extends.refl s.look).bind fun r => ?_
    cases r with
    | none => exact .refl _
    | some step => exact (ih (Nat.le_of_succ_le_succ le) step.2).bind fun _ => .refl _

theorem mapM_extends {look look' : A → Demand Value B} (each : ∀ x, Extends (look x) (look' x))
    (xs : List A) : Extends (xs.mapM look) (xs.mapM look') := by
  induction xs with
  | nil => exact .refl _
  | cons x xs ih =>
    rw [List.mapM_cons, List.mapM_cons]
    exact (each x).bind fun _ => ih.bind fun _ => .refl _

theorem observeShown_extends {look look' : A → Demand Value A}
    (each : ∀ x, Extends (look x) (look' x)) (xs : List A) :
    Extends (observeShown {} look xs) (observeShown {} look' xs) :=
  (mapM_extends each xs).bind fun _ => .refl _

theorem observe_extends {m n : ℕ} (le : m ≤ n) (depth : ℕ) (v : Value) :
    Extends (observe {} m depth v) (observe {} n depth v) := by
  induction m generalizing n depth v with
  | zero => exact fun _ _ done => nomatch done
  | succ m ih =>
    obtain ⟨n, rfl⟩ := Nat.exists_eq_add_of_le' (Nat.le_trans (Nat.le_add_left 1 m) le)
    have less := Nat.le_of_succ_le_succ le
    have parts (xs : List Value) :
        Extends (observeShown {} (observe {} m (depth + 1)) xs)
          (observeShown {} (observe {} n (depth + 1)) xs) :=
      observeShown_extends (ih less (depth + 1)) xs
    by_cases flat : v.isFlat = true
    · rw [observe_flat flat, observe_flat flat]
      exact .refl _
    cases v with
    | list l =>
      rw [observe_list, observe_list]
      exact (parts l.items).bind fun _ => .refl _
    | vector v =>
      rw [observe_vector, observe_vector]
      exact (parts v.toList).bind fun _ => .refl _
    | set s =>
      rw [observe_set, observe_set]
      exact (parts s.elements).bind fun _ => .refl _
    | map m =>
      rw [observe_map, observe_map]
      have entry (e : Value × Value) := (ih less (depth + 1) e.1).bind fun k =>
        (ih less (depth + 1) e.2).bind fun x => Extends.refl (pure (k, x))
      exact (observeShown_extends entry m.toList).bind fun _ => .refl _
    | seq s =>
      rw [observe_seq, observe_seq]
      exact (toList_extends less s).bind fun xs => (parts xs).bind fun _ => .refl _
    | _ => exact absurd rfl flat

variable [Hasher]

/-- In `st` and in every later store the computation comes to an answer, which is as stated in the
store that it leaves. -/
def Delivers (st : Store Value) (c : ℕ → Demand Value A) (P : Store Value → A → Prop) : Prop :=
  ∀ st₁, Leads st st₁ → ∃ r st₂, Comes c st₁ r st₂ ∧ Leads st₁ st₂ ∧ P st₂ r

/-- As `Delivers`, of a computation that may fail. -/
abbrev Does (st : Store Value) (c : ℕ → Action A) (P : Store Value → Except Fault A → Prop) :
    Prop :=
  Delivers st (fun fuel => (c fuel).run) P

/-- In `st` and in every later store the computation comes to this one answer. -/
abbrev Gives (st : Store Value) (c : ℕ → Action A) (r : Except Fault A) : Prop :=
  Does st c fun _ r' => r' = r

theorem Settles.delivers {st : Store Value} {c : ℕ → Demand Value A} {r : A}
    (h : Settles st c r) (stable : Stable c) : Delivers st c fun _ a => a = r := by
  obtain ⟨N, run⟩ := h
  intro st₁ leads
  obtain ⟨st₂, done, leads₂⟩ := run N (Nat.le_refl N) st₁ leads
  exact ⟨r, st₂, ⟨N, fun fuel enough => stable N fuel enough st₁ _ done⟩, leads₂, rfl⟩

section Delivers

variable {st : Store Value} {c : ℕ → Demand Value A} {P : Store Value → A → Prop}

theorem delivers_pure {a : A} (h : ∀ st₁, Leads st st₁ → P st₁ a) :
    Delivers st (fun _ => pure a) P :=
  fun st₁ leads => ⟨a, st₁, ⟨0, fun _ _ => rfl⟩, .refl leads.sane, h st₁ leads⟩

theorem Delivers.later (h : Delivers st c P) {st' : Store Value} (leads : Leads st st') :
    Delivers st' c P :=
  fun st₁ leads₁ => h st₁ (leads.trans leads₁)

theorem Delivers.imp (h : Delivers st c P) {Q : Store Value → A → Prop}
    (weaker : ∀ st₁, Leads st st₁ → ∀ a, P st₁ a → Q st₁ a) : Delivers st c Q := by
  intro st₁ leads
  obtain ⟨r, st₂, comes, leads₂, made⟩ := h st₁ leads
  exact ⟨r, st₂, comes, leads₂, weaker st₂ (leads.trans leads₂) r made⟩

theorem Delivers.and (h : Delivers st c P) {Q : Store Value → A → Prop}
    (k : ∀ fuel, Makes st (c fuel) Q) : Delivers st c fun st₁ a => P st₁ a ∧ Q st₁ a := by
  intro st₁ leads
  obtain ⟨r, st₂, ⟨N, run⟩, leads₂, made⟩ := h st₁ leads
  exact ⟨r, st₂, ⟨N, run⟩, leads₂, made, (k N st₁ leads r st₂ (run N (Nat.le_refl N))).2⟩

theorem Delivers.bind (h : Delivers st c P) {f : ℕ → A → Demand Value B}
    {Q : Store Value → B → Prop} (next : ∀ st₁, Leads st st₁ → ∀ a, P st₁ a →
      Delivers st₁ (fun fuel => f fuel a) Q) : Delivers st (fun fuel => c fuel >>= f fuel) Q := by
  intro st₁ leads
  obtain ⟨a, st₂, first, leads₂, made⟩ := h st₁ leads
  obtain ⟨b, st₃, second, leads₃, made'⟩ :=
    next st₂ (leads.trans leads₂) a made st₂ (.refl leads₂.sane)
  exact ⟨b, st₃, first.bind second, leads₂.trans leads₃, made'⟩

theorem Delivers.returns (h : Delivers st c P) {f : A → B} {Q : Store Value → B → Prop}
    (made : ∀ st₁, Leads st st₁ → ∀ a, P st₁ a → ∀ st₂, Leads st₁ st₂ → Q st₂ (f a)) :
    Delivers st (fun fuel => do return f (← c fuel)) Q :=
  h.bind fun st₁ leads a known => delivers_pure fun st₂ leads₂ => made st₁ leads a known st₂ leads₂

/-- One unit of fuel goes into the first step. -/
theorem Delivers.succ {d : ℕ → Demand Value A} (h : Delivers st c P)
    (step : ∀ fuel, d (fuel + 1) = c fuel) : Delivers st d P := by
  intro st₁ leads
  obtain ⟨r, st₂, ⟨N, run⟩, rest⟩ := h st₁ leads
  refine ⟨r, st₂, ⟨N + 1, fun fuel enough => ?_⟩, rest⟩
  obtain ⟨fuel, rfl⟩ := Nat.exists_eq_add_of_le' (Nat.le_trans (Nat.le_add_left 1 N) enough)
  rw [step]
  exact run fuel (by omega)

end Delivers

section Does

variable {st : Store Value} {c : ℕ → Action A} {P : Store Value → Except Fault A → Prop}

theorem does_pure {a : A} (h : ∀ st₁, Leads st st₁ → P st₁ (.ok a)) :
    Does st (fun _ => pure a) P :=
  delivers_pure h

theorem does_throw {fault : Fault} (h : ∀ st₁, Leads st st₁ → P st₁ (.error fault)) :
    Does st (fun _ => (throw fault : Action A)) P :=
  delivers_pure h

theorem does_except {r : Except Fault A} (h : ∀ st₁, Leads st st₁ → P st₁ r) :
    Does st (fun _ => (liftM r : Action A)) P := by
  cases r with
  | error fault => exact does_throw h
  | ok a => exact does_pure h

theorem does_lift {d : ℕ → Demand Value A} {R : Store Value → A → Prop} (h : Delivers st d R) :
    Does st (fun fuel => (liftM (d fuel) : Action A)) fun st₁ r => ∃ a, r = .ok a ∧ R st₁ a := by
  intro st₁ leads
  obtain ⟨a, st₂, ⟨N, run⟩, leads₂, made⟩ := h st₁ leads
  refine ⟨.ok a, st₂, ⟨N, fun fuel enough => ?_⟩, leads₂, a, rfl, made⟩
  change (d fuel st₁ >>= fun x => some (Except.ok x.1, x.2)) = _
  rw [run fuel enough]
  rfl

theorem Does.bind (h : Does st c P) {f : ℕ → A → Action B} {Q : Store Value → Except Fault B → Prop}
    (next : ∀ st₁, Leads st st₁ → ∀ a, P st₁ (.ok a) → Does st₁ (fun fuel => f fuel a) Q)
    (fails : ∀ st₁, Leads st st₁ → ∀ fault, P st₁ (.error fault) →
      ∀ st₂, Leads st₁ st₂ → Q st₂ (.error fault)) :
    Does st (fun fuel => c fuel >>= f fuel) Q := by
  refine Delivers.bind h fun st₁ leads r made => ?_
  cases r with
  | error fault => exact delivers_pure (fails st₁ leads fault made)
  | ok a => exact next st₁ leads a made

theorem Gives.unique {r s : Except Fault A} (sane : Sane st) (h : Gives st c r)
    (k : Gives st c s) : r = s := by
  obtain ⟨_, _, comes, -, rfl⟩ := h st (.refl sane)
  obtain ⟨_, _, comes', -, rfl⟩ := k st (.refl sane)
  exact (comes.unique comes').1

/-- What is done with an answer that is always given. -/
theorem Delivers.andThen {d : ℕ → Demand Value A} {R : Store Value → A → Prop}
    (h : Delivers st d R) {f : ℕ → A → Action B} {Q : Store Value → Except Fault B → Prop}
    (next : ∀ st₁, Leads st st₁ → ∀ a, R st₁ a → Does st₁ (fun fuel => f fuel a) Q) :
    Does st (fun fuel => (liftM (d fuel) : Action A) >>= f fuel) Q := by
  refine (does_lift h).bind ?_ ?_
  · intro st₁ leads b answered
    obtain ⟨a, ⟨⟩, made⟩ := answered
    exact next st₁ leads b made
  · intro st₁ leads fault answered
    obtain ⟨a, ⟨⟩, -⟩ := answered

theorem Delivers.answers {d : ℕ → Demand Value A} {R : Store Value → A → Prop}
    (h : Delivers st d R) {f : A → B} {Q : Store Value → Except Fault B → Prop}
    (made : ∀ st₁, Leads st st₁ → ∀ a, R st₁ a → ∀ st₂, Leads st₁ st₂ → Q st₂ (.ok (f a))) :
    Does st (fun fuel => do return f (← (d fuel : Demand Value A))) Q :=
  h.andThen fun st₁ leads a known => does_pure (made st₁ leads a known)

end Does

/-! Looking at all of a value. -/

section Whole

variable {st : Store Value} (sane : Sane st)
include sane

theorem realize_delivers {v : Value} (whole : Whole st v) :
    Delivers st (fun fuel => v.realize fuel) fun _ u => Shows st v u := by
  obtain ⟨w, means, -⟩ := whole.exists_means sane
  obtain ⟨u, shows, settles⟩ := realize_settles sane means whole.valid
  refine (settles.delivers fun _ _ le => observe_extends le 0 v).imp ?_
  rintro _ _ _ rfl
  exact shows

/-- A fault that quotes a key is thrown once the key has been looked at. -/
theorem invalidKey_does {v : Value} (whole : Whole st v) (kind : String) :
    Does st (fun fuel => (invalidKey fuel kind v : Action A)) fun _ r =>
      ∃ text, r = .error (.invalidKey kind text) := by
  have printed : Delivers st (fun fuel => v.print {} fuel) fun _ _ => True :=
    (realize_delivers sane whole).returns fun _ _ _ _ _ _ => trivial
  exact printed.andThen fun _ _ text _ => does_throw fun _ _ => ⟨text, rfl⟩

omit sane in
theorem toList_delivers {s : Seq Value} {xs : List Value} (reads : Seq.Reads st s xs) :
    Delivers st (fun fuel => s.toList fuel) fun _ ys => ys = xs :=
  (toList_settles reads).delivers fun _ _ le => toList_extends le s

end Whole

end Persistent.Value
