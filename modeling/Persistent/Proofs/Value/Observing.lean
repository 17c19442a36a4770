import Persistent.Proofs.Value.Deciding

/-!
Looking at all of a value, metadata apart, part by part. Of a finite value this comes to an end.
-/

set_option autoImplicit false

namespace Persistent.Value

theorem observeMetadata_eq (depth : ℕ) (look : Value → Demand Value Value)
    (metadata : Option Metadata) : observeMetadata {} depth look metadata = pure metadata := by
  cases metadata with
  | none => rfl
  | some m =>
    cases m
    rfl

theorem observe_flat {v : Value} (h : v.isFlat = true) (fuel depth : ℕ) :
    observe {} (fuel + 1) depth v = pure v := by
  cases v <;> cases h <;> try rfl
  case symbol.refl s =>
    rw [observe]
    rw [observeMetadata_eq]
    rfl

theorem observe_list (fuel depth : ℕ) (l : ConsList Metadata Value) :
    observe {} (fuel + 1) depth (.list l) =
      observeShown {} (observe {} fuel (depth + 1)) l.items >>= fun items =>
        pure (.list { l with items }) := by
  rw [observe]
  dsimp only
  rw [observeMetadata_eq]
  rfl

theorem observe_vector (fuel depth : ℕ) (v : Vector Metadata Value) :
    observe {} (fuel + 1) depth (.vector v) =
      observeShown {} (observe {} fuel (depth + 1)) v.toList >>= fun items =>
        pure (.vector { (Vector.ofList items : Vector Metadata Value) with
          metadata := v.metadata }) := by
  rw [observe]
  dsimp only
  rw [observeMetadata_eq]
  rfl

theorem observe_set (fuel depth : ℕ) (s : Set Metadata Value) :
    observe {} (fuel + 1) depth (.set s) =
      observeShown {} (observe {} fuel (depth + 1)) s.elements >>= fun items =>
        pure (.set { s with toTable := s.toTable.refill (items.map (·, ())) }) := by
  rw [observe]
  dsimp only
  rw [observeMetadata_eq]
  rfl

/-- Looks at the key and at the value of an entry. -/
def observeEntry (look : Value → Demand Value Value) (e : Value × Value) :
    Demand Value (Value × Value) := do
  return (← look e.1, ← look e.2)

theorem observe_map (fuel depth : ℕ) (m : Map Metadata Value Value) :
    observe {} (fuel + 1) depth (.map m) =
      observeShown {} (observeEntry (observe {} fuel (depth + 1))) m.toList >>= fun entries =>
        pure (.map { m with toTable := m.toTable.refill entries }) := by
  rw [observe]
  dsimp only
  rw [observeMetadata_eq]
  rw [pure_bind, observeEntries, bind_assoc]
  rfl

theorem observe_seq (fuel depth : ℕ) (s : Seq Value) :
    observe {} (fuel + 1) depth (.seq s) =
      s.toList fuel >>= fun items =>
        observeShown {} (observe {} fuel (depth + 1)) items >>= fun us =>
          pure (.seq (s.refill us)) := by
  rw [observe]
  rfl

variable [Hasher]

theorem toList_of_reads {s : Seq Value} {xs : List Value} {fuel : ℕ} (enough : xs.length < fuel)
    {st : Store Value} (sane : Sane st) (reads : Seq.Reads st s xs) :
    ∃ st', s.toList fuel st = some (xs, st') ∧ Leads st st' := by
  induction xs generalizing s fuel st with
  | nil =>
    obtain ⟨fuel, rfl⟩ := Nat.exists_eq_succ_of_ne_zero (Nat.ne_of_gt enough)
    rw [Seq.toList]
    exact look_nil sane reads _
  | cons x xs ih =>
    obtain ⟨fuel, rfl⟩ := Nat.exists_eq_succ_of_ne_zero (Nat.ne_of_gt (Nat.zero_lt_of_lt enough))
    rw [Seq.toList]
    obtain ⟨rest, st₁, looked, first, behind⟩ := look_cons sane reads _
    obtain ⟨st', items, others⟩ := ih (Nat.lt_of_succ_lt_succ enough) first.sane behind
    exact ⟨st', looked.trans (bind_of_eq items), first.trans others⟩

theorem toList_settles {st : Store Value} {s : Seq Value} {xs : List Value}
    (reads : Seq.Reads st s xs) : Settles st (fun fuel => s.toList fuel) xs :=
  ⟨xs.length + 1, fun _ enough _ leads =>
    toList_of_reads enough leads.sane (leads.later.reads s xs reads)⟩

theorem mapM_settles {A B : Type} {st : Store Value} {look : ℕ → A → Demand Value B}
    {xs : List A} {ys : List B}
    (each : List.Forall₂ (fun x y => Settles st (fun fuel => look fuel x) y) xs ys) :
    Settles st (fun fuel => xs.mapM (look fuel)) ys := by
  induction each with
  | nil => exact settles_pure st []
  | @cons x y xs ys first _ ih =>
    have step (fuel : ℕ) : (x :: xs).mapM (look fuel) =
        look fuel x >>= fun y => xs.mapM (look fuel) >>= fun ys => pure (y :: ys) :=
      List.mapM_cons
    rw [funext step]
    exact first.bind (ih.bind (settles_pure st (y :: ys)))

theorem observeShown_settles {A : Type} {st : Store Value} {look : ℕ → A → Demand Value A}
    {xs ys : List A}
    (each : List.Forall₂ (fun x y => Settles st (fun fuel => look fuel x) y) xs ys) :
    Settles st (fun fuel => observeShown {} (look fuel) xs) ys := by
  have all : ys ++ xs.drop ys.length = ys := by
    rw [← each.length_eq, List.drop_length, List.append_nil]
  have done := (mapM_settles each).bind (f := fun _ seen => pure (seen ++ xs.drop seen.length))
    (settles_pure st (ys ++ xs.drop ys.length))
  rw [all] at done
  exact done

theorem observeEntry_settles {st : Store Value} {look : ℕ → Value → Demand Value Value}
    {e f : Value × Value} (key : Settles st (fun fuel => look fuel e.1) f.1)
    (value : Settles st (fun fuel => look fuel e.2) f.2) :
    Settles st (fun fuel => observeEntry (look fuel) e) f :=
  key.bind (value.bind (settles_pure st f))

/-- From every depth, looking at all of `v` comes to `u`. -/
def Seen (st : Store Value) (v u : Value) : Prop :=
  ∀ depth, Settles st (fun fuel => observe {} fuel depth v) u

section Seen

variable {st : Store Value} {us : List Value}

theorem seen_flat {v : Value} (flat : v.isFlat = true) : Seen st v v :=
  fun depth => .succ (fun fuel => observe_flat flat fuel depth) (settles_pure st v)

theorem seen_items {xs : List Value} (items : List.Forall₂ (Seen st) xs us) (depth : ℕ) :
    Settles st (fun fuel => observeShown {} (observe {} fuel depth) xs) us :=
  observeShown_settles (items.imp fun _ _ h => h depth)

theorem seen_list {l : ConsList Metadata Value} (items : List.Forall₂ (Seen st) l.items us) :
    Seen st (.list l) (.list { l with items := us }) :=
  fun depth => .succ (fun fuel => observe_list fuel depth l)
    ((seen_items items (depth + 1)).bind (settles_pure st _))

theorem seen_vector {v : Vector Metadata Value} (items : List.Forall₂ (Seen st) v.toList us) :
    Seen st (.vector v)
      (.vector { (Vector.ofList us : Vector Metadata Value) with metadata := v.metadata }) :=
  fun depth => .succ (fun fuel => observe_vector fuel depth v)
    ((seen_items items (depth + 1)).bind (settles_pure st _))

theorem seen_seq {s : Seq Value} {xs : List Value} (reads : Seq.Reads st s xs)
    (items : List.Forall₂ (Seen st) xs us) : Seen st (.seq s) (.seq (s.refill us)) :=
  fun depth => .succ (fun fuel => observe_seq fuel depth s)
    ((toList_settles reads).bind ((seen_items items (depth + 1)).bind (settles_pure st _)))

theorem seen_set {s : Set Metadata Value} (elements : List.Forall₂ (Seen st) s.elements us) :
    Seen st (.set s) (.set { s with toTable := s.toTable.refill (us.map (·, ())) }) :=
  fun depth => .succ (fun fuel => observe_set fuel depth s)
    ((seen_items elements (depth + 1)).bind (settles_pure st _))

/-- What is seen of the key and of the value of an entry. -/
def SeenEntry (st : Store Value) (e f : Value × Value) : Prop :=
  Seen st e.1 f.1 ∧ Seen st e.2 f.2

theorem seen_map {m : Map Metadata Value Value} {entries : List (Value × Value)}
    (seen : List.Forall₂ (SeenEntry st) m.toList entries) :
    Seen st (.map m) (.map { m with toTable := m.toTable.refill entries }) := by
  intro depth
  have each := seen.imp fun e f h => observeEntry_settles (h.1 (depth + 1)) (h.2 (depth + 1))
  exact .succ (fun fuel => observe_map fuel depth m)
    ((observeShown_settles each).bind (settles_pure st _))

end Seen

theorem observe_settles {st : Store Value} (sane : Sane st) {v w : Value} (means : Means st v w)
    (valid : v.Valid st.cells.size) : ∃ u, Seen st v u := by
  induction size : sizeOf w using Nat.strongRecOn generalizing v w with
  | ind N ih =>
    subst size
    -- known parts mean themselves
    have part {x : Value} (known : x.Known) (smaller : sizeOf x < sizeOf w) : ∃ u, Seen st x u :=
      ih _ smaller (means_self st known) (known.mono (Nat.zero_le _)) rfl
    cases means with
    | flat h => exact ⟨v, seen_flat h⟩
    | @spine _ _ s xs ys sequence reads spine items =>
      have each : ∀ x ∈ xs, ∃ u, Seen st x u := by
        intro x hx
        obtain ⟨y, hy, h⟩ := Matches.exists_mem ⟨_, items, .refl _⟩ hx
        exact ih _ (sizeOf_spine spine hy) h
          (valid_reads sane reads (valid_sequence valid sequence) x hx) rfl
      obtain ⟨us, shown⟩ := exists_forall₂ each
      cases v with
      | list l =>
        cases sequence
        cases Seq.reads_ofList_eq reads
        exact ⟨_, seen_list shown⟩
      | vector v =>
        cases sequence
        cases Seq.reads_ofList_eq reads
        exact ⟨_, seen_vector shown⟩
      | seq s =>
        cases sequence
        exact ⟨_, seen_seq reads shown⟩
      | _ => cases sequence
    | @map m n keys values =>
      obtain ⟨keyed, valids⟩ := valid_entries valid
      have each : ∀ e ∈ m.toList, ∃ f, SeenEntry st e f := by
        intro e he
        obtain ⟨f, hf, same, means⟩ :=
          Matches.exists_mem ⟨_, forall₂_entries keys values, .refl _⟩ he
        have smaller : sizeOf f.1 + sizeOf f.2 < sizeOf (Value.map n) := by
          have := Map.sizeOf_mem hf
          rw [map.sizeOf_spec]
          omega
        obtain ⟨key, seen⟩ := part (keyed.keys e he) (by rw [same]; omega)
        obtain ⟨value, seen'⟩ := ih _ (by omega) means (valids e he) rfl
        exact ⟨(key, value), seen, seen'⟩
      obtain ⟨fs, shown⟩ := exists_forall₂ each
      exact ⟨_, seen_map shown⟩
    | @set s =>
      have each : ∀ x ∈ s.elements, ∃ u, Seen st x u := by
        intro x hx
        have smaller : sizeOf x < sizeOf (Value.set s) := by
          have := Set.sizeOf_mem hx
          rw [set.sizeOf_spec]
          omega
        obtain ⟨e, he, rfl⟩ := List.mem_map.1 hx
        exact part ((valid_elements valid).keys e he) smaller
      obtain ⟨us, shown⟩ := exists_forall₂ each
      exact ⟨_, seen_set shown⟩

end Persistent.Value
