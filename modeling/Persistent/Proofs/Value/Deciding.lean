import Persistent.Proofs.Value.Settling

/-!
Equality of finite values comes to an end and answers whether their meanings are equal. The answer
does not depend on what has been looked at before, nor on the fuel once there is enough of it.
-/

set_option autoImplicit false

namespace Persistent.Value

def sort : Value → ℕ
  | .list _ | .vector _ | .seq _ => 1
  | .map _ => 2
  | .set _ => 3
  | _ => 0

theorem sort_of_flat {v : Value} (h : v.isFlat = true) : v.sort = 0 := by
  cases v <;> cases h <;> rfl

theorem sort_of_spine {v : Value} {spine : List Value × Option ℕ} (h : v.spine? = some spine) :
    v.sort = 1 := by
  cases v <;> first | rfl | cases h

theorem sequence_isSome (v : Value) : v.sequence?.isSome = (v.sort == 1) := by
  cases v <;> rfl

theorem sort_of_sequence {v : Value} {s : Seq Value} (h : v.sequence? = some s) : v.sort = 1 := by
  have some := sequence_isSome v
  rw [h] at some
  exact eq_of_beq some.symm

theorem Means.sort_eq {st : Store Value} {v w : Value} (h : Means st v w) : v.sort = w.sort := by
  cases h with
  | flat | set | map => rfl
  | spine sequence _ spine _ => rw [sort_of_sequence sequence, sort_of_spine spine]

/-- Entries with the same key, whose values have this meaning. -/
def SameKey (R : Value → Value → Prop) (e f : Value × Value) : Prop :=
  e.1 = f.1 ∧ R e.2 f.2

theorem forall₂_entries {R : Value → Value → Prop} {entries others : List (Value × Value)}
    (keys : entries.map (·.1) = others.map (·.1))
    (values : List.Forall₂ R (entries.map (·.2)) (others.map (·.2))) :
    List.Forall₂ (SameKey R) entries others := by
  induction entries generalizing others with
  | nil =>
    cases others with
    | nil => exact .nil
    | cons => cases keys
  | cons e entries ih =>
    cases others with
    | nil => cases keys
    | cons f others =>
      cases values with
      | cons h rest =>
        have parts := List.cons.inj keys
        exact .cons ⟨parts.1, h⟩ (ih parts.2 rest)

variable [Hasher]

/-- The comparison of two lists of known values. -/
def sameItems (xs ys : List Value) : Bool :=
  xs.length == ys.length && (xs.zip ys).all fun e => e.1 == e.2

theorem sameItems_cons (x y : Value) (xs ys : List Value) :
    sameItems (x :: xs) (y :: ys) = if (x == y) = true then sameItems xs ys else false := by
  unfold sameItems
  rw [List.zip_cons_cons, List.all_cons, List.length_cons, List.length_cons]
  cases (x == y) <;> simp

/-- Walking two sequences in step, given that each pair of items is settled. -/
theorem seqEqual_settles {same : ℕ → Value → Value → Demand Value Bool} {st : Store Value}
    {xs xs' ys ys' : List Value} (hx : List.Forall₂ (Means st) xs xs')
    (hy : List.Forall₂ (Means st) ys ys')
    (each : ∀ x x' y y', Means st x x' → Means st y y' → x' ∈ xs' → y' ∈ ys' →
      x ∈ xs → y ∈ ys → Settles st (fun fuel => same fuel x y) (x' == y')) :
    ∃ N, ∀ fuel ≥ N, ∀ walk > xs.length, ∀ st₁, Leads st st₁ → ∀ s t,
      Seq.Reads st₁ s xs → Seq.Reads st₁ t ys →
      ∃ st₂, Seq.equal (same fuel) walk s t st₁ = some (sameItems xs' ys', st₂) ∧
        Leads st₁ st₂ := by
  induction hx generalizing ys ys' with
  | nil =>
    refine ⟨0, fun fuel _ walk more st₁ leads s t reads reads' => ?_⟩
    obtain ⟨walk, rfl⟩ := Nat.exists_eq_succ_of_ne_zero (Nat.ne_of_gt more)
    rw [Seq.equal]
    obtain ⟨st₂, looked, first⟩ := look_nil leads.sane reads _
    rw [looked]
    have reads₂ := first.later.reads _ _ reads'
    cases hy with
    | nil =>
      obtain ⟨st₃, looked', second⟩ := look_nil first.sane reads₂ _
      exact ⟨st₃, looked', first.trans second⟩
    | cons =>
      obtain ⟨_, st₃, looked', second, -⟩ := look_cons first.sane reads₂ _
      exact ⟨st₃, looked', first.trans second⟩
  | @cons x x' xs xs' hx hxs ih =>
    cases hy with
    | nil =>
      refine ⟨0, fun fuel _ walk more st₁ leads s t reads reads' => ?_⟩
      obtain ⟨walk, rfl⟩ := Nat.exists_eq_succ_of_ne_zero (Nat.ne_of_gt (Nat.zero_lt_of_lt more))
      rw [Seq.equal]
      obtain ⟨_, st₂, looked, first, -⟩ := look_cons leads.sane reads _
      obtain ⟨st₃, looked', second⟩ := look_nil first.sane (first.later.reads _ _ reads') _
      exact ⟨st₃, looked.trans looked', first.trans second⟩
    | @cons y y' ys ys' hy hys =>
      obtain ⟨N, run⟩ := each x x' y y' hx hy List.mem_cons_self List.mem_cons_self
        List.mem_cons_self List.mem_cons_self
      obtain ⟨M, walks⟩ := ih hys fun u u' w w' mu mw hu' hw' hu hw =>
        each u u' w w' mu mw (List.mem_cons_of_mem _ hu') (List.mem_cons_of_mem _ hw')
          (List.mem_cons_of_mem _ hu) (List.mem_cons_of_mem _ hw)
      refine ⟨max N M, fun fuel enough walk more st₁ leads s t reads reads' => ?_⟩
      obtain ⟨walk, rfl⟩ := Nat.exists_eq_succ_of_ne_zero (Nat.ne_of_gt (Nat.zero_lt_of_lt more))
      obtain ⟨s', st₂, looked, first, behind⟩ := look_cons leads.sane reads _
      obtain ⟨t', st₃, looked', second, behind'⟩ :=
        look_cons first.sane (first.later.reads _ _ reads') _
      have both := first.trans second
      obtain ⟨st₄, answer, third⟩ := run fuel (by omega) st₃ (leads.trans both)
      have ran : Seq.equal (same fuel) (walk + 1) s t st₁ =
          (if (x' == y') = true then Seq.equal (same fuel) walk s' t' else pure false) st₄ :=
        looked.trans (looked'.trans (bind_of_eq answer))
      rw [ran, sameItems_cons]
      split
      case isTrue =>
        obtain ⟨st₅, rest, fourth⟩ := walks fuel (by omega) walk (Nat.lt_of_succ_lt_succ more) st₄
          (leads.trans (both.trans third)) s' t'
          (third.later.reads _ _ (second.later.reads _ _ behind)) (third.later.reads _ _ behind')
        exact ⟨st₅, rest, (both.trans third).trans fourth⟩
      case isFalse => exact ⟨st₄, rfl, both.trans third⟩

/-! Values of four sorts, of which no two are equal. -/

theorem sort_of_beq {a b : Value} (h : (a == b) = true) : a.sort = b.sort := by
  rcases kinds a with flat | ⟨xs, i, spine⟩ | ⟨m, rfl⟩ | ⟨s, rfl⟩
  · have same := (beq_flat flat b).1 h
    rw [sort_of_flat flat, sort_of_flat (isFlat_of_bare flat same)]
  · obtain ⟨ys, spine', -⟩ := (beq_spine_iff spine b).1 h
    rw [sort_of_spine spine, sort_of_spine spine']
  · obtain ⟨n, rfl, -⟩ := (beq_map_iff m b).1 h
    rfl
  · obtain ⟨t, rfl, -⟩ := (beq_set_iff s b).1 h
    rfl

theorem beq_of_sort_ne {a b : Value} (apart : a.sort ≠ b.sort) : (a == b) = false := by
  rw [Bool.eq_false_iff]
  exact fun same => apart (sort_of_beq same)

/-! One step of the comparison. -/

/-- Lists, or vectors, of different sizes are told apart by their sizes. -/
def unequalSizes : Value → Value → Bool
  | .list l, .list k => l.size != k.size
  | .vector v, .vector w => v.size != w.size
  | _, _ => false

theorem equal_sequences (fuel : ℕ) {a b : Value} {s t : Seq Value} (ha : a.sequence? = some s)
    (hb : b.sequence? = some t) :
    equal (fuel + 1) a b =
      if unequalSizes a b = true then pure false else Seq.equal (equal fuel) fuel s t := by
  cases a <;> cases ha <;> cases b <;> cases hb <;> rfl

theorem equal_maps (fuel : ℕ) (m n : Map Metadata Value Value) :
    equal (fuel + 1) (.map m) (.map n) =
      if (m.size != n.size) = true then pure false else equalEntries (equal fuel) n m.toList :=
  rfl

/-- Values that are not both sequences and not both maps are compared as they are. -/
theorem equal_others (fuel : ℕ) {a b : Value} (sequences : a.sort ≠ 1 ∨ b.sort ≠ 1)
    (maps : a.sort ≠ 2 ∨ b.sort ≠ 2) : equal (fuel + 1) a b = pure (a == b) := by
  unfold equal
  split
  case h_1 => exact absurd maps (by simp [sort])
  case h_2 => exact absurd sequences (by simp [sort])
  case h_3 => exact absurd sequences (by simp [sort])
  case h_4 =>
    split
    case h_1 s t ha hb =>
      rw [sort_of_sequence ha, sort_of_sequence hb] at sequences
      exact absurd sequences (by simp)
    case h_2 => rfl
    case h_3 both neither =>
      have apart : a.sort ≠ b.sort := by
        intro same
        have left := sequence_isSome a
        rw [same, ← sequence_isSome b] at left
        cases ha : a.sequence? <;> cases hb : b.sequence? <;> rw [ha, hb] at left
        · exact neither ha hb
        · cases left
        · cases left
        · exact both _ _ ha hb
      rw [beq_of_sort_ne apart]

theorem unequalSizes_length {st : Store Value} {n : ℕ} {a b : Value} {s t : Seq Value}
    {xs ys : List Value} (valid : a.Valid n) (valid' : b.Valid n) (ha : a.sequence? = some s)
    (hb : b.sequence? = some t) (reads : Seq.Reads st s xs) (reads' : Seq.Reads st t ys)
    (unequal : unequalSizes a b = true) : xs.length ≠ ys.length := by
  cases a <;> cases ha <;> cases b <;> cases hb <;> try cases unequal
  case list.refl.list.refl l k =>
    rw [Seq.reads_ofList_eq reads, Seq.reads_ofList_eq reads']
    exact bne_iff_ne.1 unequal
  case vector.refl.vector.refl v w =>
    rw [Seq.reads_ofList_eq reads, Seq.reads_ofList_eq reads']
    cases valid with
    | flat h => cases h
    | vector held =>
      cases valid' with
      | flat h => cases h
      | vector held' =>
        rw [← held.size_eq, ← held'.size_eq]
        exact bne_iff_ne.1 unequal

/-! The entries of maps. -/

theorem lookup_related {R : Value → Value → Prop} (key : Value)
    {entries others : List (Value × Value)} (h : List.Forall₂ (SameKey R) entries others) :
    Option.Rel (SameKey R) (Bindings.lookup key entries) (Bindings.lookup key others) := by
  induction h with
  | nil => exact .none
  | @cons e f entries others same rest ih =>
    by_cases hit : (key == e.1) = true
    · rw [Bindings.lookup_cons_hit entries hit, Bindings.lookup_cons_hit others (same.1 ▸ hit)]
      exact .some same
    · rw [Bool.not_eq_true] at hit
      rw [Bindings.lookup_cons_miss entries hit, Bindings.lookup_cons_miss others (same.1 ▸ hit)]
      exact ih

theorem find?_related {R : Value → Value → Prop} {n n' : Map Metadata Value Value}
    (keyed : n.Over Known) (keyed' : n'.Over Known)
    (related : List.Forall₂ (SameKey R) n.toList n'.toList) {key : Value} (known : key.Known) :
    (n.find? key = none ∧ n'.find? key = none) ∨ ∃ g k, n.find? key = some g ∧
      n'.find? key = some k ∧ g ∈ n.toList ∧ k ∈ n'.toList ∧ SameKey R g k := by
  rw [keyed.find?_eq lawful_known.toKeyLaw known, keyed'.find?_eq lawful_known.toKeyLaw known]
  have found := lookup_related key related
  generalize hg : Bindings.lookup key n.toList = g at found ⊢
  generalize hk : Bindings.lookup key n'.toList = k at found ⊢
  cases found with
  | none => exact .inl ⟨rfl, rfl⟩
  | some same =>
    exact .inr ⟨_, _, rfl, rfl, (Bindings.of_lookup hg).1, (Bindings.of_lookup hk).1, same⟩

theorem equalEntries_cons (same : Value → Value → Demand Value Bool)
    (n : Map Metadata Value Value) (e : Value × Value) (entries : List (Value × Value)) :
    equalEntries same n (e :: entries) =
      match n.find? e.1 with
      | none => pure false
      | some g => same g.2 e.2 >>= fun answer =>
        if answer = true then equalEntries same n entries else pure false := by
  rw [equalEntries, Table.get?]
  cases n.find? e.1 <;> rfl

/-- Looking the entries of one map up in another, given that each pair of values is settled. -/
theorem equalEntries_settles {same : ℕ → Value → Value → Demand Value Bool} {st : Store Value}
    {n n' : Map Metadata Value Value} (keyed : n.Over Known) (keyed' : n'.Over Known)
    (related : List.Forall₂ (SameKey (Means st)) n.toList n'.toList)
    (valuesKnown : ∀ e ∈ n'.toList, e.2.Known) {entries others : List (Value × Value)}
    (parts : List.Forall₂ (SameKey (Means st)) entries others)
    (known : ∀ e ∈ others, e.1.Known ∧ e.2.Known)
    (each : ∀ e f g k, e ∈ entries → f ∈ others → g ∈ n.toList → k ∈ n'.toList →
      SameKey (Means st) e f → SameKey (Means st) g k →
      Settles st (fun fuel => same fuel g.2 e.2) (k.2 == f.2)) :
    Settles st (fun fuel => equalEntries (same fuel) n entries)
      (others.all fun f => (n'.find? f.1).any fun k => f.2 == k.2) := by
  induction parts with
  | nil => exact settles_pure st true
  | @cons e f entries others part _ ih =>
    obtain ⟨knownKey, knownValue⟩ := known f List.mem_cons_self
    have rest := ih (fun x hx => known x (List.mem_cons_of_mem _ hx)) fun e f g k he hf =>
      each e f g k (List.mem_cons_of_mem _ he) (List.mem_cons_of_mem _ hf)
    have step (fuel : ℕ) := equalEntries_cons (same fuel) n e entries
    rw [part.1] at step
    rw [funext step, List.all_cons]
    rcases find?_related keyed keyed' related knownKey with
      ⟨missed, missed'⟩ | ⟨g, k, found, found', hg, hk, same_key⟩
    · rw [missed, missed']
      exact settles_pure st false
    · have first := each e f g k List.mem_cons_self List.mem_cons_self hg hk part same_key
      rw [found, found']
      refine first.bind ?_
      rw [Option.any_some, lawful_known.comm knownValue (valuesKnown k hk)]
      cases k.2 == f.2 with
      | false => exact settles_pure st false
      | true => exact rest

theorem beq_sameItems {a b : Value} {xs ys : List Value} (ha : a.spine? = some (xs, none))
    (hb : b.spine? = some (ys, none)) : (a == b) = sameItems xs ys :=
  beq_spines ha hb

theorem spines_settle {st : Store Value} {a b : Value} (valid : a.Valid st.cells.size)
    (valid' : b.Valid st.cells.size) {s t : Seq Value} (ha : a.sequence? = some s)
    (hb : b.sequence? = some t) {xs xs' ys ys' : List Value} (reads : Seq.Reads st s xs)
    (reads' : Seq.Reads st t ys) (items : List.Forall₂ (Means st) xs xs')
    (items' : List.Forall₂ (Means st) ys ys')
    (each : ∀ x x' y y', Means st x x' → Means st y y' → x' ∈ xs' → y' ∈ ys' →
      x ∈ xs → y ∈ ys → Settles st (fun fuel => equal fuel x y) (x' == y')) :
    Settles st (fun fuel => equal fuel a b) (sameItems xs' ys') := by
  cases sizes : unequalSizes a b with
  | true =>
    have apart := unequalSizes_length valid valid' ha hb reads reads' sizes
    have different : sameItems xs' ys' = false := by
      rw [sameItems, ← items.length_eq, ← items'.length_eq, beq_false_of_ne apart]
      rfl
    rw [different]
    refine .succ (fun fuel => ?_) (settles_pure st false)
    rw [equal_sequences fuel ha hb, if_pos sizes]
  | false =>
    have step (fuel : ℕ) : equal (fuel + 1) a b = Seq.equal (equal fuel) fuel s t := by
      rw [equal_sequences fuel ha hb, if_neg (Bool.eq_false_iff.1 sizes)]
    obtain ⟨N, walks⟩ := seqEqual_settles items items' each
    refine .succ step ⟨max N (xs.length + 1), fun fuel enough st₁ leads => ?_⟩
    exact walks fuel (by omega) fuel (by omega) st₁ leads s t (leads.later.reads s xs reads)
      (leads.later.reads t ys reads')

theorem maps_settle {st : Store Value} {m m' n n' : Map Metadata Value Value}
    (valid : (Value.map m).Valid st.cells.size) (valid' : (Value.map n).Valid st.cells.size)
    (known : (Value.map m').Known) (known' : (Value.map n').Known)
    (entries : List.Forall₂ (SameKey (Means st)) m.toList m'.toList)
    (entries' : List.Forall₂ (SameKey (Means st)) n.toList n'.toList)
    (each : ∀ e f g k, e ∈ m.toList → f ∈ m'.toList → g ∈ n.toList → k ∈ n'.toList →
      SameKey (Means st) e f → SameKey (Means st) g k →
      Settles st (fun fuel => equal fuel g.2 e.2) (k.2 == f.2)) :
    Settles st (fun fuel => equal fuel (.map m) (.map n)) (Value.map m' == .map n') := by
  obtain ⟨keyed, values⟩ := valid_entries known
  obtain ⟨keyed', values'⟩ := valid_entries known'
  have size : m.size = m'.size := by
    rw [(valid_entries valid).1.size_eq, keyed.size_eq, entries.length_eq]
  have size' : n.size = n'.size := by
    rw [(valid_entries valid').1.size_eq, keyed'.size_eq, entries'.length_eq]
  rw [beq_map, ← size, ← size']
  by_cases sizes : m.size = n.size
  · have step (fuel : ℕ) : equal (fuel + 1) (.map m) (.map n) =
        equalEntries (equal fuel) n m.toList := by
      rw [equal_maps, if_neg (by simp [sizes])]
    rw [sizes, beq_self_eq_true, Bool.true_and]
    exact .succ step (equalEntries_settles (valid_entries valid').1 keyed' entries' values' entries
      (fun f hf => ⟨keyed.keys f hf, values f hf⟩) each)
  · have step (fuel : ℕ) : equal (fuel + 1) (.map m) (.map n) = pure false := by
      rw [equal_maps, if_pos (by simp [sizes])]
    rw [beq_false_of_ne sizes, Bool.false_and]
    exact .succ step (settles_pure st false)

/-- Two values with a meaning are equal if their meanings are, and this is found out. -/
theorem equal_settles {st : Store Value} {a b a' b' : Value} (ha : Means st a a')
    (hb : Means st b b') (valid : a.Valid st.cells.size) (valid' : b.Valid st.cells.size)
    (known : a'.Known) (known' : b'.Known) (sane : Sane st) :
    Settles st (fun fuel => equal fuel a b) (a' == b') := by
  induction size : sizeOf a' + sizeOf b' using Nat.strongRecOn generalizing a b a' b' with
  | ind N ih =>
    subst size
    have others (sequences : a.sort ≠ 1 ∨ b.sort ≠ 1) (maps : a.sort ≠ 2 ∨ b.sort ≠ 2)
        (same : (a == b) = (a' == b')) : Settles st (fun fuel => equal fuel a b) (a' == b') :=
      .succ (fun fuel => equal_others fuel sequences maps) (same ▸ settles_pure st (a == b))
    by_cases sorts : a.sort = b.sort
    case neg =>
      apply others (by omega) (by omega)
      rw [beq_of_sort_ne sorts, beq_of_sort_ne (ha.sort_eq ▸ hb.sort_eq ▸ sorts)]
    cases ha with
    | flat flat =>
      have zero := sort_of_flat flat
      cases hb with
      | flat => exact others (by omega) (by omega) rfl
      | set => cases zero.symm.trans sorts
      | map => cases zero.symm.trans sorts
      | spine sequence => cases (zero.symm.trans sorts).trans (sort_of_sequence sequence)
    | set =>
      cases hb with
      | flat flat => cases sorts.trans (sort_of_flat flat)
      | set => exact others (.inl nofun) (.inl nofun) rfl
      | map => cases sorts
      | spine sequence => cases sorts.trans (sort_of_sequence sequence)
    | @spine _ _ s xs xs' sequence reads spine items =>
      have one := sort_of_sequence sequence
      cases hb with
      | flat flat => cases (one.symm.trans sorts).trans (sort_of_flat flat)
      | set | map => cases one.symm.trans sorts
      | @spine _ _ t ys ys' sequence' reads' spine' items' =>
        rw [beq_sameItems spine spine']
        apply spines_settle valid valid' sequence sequence' reads reads' items items'
        intro x x' y y' hx hy mx' my' mx my
        have smaller := sizeOf_spine spine mx'
        have smaller' := sizeOf_spine spine' my'
        exact ih _ (by omega) hx hy (valid_reads sane reads (valid_sequence valid sequence) x mx)
          (valid_reads sane reads' (valid_sequence valid' sequence') y my)
          (known_items known spine x' mx') (known_items known' spine' y' my') rfl
    | @map m m' keys values =>
      cases hb with
      | flat flat => cases sorts.trans (sort_of_flat flat)
      | set => cases sorts
      | spine sequence => cases sorts.trans (sort_of_sequence sequence)
      | @map n n' keys' values' =>
        apply maps_settle valid valid' known known' (forall₂_entries keys values)
          (forall₂_entries keys' values')
        intro e f g k he hf hg hk hef hgk
        have smaller : sizeOf f.2 < sizeOf (Value.map m') := sizeOf_values (List.mem_map_of_mem hf)
        have smaller' : sizeOf k.2 < sizeOf (Value.map n') := sizeOf_values (List.mem_map_of_mem hk)
        exact ih _ (by omega) hgk.2 hef.2 ((valid_entries valid').2 g hg)
          ((valid_entries valid).2 e he) ((valid_entries known').2 k hk)
          ((valid_entries known).2 f hf) rfl

end Persistent.Value
