import Persistent.Proofs.Trie.Sound

/-!
Insertion keeps a trie sound and changes its entries as binding changes an association list. A
slot that an insertion meets stays an entry or comes to hold two of them.
-/

set_option autoImplicit false

namespace Persistent.Trie

open Bindings

variable {K V : Type} [BEq K] [Hashable K]

omit [BEq K] [Hashable K] in
theorem Crowded.occupied {t : Trie K V} (crowded : t.Crowded) : 1 ≤ t.toList.length := by
  rcases crowded with ⟨h, key, value, rfl⟩ | several
  · exact Nat.le_refl 1
  · omega

omit [BEq K] [Hashable K] in
theorem crowded_entry (h : UInt64) (key : K) (value : V) : (Trie.entry h key value).Crowded :=
  .inl ⟨h, key, value, rfl⟩

section Pair

omit [BEq K] [Hashable K]

variable {shift : ℕ} {h₁ h₂ : UInt64} (t₁ t₂ : Trie K V)

theorem pair_below (ne : h₁ ≠ h₂) (same : fragment h₁ shift = fragment h₂ shift)
    (shallow : shift < 64) : pair shift h₁ t₁ h₂ t₂ =
      .branch (occupy 0 (fragment h₁ shift)) [pair (shift + 5) h₁ t₁ h₂ t₂] := by
  rw [pair]
  simp only [ne, same, Nat.lt_irrefl, shallow, ↓reduceIte]

theorem pair_here (ne : h₁ ≠ h₂) (apart : fragment h₁ shift ≠ fragment h₂ shift) :
    pair shift h₁ t₁ h₂ t₂ =
      .branch (occupy (occupy 0 (fragment h₁ shift)) (fragment h₂ shift))
        (if fragment h₁ shift < fragment h₂ shift then [t₁, t₂] else [t₂, t₁]) := by
  rw [pair]
  simp only [ne, ↓reduceIte]
  split
  case isTrue less => rfl
  case isFalse less => rw [if_pos (by omega)]

theorem pair_same (same : h₁ = h₂) :
    pair shift h₁ t₁ h₂ t₂ = .collision h₁ (t₁.single ++ t₂.single) := by
  rw [pair]
  simp only [same, ↓reduceIte]

end Pair

/-- Two tries of different hashes, each sound wherever its hash leads, are told apart by a chain
of branches. -/
theorem pair_sound {path : List ℕ} {h₁ h₂ : UInt64} (t₁ t₂ : Trie K V) (ne : h₁ ≠ h₂)
    (on₁ : OnPath path h₁) (on₂ : OnPath path h₂) (sound₁ : ∀ q, OnPath q h₁ → Sound q t₁)
    (sound₂ : ∀ q, OnPath q h₂ → Sound q t₂) (crowded₁ : t₁.Crowded) (crowded₂ : t₂.Crowded) :
    Sound path (pair (5 * path.length) h₁ t₁ h₂ t₂) ∧
      (pair (5 * path.length) h₁ t₁ h₂ t₂).toList.Perm (t₁.toList ++ t₂.toList) := by
  have shallow := length_le_of_ne on₁ on₂ ne
  have below₁ : SlotSound path (fragment h₁ (5 * path.length)) t₁ :=
    ⟨sound₁ _ ((onPath_concat _ _ _).2 ⟨on₁, rfl⟩), crowded₁⟩
  have below₂ : SlotSound path (fragment h₂ (5 * path.length)) t₂ :=
    ⟨sound₂ _ ((onPath_concat _ _ _).2 ⟨on₂, rfl⟩), crowded₂⟩
  have lt₁ := fragment_lt h₁ (5 * path.length)
  have lt₂ := fragment_lt h₂ (5 * path.length)
  by_cases same : fragment h₁ (5 * path.length) = fragment h₂ (5 * path.length)
  · have on₁' := (onPath_concat path (fragment h₁ (5 * path.length)) h₁).2 ⟨on₁, rfl⟩
    have on₂' := (onPath_concat path _ h₂).2 ⟨on₂, same.symm⟩
    obtain ⟨sound, perm⟩ := pair_sound t₁ t₂ ne on₁' on₂' sound₁ sound₂ crowded₁ crowded₂
    rw [List.length_append, List.length_singleton, Nat.mul_add] at sound perm
    rw [pair_below t₁ t₂ ne same (by omega)]
    constructor
    · rw [sound_branch_iff, positions_single _ lt₁]
      refine ⟨shallow, .cons ⟨sound, .inr ?_⟩ .nil⟩
      rw [perm.length_eq, List.length_append]
      have := crowded₁.occupied
      have := crowded₂.occupied
      omega
    · simpa [toList, slotsToList] using perm
  · rw [pair_here t₁ t₂ ne same]
    by_cases less : fragment h₁ (5 * path.length) < fragment h₂ (5 * path.length)
    · rw [if_pos less]
      constructor
      · rw [sound_branch_iff, positions_double less lt₂]
        exact ⟨shallow, .cons below₁ (.cons below₂ .nil)⟩
      · simp [toList, slotsToList]
    · have less' : fragment h₂ (5 * path.length) < fragment h₁ (5 * path.length) := by omega
      rw [if_neg less]
      constructor
      · rw [sound_branch_iff, occupy_comm, positions_double less' lt₁]
        exact ⟨shallow, .cons below₂ (.cons below₁ .nil)⟩
      · simpa [toList, slotsToList] using List.perm_append_comm
termination_by 13 - path.length

omit [BEq K] [Hashable K] in
theorem replace_keys (same : K → Bool) (value : V) (entries : List (K × V)) :
    (replace same value entries).map (·.1) = entries.map (·.1) := by
  induction entries with
  | nil => rfl
  | cons e entries ih =>
    obtain ⟨k, v⟩ := e
    rw [replace]
    split
    · rfl
    · rw [List.map_cons, List.map_cons, ih]

/-- What an insertion below the end of `path` answers. -/
structure Inserts (path : List ℕ) (key : K) (value : V) (t : Trie K V) (r : Trie K V × Bool) :
    Prop where
  sound : Sound path r.1
  entries : r.1.toList.Perm (put key value t.toList)
  fresh : r.2 = (lookup key t.toList).isNone
  crowded : t.Crowded → r.1.Crowded

section Law

variable {D : K → Prop} (law : KeyLaw D)
include law

theorem replace_perm {key : K} (value : V) {entries : List (K × V)} (hkey : D key)
    (keys : ∀ e ∈ entries, D e.1) (distinct : Distinct entries)
    (bound : (lookup key entries).isSome) :
    (replace (key == ·) value entries).Perm (put key value entries) := by
  induction entries with
  | nil => simp [lookup] at bound
  | cons e entries ih =>
    rw [replace]
    by_cases hit : (key == e.1) = true
    · have absent := absent_behind law hkey keys distinct hit
      rw [if_pos hit, put, stored, lookup_cons_hit entries hit, remove_cons_hit entries hit,
        remove_of_absent absent]
      exact List.Perm.refl _
    · rw [if_neg hit]
      rw [Bool.not_eq_true] at hit
      rw [lookup_cons_miss entries hit] at bound
      have tail := ih (fun x hx => keys x (List.mem_cons_of_mem _ hx)) distinct.of_cons bound
      rw [put, stored, lookup_cons_miss entries hit, remove_cons_miss entries hit]
      exact (tail.cons e).trans (List.Perm.swap ..)

theorem inserts_entry {path : List ℕ} {h : UInt64} {k key : K} {v value : V}
    (sound : Sound path (.entry h k v)) (hk : D k) (hkey : D key) (on : OnPath path (hash key)) :
    Inserts path key value (.entry h k v)
      ((Trie.entry h k v).insert (hash key) key value (5 * path.length)) := by
  obtain ⟨on', own⟩ := sound
  rw [insert]
  by_cases same : (key == k) = true
  · have agree : h = hash key := own.trans (law.hash_eq hkey hk same).symm
    have found : lookup key [(k, v)] = some (k, v) := lookup_cons_hit [] same
    rw [if_pos (by simp [agree, same])]
    refine ⟨.entry on' own, ?_, ?_, fun _ => crowded_entry _ _ _⟩
    · rw [toList, toList, put, stored, found, remove_cons_hit [] same]
      exact List.Perm.refl _
    · rw [toList, found]
      rfl
  · rw [if_neg (by simp [same])]
    rw [Bool.not_eq_true] at same
    have missing : lookup key [(k, v)] = none := lookup_cons_miss [] same
    have added : put key value [(k, v)] = [(key, value), (k, v)] := by
      rw [put, stored, missing, remove_cons_miss [] same]
      rfl
    have fresh : true = (lookup key (Trie.entry h k v).toList).isNone := by
      rw [toList, missing]
      rfl
    by_cases agree : h = hash key
    · rw [pair_same _ _ agree]
      refine ⟨.collision on' (Nat.le_refl 2) ?_ ?_, ?_, fresh, fun _ => .inr (Nat.le_refl 2)⟩
      · intro e he
        rcases List.mem_cons.1 he with rfl | he
        · exact own
        · change e ∈ [(key, value)] at he
          rw [List.mem_singleton] at he
          subst he
          exact agree
      · refine List.pairwise_pair.2 ?_
        rw [law.comm hk hkey]
        exact same
      · rw [toList, toList, added]
        exact List.Perm.swap ..
    · obtain ⟨apart, perm⟩ := pair_sound (.entry h k v) (.entry (hash key) key value) agree on' on
        (fun q hq => .entry hq own) (fun q hq => .entry hq rfl)
        (crowded_entry _ _ _) (crowded_entry _ _ _)
      refine ⟨apart, ?_, fresh, fun _ => .inr ?_⟩
      · rw [toList, added]
        exact perm.trans (List.Perm.swap ..)
      · rw [perm.length_eq]
        exact Nat.le_refl 2

theorem inserts_collision {path : List ℕ} {h : UInt64} {entries : List (K × V)} {key : K}
    {value : V} (sound : Sound path (.collision h entries)) (hkey : D key)
    (keys : ∀ e ∈ entries, D e.1) (on : OnPath path (hash key)) :
    Inserts path key value (.collision h entries)
      ((Trie.collision h entries).insert (hash key) key value (5 * path.length)) := by
  obtain _ | _ | ⟨on', several, own, distinct⟩ := sound
  have several_put : 2 ≤ (put key value entries).length := by
    have := length_put law value hkey keys distinct
    omega
  have any : entries.any (key == ·.1) = (lookup key entries).isSome :=
    List.isSome_find?.symm
  rw [insert]
  by_cases agree : h = hash key
  · rw [if_pos (by simp [agree]), any]
    cases found : lookup key entries with
    | some e =>
      have perm := replace_perm law value hkey keys distinct (by simp [found])
      have stay := replace_keys (key == ·) value entries
      refine ⟨.collision on' ?_ ?_ ?_, ?_, ?_, fun _ => .inr ?_⟩
      · rw [perm.length_eq]
        exact several_put
      · intro e he
        have member := List.mem_map_of_mem (f := (·.1)) he
        rw [stay] at member
        obtain ⟨e', he', keyed⟩ := List.mem_map.1 member
        rw [← keyed]
        exact own e' he'
      · exact List.pairwise_map.1 (stay ▸ List.pairwise_map.2 distinct :
          ((replace (key == ·) value entries).map (·.1)).Pairwise fun a b => (a == b) = false)
      · exact perm
      · rw [toList, found]
        rfl
      · change 2 ≤ (replace (key == ·) value entries).length
        rw [perm.length_eq]
        exact several_put
    | none =>
      have absent := absent_of_lookup found
      have added := put_of_absent absent value
      refine ⟨.collision on' ?_ ?_ ?_, ?_, ?_, fun _ => .inr ?_⟩
      · rw [List.length_append]
        omega
      · intro e he
        rcases List.mem_append.1 he with he | he
        · exact own e he
        · rw [List.mem_singleton] at he
          subst he
          exact agree
      · refine List.pairwise_append.2 ⟨distinct, List.pairwise_singleton _ _, ?_⟩
        intro e he new hnew
        rw [List.mem_singleton] at hnew
        subst hnew
        rw [law.comm (keys e he) hkey]
        exact absent e he
      · change (entries ++ [(key, value)]).Perm (put key value entries)
        rw [added]
        exact List.perm_append_singleton ..
      · rw [toList, found]
        rfl
      · change 2 ≤ (entries ++ [(key, value)]).length
        rw [List.length_append]
        omega
  · rw [if_neg (by simpa using agree)]
    have absent : Absent key entries := by
      intro e he
      apply law.ne_of_hash_ne hkey (keys e he)
      rw [← own e he]
      exact Ne.symm agree
    have added : put key value (Trie.collision h entries).toList = (key, value) :: entries :=
      put_of_absent absent value
    obtain ⟨apart, perm⟩ :=
      pair_sound (.collision h entries) (.entry (hash key) key value) agree on' on
      (fun q hq => .collision hq several own distinct) (fun q hq => .entry hq rfl)
      (.inr several) (crowded_entry _ _ _)
    refine ⟨apart, ?_, ?_, fun _ => .inr ?_⟩
    · rw [added]
      exact perm.trans (List.perm_append_singleton ..)
    · change true = (lookup key entries).isNone
      rw [lookup_of_absent absent]
      rfl
    · rw [perm.length_eq, List.length_append]
      exact Nat.le_trans several (Nat.le_add_right ..)

omit [Hashable K] law in
theorem insertAt_cut (hash : UInt64) (key : K) (value : V) (shift : ℕ)
    (front back : List (Trie K V)) (slot : Trie K V) :
    insertAt hash key value shift front.length (front ++ slot :: back) =
      (front ++ (slot.insert hash key value shift).1 :: back,
        (slot.insert hash key value shift).2) := by
  induction front with
  | nil => rfl
  | cons first front ih =>
    rw [List.length_cons, List.cons_append, insertAt, ih]
    rfl

theorem inserts_below {path : List ℕ} {bits : BitVec 32} {slots : List (Trie K V)} {key : K}
    {value : V} (sound : Sound path (.branch bits slots)) (hkey : D key)
    (keys : ∀ e ∈ slotsToList slots, D e.1)
    (set : bits.getLsbD (fragment (hash key) (5 * path.length)) = true)
    (below : ∀ slot, (fragment (hash key) (5 * path.length), slot) ∈ (positions bits).zip slots →
      Inserts (path ++ [fragment (hash key) (5 * path.length)]) key value slot
        (slot.insert (hash key) key value (5 * path.length + 5))) :
    Inserts path key value (.branch bits slots)
      ((Trie.branch bits slots).insert (hash key) key value (5 * path.length)) := by
  have shallow := (sound_branch_iff.1 sound).1
  have distinct := sound.distinct law keys
  have hi := fragment_lt (hash key) (5 * path.length)
  obtain ⟨front, slot, back, rfl, rank, member, hf, hs, hb⟩ := sound.cut hi set
  have inner := below slot member
  rw [insert, if_pos set, rank, insertAt_cut]
  rw [slotsToList_append] at keys
  have absent_front := SlotsSound.absent law hf hkey
    (fun e he => keys e (by simp [he])) (fun h => absurd (mem_setBelow h) (by omega))
  have absent_back := SlotsSound.absent law hb hkey
    (fun e he => keys e (by simp [slotsToList, he])) (fun h => absurd (mem_setAbove h) (by omega))
  have perm : (Trie.branch bits (front ++
      (slot.insert (hash key) key value (5 * path.length + 5)).1 :: back)).toList.Perm
      (put key value (Trie.branch bits (front ++ slot :: back)).toList) := by
    rw [toList_branch_cut, toList_branch_cut]
    exact ((inner.entries.append_left _).append_right _).trans
      (put_cut absent_front absent_back value).symm
  refine ⟨?_, perm, ?_, ?_⟩
  · rw [sound_branch_iff, positions_of_set hi set]
    exact ⟨shallow, hf.append (.cons ⟨inner.sound, inner.crowded hs.2⟩ hb)⟩
  · rw [toList_branch_cut, lookup_cut absent_front absent_back]
    exact inner.fresh
  · rintro (⟨_, _, _, impossible⟩ | several)
    · cases impossible
    · right
      rw [perm.length_eq, length_put law value hkey (by rwa [toList, slotsToList_append]) distinct]
      omega

omit [BEq K] [Hashable K] law in
theorem insertIdx_cut (front back : List (Trie K V)) (slot : Trie K V) :
    (front ++ back).insertIdx front.length slot = front ++ slot :: back := by
  induction front with
  | nil => rfl
  | cons first front ih =>
    rw [List.length_cons, List.cons_append, List.insertIdx_succ_cons, ih]
    rfl

theorem inserts_free {path : List ℕ} {bits : BitVec 32} {slots : List (Trie K V)} {key : K}
    {value : V} (sound : Sound path (.branch bits slots)) (hkey : D key)
    (keys : ∀ e ∈ slotsToList slots, D e.1) (on : OnPath path (hash key))
    (clear : bits.getLsbD (fragment (hash key) (5 * path.length)) = false) :
    Inserts path key value (.branch bits slots)
      ((Trie.branch bits slots).insert (hash key) key value (5 * path.length)) := by
  have ⟨shallow, slotted⟩ := sound_branch_iff.1 sound
  have hi := fragment_lt (hash key) (5 * path.length)
  have absent := SlotsSound.absent law slotted hkey keys fun h => by
    rw [(List.mem_filter.1 h).2] at clear
    cases clear
  obtain ⟨front, back, rfl, rank, hf, hb⟩ := sound.cut_free hi clear
  rw [insert, if_neg (Bool.eq_false_iff.1 clear), rank, insertIdx_cut]
  have perm : (Trie.branch (occupy bits (fragment (hash key) (5 * path.length)))
      (front ++ Trie.entry (hash key) key value :: back)).toList.Perm
      (put key value (Trie.branch bits (front ++ back)).toList) := by
    rw [toList_branch_cut, toList, toList, put_of_absent absent, slotsToList_append,
      List.append_assoc]
    exact List.perm_middle
  refine ⟨?_, perm, ?_, fun crowded => .inr ?_⟩
  · rw [sound_branch_iff, positions_occupy bits _ hi]
    refine ⟨shallow, hf.append (.cons ⟨.entry ?_ rfl, crowded_entry _ _ _⟩ hb)⟩
    exact (onPath_concat _ _ _).2 ⟨on, rfl⟩
  · rw [toList, lookup_of_absent absent]
    rfl
  · have := crowded.occupied
    rw [perm.length_eq, toList, put_of_absent absent, List.length_cons]
    exact Nat.succ_le_succ this

theorem Sound.insert {path : List ℕ} {t : Trie K V} (sound : Sound path t) {key : K} (value : V)
    (hkey : D key) (keys : ∀ e ∈ t.toList, D e.1) (on : OnPath path (hash key)) :
    Inserts path key value t (t.insert (hash key) key value (5 * path.length)) := by
  induction sound with
  | @entry path h k v on' own =>
    exact inserts_entry law (.entry on' own) (keys _ (List.mem_singleton_self _)) hkey on
  | @branch path bits slots shallow full slot_sound slot_crowded ih =>
    have sound : Sound path (.branch bits slots) := .branch shallow full slot_sound slot_crowded
    by_cases set : bits.getLsbD (fragment (hash key) (5 * path.length)) = true
    · apply inserts_below law sound hkey keys set
      intro slot member
      have inside := (List.of_mem_zip member).2
      have below := ih _ slot member (fun e he => keys e (mem_slotsToList.2 ⟨slot, inside, he⟩))
        ((onPath_concat path _ _).2 ⟨on, rfl⟩)
      rwa [List.length_append, List.length_singleton, Nat.mul_add] at below
    · exact inserts_free law sound hkey keys on (Bool.eq_false_iff.2 set)
  | collision on' several own distinct =>
    exact inserts_collision law (.collision on' several own distinct) hkey keys on

end Law

end Persistent.Trie
