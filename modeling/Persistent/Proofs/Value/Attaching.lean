import Persistent.Proofs.Map.Merging
import Persistent.Proofs.Value.Derivations
import Persistent.Proofs.Value.Founding

/-!
Attaching metadata. What is attached later is merged over what is there, so that attaching acts as
merging does: two maps attached one after the other come to their merge attached at once. The
content of the value stays, and no comparison tells the value with other metadata from the value.
-/

set_option autoImplicit false

namespace Persistent.Value

/-- The kinds of values to which metadata can be attached. -/
def takesMetadata : Value → Bool
  | .symbol _ => true
  | v => v.bearsMetadata

/-- The value without its metadata. -/
def stripped (v : Value) : Value :=
  recarry none v.bare

theorem sequence?_stripped (v : Value) : v.stripped.sequence? = v.sequence? := by
  cases v <;> rfl

theorem isFlat_stripped (v : Value) : v.stripped.isFlat = v.isFlat := by
  cases v <;> rfl

theorem stripped_flat {v : Value} (flat : v.isFlat = true) : v.stripped = v.bare := by
  cases v <;> first | rfl | cases flat

theorem unequalSizes_stripped (v w : Value) :
    unequalSizes v.stripped w.stripped = unequalSizes v w := by
  cases v <;> cases w <;> rfl

theorem unequalSizes_self (v : Value) : unequalSizes v v = false := by
  cases v <;> simp [unequalSizes]

theorem map_of_stripped {m : Map Metadata Value Value} {w : Value}
    (same : w.stripped = (Value.map m).stripped) : ∃ n, w = .map n ∧ n.toTable = m.toTable := by
  cases w with
  | map n =>
    injection same with tables
    injection tables with table
    exact ⟨n, rfl, table⟩
  | _ => cases same

theorem set_of_stripped {s : Set Metadata Value} {w : Value}
    (same : w.stripped = (Value.set s).stripped) : ∃ t, w = .set t ∧ t.toTable = s.toTable := by
  cases w with
  | set t =>
    injection same with tables
    injection tables with table
    exact ⟨t, rfl, table⟩
  | _ => cases same

theorem Finite.of_stripped {st : Store Value} {v w : Value} (h : Finite st v)
    (same : w.stripped = v.stripped) : Finite st w := by
  cases h with
  | flat flat =>
    rw [← isFlat_stripped, ← same, isFlat_stripped] at flat
    exact .flat flat
  | set =>
    obtain ⟨t, rfl, -⟩ := set_of_stripped same
    exact .set
  | spine sequence reads items =>
    rw [← sequence?_stripped, ← same, sequence?_stripped] at sequence
    exact .spine sequence reads items
  | map values =>
    obtain ⟨n, rfl, table⟩ := map_of_stripped same
    refine .map ?_
    rw [Table.values, table]
    exact values

section Hashing

variable [Hasher]

theorem over_map (new : Map Metadata Value Value) (old : Option Metadata) :
    (Metadata.over new old).map = (old.map (·.map)).elim new (·.merge new) := by
  cases old with
  | none => rfl
  | some old =>
    cases old
    rfl

/-- The value is `v` but for its metadata, which is `m`. -/
structure Carrying (v : Value) (m : Map Metadata Value Value) (w : Value) : Prop where
  takes : w.takesMetadata = true
  content : w.stripped = v.stripped
  metadata : w.metadata? = some m

theorem withMetadata_carrying {v : Value} (takes : v.takesMetadata = true)
    (new : Map Metadata Value Value) :
    ∃ w, v.withMetadata new = .ok w ∧
      Carrying v (v.metadata?.elim new (·.merge new)) w := by
  have merged (old : Option Metadata) :
      (some (Metadata.over new old)).map (·.map) =
        some ((old.map (·.map)).elim new (·.merge new)) :=
    congrArg some (over_map new old)
  cases v with
  | symbol s => exact ⟨_, rfl, rfl, rfl, merged s.metadata⟩
  | list l => exact ⟨_, rfl, rfl, rfl, merged l.metadata⟩
  | vector u => exact ⟨_, rfl, rfl, rfl, merged u.metadata⟩
  | map m => exact ⟨_, rfl, rfl, rfl, merged m.metadata⟩
  | set s => exact ⟨_, rfl, rfl, rfl, merged s.metadata⟩
  | _ => cases takes

/-! Values with the same content. -/

theorem beq_of_stripped_flat {v w : Value} (flat : v.isFlat = true)
    (same : w.stripped = v.stripped) : (w == v) = true := by
  have flat' : w.isFlat = true := by rw [← isFlat_stripped, same, isFlat_stripped, flat]
  rw [beq_flat flat', ← stripped_flat flat', ← stripped_flat flat, same]

theorem beq_of_stripped_set {s t : Set Metadata Value} (keyed : s.Over Known)
    (table : t.toTable = s.toTable) : (Value.set t == .set s) = true := by
  rw [beq_set_iff]
  refine ⟨s, rfl, congrArg Table.size table, fun e he => ⟨e, ?_⟩⟩
  rw [table] at he
  rw [keyed.find?_iff lawful_known.toKeyLaw (keyed.keys e he)]
  exact ⟨he, lawful_known.refl (keyed.keys e he)⟩

section Undifferent

variable {st : Store Value} {fuel : ℕ}
  (each : ∀ x u u' b, In st x → Advances st u → equal fuel x x u = some (b, u') → b = true)
include each

/-- A walk along two sequences of the same items meets no difference. -/
theorem seqEqual_undifferent (n : ℕ) {u u' : Store Value} (h : Advances st u) {s t : Seq Value}
    {f : Seq.Items Value} (left : Presents st u s f) (right : Presents st u t f) {b : Bool}
    (done : Seq.equal (equal fuel) n s t u = some (b, u')) : b = true := by
  induction n generalizing u s t f with
  | zero => cases done
  | succ n ih =>
    cases round h.ordered left right with
    | ended _ first step =>
      rw [step, first] at done
      cases done
      rfl
    | shorter _ first second => cases first.symm.trans second
    | @items x y _ _ _ _ first second behind behind' step =>
      cases first.symm.trans second
      have hx := left.valid 0 x first
      have mid := h.trans (advances_looks h.ordered s t)
      rw [step] at done
      obtain ⟨same, u₁, compared, done⟩ := of_bind done
      cases each x _ _ same hx mid compared
      have onward := advances_equal mid.ordered (hx.later mid.leads) (hx.later mid.leads) compared
      exact ih (mid.trans onward) (behind.mono onward.grows) (behind'.mono onward.grows) done

/-- Entries of a map looked up in that map are all found again. -/
theorem equalEntries_undifferent {n : Map Metadata Value Value} (valid : In st (.map n))
    {entries : List (Value × Value)} (among : ∀ e ∈ entries, e ∈ n.toList) {u u' : Store Value}
    (h : Advances st u) {b : Bool}
    (done : equalEntries (equal fuel) n entries u = some (b, u')) : b = true := by
  obtain ⟨keyed, values⟩ := valid_entries valid
  induction entries generalizing u with
  | nil =>
    cases done
    rfl
  | cons e entries ih =>
    obtain ⟨here, later⟩ := List.forall_mem_cons.1 among
    have key := keyed.keys e here
    have found : n.find? e.1 = some e :=
      (keyed.find?_iff lawful_known.toKeyLaw key e).2 ⟨here, lawful_known.refl key⟩
    have hx : In st e.2 := values e here
    rw [equalEntries_cons, found] at done
    obtain ⟨same, u₁, compared, done⟩ := of_bind done
    cases each e.2 _ _ same hx h compared
    have onward := advances_equal h.ordered (hx.later h.leads) (hx.later h.leads) compared
    exact ih later (h.trans onward) done

omit each in
/-- No comparison of two values with the same content tells them apart. -/
theorem equal_undifferent (ordered : Ordered st) (fuel : ℕ) {v w : Value} (hv : In st v)
    (hw : In st w) (same : w.stripped = v.stripped) {u u' : Store Value} (h : Advances st u)
    {b : Bool} (done : equal fuel w v u = some (b, u')) : b = true := by
  induction fuel generalizing v w u u' b with
  | zero => cases done
  | succ fuel ih =>
    have each (x : Value) (u u' : Store Value) (b : Bool) (hx : In st x) (h : Advances st u)
        (done : equal fuel x x u = some (b, u')) : b = true := ih hx hx rfl h done
    rcases kinds v with flat | ⟨xs, i, spine⟩ | ⟨m, rfl⟩ | ⟨s, rfl⟩
    · have single : v.sort ≠ 1 := by rw [sort_of_flat flat]; decide
      have single' : v.sort ≠ 2 := by rw [sort_of_flat flat]; decide
      rw [equal_others fuel (.inr single) (.inr single'), beq_of_stripped_flat flat same] at done
      cases done
      rfl
    · obtain ⟨s, sequence⟩ : ∃ s, v.sequence? = some s := by
        rw [← Option.isSome_iff_exists, sequence_isSome, sort_of_spine spine]
        rfl
      have sequence' : w.sequence? = some s := by
        rw [← sequence?_stripped, same, sequence?_stripped, sequence]
      have sized : unequalSizes w v = false := by
        rw [← unequalSizes_stripped, same, unequalSizes_self]
      rw [equal_sequences fuel sequence' sequence, sized] at done
      have valid := valid_sequence hv sequence
      obtain ⟨f, shows⟩ := exists_shows ordered valid
      have shown := (presents ordered.sane shows valid).mono h.grows
      exact seqEqual_undifferent each fuel h shown shown done
    · obtain ⟨n, rfl, table⟩ := map_of_stripped same
      rw [equal_maps, table, bne_self_eq_false] at done
      exact equalEntries_undifferent each hv (fun _ he => he) h done
    · obtain ⟨t, rfl, table⟩ := set_of_stripped same
      rw [equal_others fuel (.inl (by simp [sort])) (.inl (by simp [sort])),
        beq_of_stripped_set (valid_elements hv) table] at done
      cases done
      rfl

end Undifferent

/-- The value `w` is `v` but for its metadata, and is equal to it. Of an endless value a comparison
may not come to a verdict, but it never comes to another one. -/
structure Unaltered (st : Store Value) (v w : Value) : Prop where
  content : w.stripped = v.stripped
  equals : Whole st v → Equals st w v ∧ Equals st v w
  undifferent : ∀ fuel u u' b, Advances st u → equal fuel w v u = some (b, u') → b = true

section Ordered

variable {st : Store Value} (ordered : Ordered st) {v : Value}
include ordered

theorem equals_of_stripped {w : Value} (hv : Whole st v) (hw : Whole st w)
    (same : w.stripped = v.stripped) : Equals st w v := by
  obtain ⟨r, yields, -⟩ := (lawfulEquality_of_sane ordered.sane).decides hw hv
  obtain ⟨N, settles⟩ := yields.settles
  obtain ⟨u, done, -⟩ := settles N (Nat.le_refl N) st (.refl ordered.sane)
  cases equal_undifferent ordered N hv.valid hw.valid same (.refl ordered) done
  exact yields

theorem unaltered {w : Value} (hv : In st v) (hw : In st w) (same : w.stripped = v.stripped) :
    Unaltered st v w where
  content := same
  equals whole := by
    have whole' : Whole st w := ⟨hw, whole.finite.of_stripped same⟩
    exact ⟨equals_of_stripped ordered whole whole' same,
      equals_of_stripped ordered whole' whole same.symm⟩
  undifferent fuel _ _ _ h done := equal_undifferent ordered fuel hv hw same h done

end Ordered

/-- A valid value, with metadata that is a map of known keys. -/
structure Dressed (st : Store Value) (v : Value) : Prop where
  valid : In st v
  keyed : ∀ m, v.metadata? = some m → m.Over Known

/-- Attaching `a` and then `b` comes to what attaching `b` merged over `a` does. -/
structure Acts (st : Store Value) (v : Value) (a b : Map Metadata Value Value) : Prop where
  agree : ∃ u w w', v.withMetadata a = .ok u ∧ u.withMetadata b = .ok w ∧
    v.withMetadata (a.merge b) = .ok w' ∧
    (∃ m m', w.metadata? = some m ∧ w'.metadata? = some m' ∧ Map.Same Known m m') ∧
    Unaltered st v w ∧ Unaltered st v w'

theorem acts {st : Store Value} (ordered : Ordered st) {v : Value} (dressed : Dressed st v)
    (takes : v.takesMetadata = true) {a b : Map Metadata Value Value} (ha : a.Over Known)
    (hb : b.Over Known) : Acts st v a b := by
  have law := lawful_known.toKeyLaw
  obtain ⟨u, made, first⟩ := withMetadata_carrying takes a
  obtain ⟨w, made', second⟩ := withMetadata_carrying first.takes b
  obtain ⟨w', once, both⟩ := withMetadata_carrying takes (a.merge b)
  have valid := valid_withMetadata dressed.valid made
  have content := second.content.trans first.content
  refine ⟨u, w, w', made, made', once, ⟨_, _, second.metadata, both.metadata, ?_⟩,
    unaltered ordered dressed.valid (valid_withMetadata valid made') content,
    unaltered ordered dressed.valid (valid_withMetadata dressed.valid once) both.content⟩
  rw [first.metadata]
  cases carried : v.metadata? with
  | none =>
    have keyed := Map.over_merge law ha hb
    exact ⟨keyed.same_of_find?_eq law keyed fun _ _ => rfl, rfl⟩
  | some old => exact Map.merge_assoc law (dressed.keyed old carried) ha hb

/-- Merging is associative, for the maps of typed programs as for maps of values, and attaching
metadata is its action on the values of a program. -/
theorem attaching_acts :
    (∀ (μ K V : Type) [BEq K] [Hashable K] (D : K → Prop), KeyLaw D → ∀ a b c : Map μ K V,
      a.Over D → b.Over D → c.Over D →
        Map.Merged D a b (a.merge b) ∧ Map.Same D ((a.merge b).merge c) (a.merge (b.merge c))) ∧
      (∀ (μ K V : Type) [BEq K] [Hashable K] [EquivBEq K] [LawfulHashable K]
        (steps : List (Map.Step K V)), KeyLaw (fun _ : K => True) ∧
          ∀ m ∈ (Map.run steps : List (Map μ K V)), ∀ metadata,
            ({ m with metadata } : Map μ K V).Over fun _ => True) ∧
      (∀ st, Ordered st → ∀ v, Dressed st v → v.takesMetadata = true →
        ∀ a b : Map Metadata Value Value, a.Over Known → b.Over Known → Acts st v a b) ∧
      ∀ steps : List (Step × ℕ), (∀ s ∈ steps, s.1.Sound) →
        KeyLaw Known ∧ Ordered (run steps).store ∧ ∀ v ∈ (run steps).values,
          Dressed (run steps).store v ∧ ∀ m, v = .map m → m.Over Known := by
  refine ⟨fun μ K V _ _ D law a b c ha hb hc => ?_, fun μ K V _ _ _ _ steps => ?_,
    fun st ordered v dressed takes a b => acts ordered dressed takes, fun steps sound => ?_⟩
  · exact ⟨Map.merged law ha hb, Map.merge_assoc law ha hb hc⟩
  · exact ⟨.of_lawful, fun m made metadata => Map.keyed (Map.wellFormed_run steps m made)⟩
  · have whole := entire_run sound
    refine ⟨lawful_known.toKeyLaw, whole.ordered, fun v built => ?_⟩
    have entire := whole.values v built
    refine ⟨⟨entire.valid, fun m carries => (entire.founded.carried m carries).keyed⟩, ?_⟩
    rintro m rfl
    exact (valid_entries entire.valid).1

end Hashing

/-- A vector with metadata keyed by a list, and two maps: one keyed by the vector equal to that
list and with metadata of its own, one keyed by what is in them. -/
def layered : List (Step × ℕ) :=
  [(.int 1, 9), (.list [0], 9), (.vector [0], 9), (.hashMap [(1, 0)], 9), (.hashMap [(2, 1)], 9),
    (.hashMap [(0, 2)], 9), (.withMetadata 4 5, 9), (.withMetadata 2 3, 9)]

attribute [local instance] Hasher.sum in
theorem attaching_acts_layered :
    (∀ s ∈ layered, s.1.Sound) ∧ Ordered (run layered).store ∧
      (∃ v ∈ (run layered).values, ∃ a b, .map a ∈ (run layered).values ∧
        .map b ∈ (run layered).values ∧ v.takesMetadata = true ∧ v.metadata?.isSome = true ∧
        a.metadata.isSome = true ∧ Acts (run layered).store v a b) ∧
      EquivBEq HashedKey ∧ LawfulHashable HashedKey ∧
      ∃ a ∈ (Map.run Map.colliding : List (Map Unit HashedKey ℕ)),
        ∃ b ∈ (Map.run Map.colliding : List (Map Unit HashedKey ℕ)), a.size = 3 ∧ b.size = 2 ∧
          Map.Merged (fun _ => True) a b (a.merge b) ∧
          Map.Same (fun _ => True) ((a.merge b).merge a) (a.merge (b.merge a)) := by
  obtain ⟨laws, typed, attach, values⟩ := attaching_acts
  have sound : ∀ s ∈ layered, s.1.Sound := by
    simp only [layered, List.forall_mem_cons]
    exact ⟨trivial, trivial, trivial, trivial, trivial, trivial, trivial, trivial, nofun⟩
  obtain ⟨-, ordered, built⟩ := values layered sound
  obtain ⟨law, mapped⟩ := typed Unit HashedKey ℕ Map.colliding
  have made (i : ℕ) (inside : i < (run layered).values.length) :
      (run layered).value i ∈ (run layered).values := by
    rw [World.value, List.getD_eq_getElem?_getD, List.getElem?_eq_getElem inside]
    exact List.getElem_mem inside
  have map_of_kind {v : Value} (h : v.kind = "map") : ∃ m, v = .map m := by
    cases v <;> simp [kind] at h ⊢
  obtain ⟨a, ha⟩ := map_of_kind (v := (run layered).value 6) (by decide +kernel)
  obtain ⟨b, hb⟩ := map_of_kind (v := (run layered).value 5) (by decide +kernel)
  have length : (run layered).values.length = 8 := by decide +kernel
  have va := made 6 (by rw [length]; decide)
  have vb := made 5 (by rw [length]; decide)
  have vv := made 7 (by rw [length]; decide)
  rw [ha] at va
  rw [hb] at vb
  have own : ((run layered).value 6).metadata?.isSome = true := by decide +kernel
  rw [ha, metadata?, Option.isSome_map] at own
  refine ⟨sound, ordered, ⟨_, vv, a, b, va, vb, by decide +kernel, by decide +kernel, own,
    attach _ ordered _ (built _ vv).1 (by decide +kernel) a b ((built _ va).2 a rfl)
      ((built _ vb).2 b rfl)⟩, inferInstance, inferInstance, ?_⟩
  obtain ⟨m, hm, three⟩ : ∃ m ∈ (Map.run Map.colliding : List (Map Unit HashedKey ℕ)),
      m.size = 3 := by decide +kernel
  obtain ⟨n, hn, two⟩ : ∃ n ∈ (Map.run Map.colliding : List (Map Unit HashedKey ℕ)),
      n.size = 2 := by decide +kernel
  have om := mapped m hm m.metadata
  have on := mapped n hn n.metadata
  obtain ⟨merged, assoc⟩ := laws Unit HashedKey ℕ _ law m n m om on om
  exact ⟨m, hm, n, hn, three, two, merged, assoc⟩

end Persistent.Value
