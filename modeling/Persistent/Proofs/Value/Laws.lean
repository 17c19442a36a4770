import Persistent.Proofs.Value.Reachable

/-!
The laws of equality and hash. On the finite values of any program's store equality comes to an
end, is an equivalence, and equal values feed the same words to a hash.
-/

set_option autoImplicit false

namespace Persistent.Value

section Hashing

variable [Hasher]

/-- A value that is valid in the store, every sequence in it with an end. -/
structure Whole (st : Store Value) (v : Value) : Prop where
  valid : In st v
  finite : Finite st v

/-- The comparison finds no difference. -/
def Equals (st : Store Value) (a b : Value) : Prop :=
  Yields st (fun fuel => equal fuel a b) true

/-- What the value feeds to a hash, and the hash, with all of the value looked at. -/
structure Feeds (st : Store Value) (v : Value) (words : List UInt64) : Prop where
  fed : Yields st (fun fuel => demandWords fuel v) words
  hashed : Yields st (fun fuel => demandHash fuel v) (Hasher.digest words)

structure LawfulEquality (st : Store Value) : Prop where
  decides {a b : Value} : Whole st a → Whole st b →
    ∃! r, Yields st (fun fuel => equal fuel a b) r
  refl {a : Value} : Whole st a → Equals st a a
  symm {a b : Value} : Whole st a → Whole st b → Equals st a b → Equals st b a
  trans {a b c : Value} : Whole st a → Whole st b → Whole st c → Equals st a b → Equals st b c →
    Equals st a c
  same_words {a b : Value} : Whole st a → Whole st b → Equals st a b →
    ∃! words, Feeds st a words ∧ Feeds st b words

section Meaning

variable {st : Store Value} (sane : Sane st)
include sane

theorem Whole.exists_means {v : Value} (whole : Whole st v) : ∃ w, Means st v w ∧ w.Known :=
  Value.exists_means sane whole.finite whole.valid

theorem equal_yields {a b a' b' : Value} (ha : Whole st a) (hb : Whole st b)
    (means : Means st a a') (means' : Means st b b') (known : a'.Known) (known' : b'.Known) :
    Yields st (fun fuel => equal fuel a b) (a' == b') :=
  (equal_settles means means' ha.valid hb.valid known known' sane).yields
    fun _ _ le => equal_extends le a b

theorem equals_iff {a b a' b' : Value} (ha : Whole st a) (hb : Whole st b)
    (means : Means st a a') (means' : Means st b b') (known : a'.Known) (known' : b'.Known) :
    Equals st a b ↔ (a' == b') = true := by
  have yields := equal_yields sane ha hb means means' known known'
  constructor
  · intro equals
    exact yields.settles.unique sane equals.settles
  · intro same
    rw [same] at yields
    exact yields

/-- What is made of a realized value, where it depends on the words alone. -/
theorem realize_yields {A : Type} {v w : Value} (whole : Whole st v) (means : Means st v w)
    (known : w.Known) {f : Value → A} (congr : ∀ u : Value, u.words = w.words → f u = f w) :
    Yields st (fun fuel => do return f (← v.realize fuel)) (f w) := by
  have same {u : Value} (shows : Shows st v u) : f u = f w :=
    congr u (lawful_known.words_eq known shows.known (shows.same w known means)).symm
  refine ⟨?_, fun fuel st₁ leads r st₂ done => ?_⟩
  · obtain ⟨u, shows, settles⟩ := realize_settles sane means whole.valid
    rw [← same shows]
    exact settles.bind (settles_pure st (f u))
  · obtain ⟨u, st₃, realized, done⟩ := of_bind done
    cases done
    exact same (makes_observe whole.valid st₁ leads u st₂ realized).2

theorem feeds {v w : Value} (whole : Whole st v) (means : Means st v w) (known : w.Known) :
    Feeds st v w.words where
  fed := realize_yields sane whole means known fun _ same => same
  hashed := realize_yields sane whole means known fun _ same => congrArg Hasher.digest same

theorem lawfulEquality_of_sane : LawfulEquality st := by
  have law := lawful_known
  refine ⟨?_, ?_, ?_, ?_, ?_⟩
  · intro a b ha hb
    obtain ⟨a', means, known⟩ := ha.exists_means sane
    obtain ⟨b', means', known'⟩ := hb.exists_means sane
    have yields := equal_yields sane ha hb means means' known known'
    exact ⟨a' == b', yields, fun r other => other.settles.unique sane yields.settles⟩
  · intro a ha
    obtain ⟨a', means, known⟩ := ha.exists_means sane
    exact (equals_iff sane ha ha means means known known).2 (law.refl known)
  · intro a b ha hb equals
    obtain ⟨a', means, known⟩ := ha.exists_means sane
    obtain ⟨b', means', known'⟩ := hb.exists_means sane
    rw [equals_iff sane ha hb means means' known known'] at equals
    exact (equals_iff sane hb ha means' means known' known).2 (law.symm known known' equals)
  · intro a b c ha hb hc equals equals'
    obtain ⟨a', means, known⟩ := ha.exists_means sane
    obtain ⟨b', means', known'⟩ := hb.exists_means sane
    obtain ⟨c', means'', known''⟩ := hc.exists_means sane
    rw [equals_iff sane ha hb means means' known known'] at equals
    rw [equals_iff sane hb hc means' means'' known' known''] at equals'
    exact (equals_iff sane ha hc means means'' known known'').2
      (law.trans known known' known'' equals equals')
  · intro a b ha hb equals
    obtain ⟨a', means, known⟩ := ha.exists_means sane
    obtain ⟨b', means', known'⟩ := hb.exists_means sane
    rw [equals_iff sane ha hb means means' known known'] at equals
    have first := feeds sane ha means known
    have second := feeds sane hb means' known'
    rw [← law.words_eq known known' equals] at second
    exact ⟨a'.words, ⟨first, second⟩, fun words other =>
      other.1.fed.settles.unique sane first.fed.settles⟩

end Meaning

/-- On the finite values of a sane store equality and hash obey the laws, and the store of every
program is sane. -/
theorem run_lawful :
    (∀ st, Sane st → LawfulEquality st) ∧
      ∀ steps : List (Step × ℕ), Sane (run steps).store ∧
        ∀ v ∈ (run steps).values, In (run steps).store v :=
  ⟨fun _ => lawfulEquality_of_sane, sane_run⟩

theorem whole_of_set {st : Store Value} {v : Value} (valid : In st v) (h : v.kind = "set") :
    Whole st v := by
  refine ⟨valid, ?_⟩
  cases v with
  | set s => exact .set
  | _ => simp [kind] at h

end Hashing

/-- Two sets, at 7 and 9, of a map keyed by a list, a vector or a lazy sequence of the same items,
the second set with metadata. -/
def mixed : List (Step × ℕ) :=
  [(.int 1, 9), (.str "two", 9), (.list [0, 1], 9), (.vector [0, 1], 9),
    (.lazy fun k => [0, 1][k]?, 9), (.hashMap [(2, 4), (0, 1)], 9), (.hashMap [(0, 1), (4, 3)], 9),
    (.hashSet [5, 3], 9), (.hashSet [2, 6], 9), (.withMetadata 8 5, 9)]

attribute [local instance] Hasher.sum in
theorem run_lawful_mixed :
    Equals (run mixed).store ((run mixed).value 9) ((run mixed).value 7) ∧
      ∃! words, Feeds (run mixed).store ((run mixed).value 7) words ∧
        Feeds (run mixed).store ((run mixed).value 9) words := by
  have sane := (run_lawful.2 mixed).1
  have lawful := run_lawful.1 _ sane
  have wa : Whole (run mixed).store ((run mixed).value 7) :=
    whole_of_set ((valid_run mixed).value 7) (by decide +kernel)
  have wb : Whole (run mixed).store ((run mixed).value 9) :=
    whole_of_set ((valid_run mixed).value 9) (by decide +kernel)
  obtain ⟨r, yields, -⟩ := lawful.decides wa wb
  -- the comparison is run once, and no other answer is possible
  have ran : (equal 9 ((run mixed).value 7) ((run mixed).value 9) (run mixed).store).map
      (·.1) = some true := by decide +kernel
  obtain ⟨⟨_, st'⟩, done, rfl⟩ := Option.map_eq_some_iff.1 ran
  cases yields.only 9 _ (.refl sane) _ st' done
  exact ⟨lawful.symm wa wb yields, lawful.same_words wa wb yields⟩

end Persistent.Value
