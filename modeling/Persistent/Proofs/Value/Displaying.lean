import Persistent.Proofs.Value.Founded
import Persistent.Proofs.Value.Readable
import Persistent.Proofs.Value.Twins
import Persistent.Value.Display

/-!
The ways to print a finite value. A collection is printed with its depth at hand, or its items are
each printed on their own as a walk comes to them, and the text is the same. So the text of a value
does not depend on the depth at which it is printed, nor on the collection that it is an item of.
-/

set_option autoImplicit false

namespace Persistent.Value

/-- The text of a value that is printed at a depth. -/
def printAt (opts : PrintOptions) (depth fuel : ℕ) (v : Value) : Demand Value String := do
  return (← observe opts fuel depth v).render opts depth

theorem printAt_zero (opts : PrintOptions) (fuel : ℕ) (v : Value) :
    printAt opts 0 fuel v = v.print opts fuel :=
  rfl

theorem innerText_eq {v : Value} (collection : v.isCollection = true) :
    v.innerText = some v.text := by
  rw [text_layout]
  cases v <;> first | rfl | cases collection

/-! More fuel for a walk that makes something of each item. -/

section Stable

variable {A : Type}

theorem traverse_extends {make make' : Value → Demand Value A}
    (each : ∀ x, Extends (make x) (make' x)) {m n : ℕ} (le : m ≤ n) (s : Seq Value) :
    Extends (s.traverse make m) (s.traverse make' n) := by
  induction m generalizing n s with
  | zero => exact fun _ _ done => nomatch done
  | succ m ih =>
    obtain ⟨n, rfl⟩ := Nat.exists_eq_add_of_le' (Nat.le_trans (Nat.le_add_left 1 m) le)
    refine (Extends.refl s.look).bind fun r => ?_
    cases r with
    | none => exact .refl _
    | some step =>
      exact (each step.1).bind fun _ =>
        (ih (Nat.le_of_succ_le_succ le) step.2).bind fun _ => .refl _

theorem displayEntry_extends {m n : ℕ} (le : m ≤ n) (e : Value × Value) :
    Extends (displayEntry m e) (displayEntry n e) :=
  (print_stable e.1 m n le).bind fun _ => (print_stable e.2 m n le).bind fun _ => .refl _

theorem display_stable (v : Value) : Stable fun fuel => v.display fuel := by
  intro m n le
  have each (x : Value) : Extends (x.print {} m) (x.print {} n) := print_stable x m n le
  cases v with
  | list l => exact (mapM_extends each l.items).bind fun _ => .refl _
  | vector v => exact (mapM_extends each v.toList).bind fun _ => .refl _
  | set s => exact (mapM_extends each s.elements).bind fun _ => .refl _
  | map m => exact (mapM_extends (displayEntry_extends le) m.toList).bind fun _ => .refl _
  | seq s => exact (traverse_extends each le s).bind fun _ => .refl _
  | _ => exact .refl _

end Stable

theorem printAt_stable (depth : ℕ) (v : Value) : Stable fun fuel => v.printAt {} depth fuel :=
  fun _ _ le => (observe_extends le depth v).bind fun _ => .refl _

theorem innerText_stable (v : Value) :
    Stable fun fuel => (do return (← v.realize fuel).innerText : Demand Value (Option String)) :=
  fun _ _ le => (observe_extends le 0 v).bind fun _ => .refl _

section Hashing

variable [Hasher]

section Settled

variable {st : Store Value}

/-- A walk along a sequence with an end, if what is made of each item is settled. -/
theorem traverse_settles {A : Type} {make : ℕ → Value → Demand Value A} {s : Seq Value}
    {xs : List Value} {ys : List A} (reads : Seq.Reads st s xs)
    (each : List.Forall₂ (fun x y => Settles st (fun fuel => make fuel x) y) xs ys) :
    Settles st (fun fuel => s.traverse (make fuel) fuel) ys := by
  suffices walks : ∃ N, ∀ fuel ≥ N, ∀ walk > xs.length, ∀ st₁, Leads st st₁ → ∀ s,
      Seq.Reads st₁ s xs →
        ∃ st₂, s.traverse (make fuel) walk st₁ = some (ys, st₂) ∧ Leads st₁ st₂ by
    obtain ⟨N, walks⟩ := walks
    exact ⟨max N (xs.length + 1), fun fuel enough st₁ leads =>
      walks fuel (by omega) fuel (by omega) st₁ leads s (leads.later.reads s xs reads)⟩
  clear reads
  induction each with
  | nil =>
    refine ⟨0, fun fuel _ walk more st₁ leads s reads => ?_⟩
    obtain ⟨walk, rfl⟩ := Nat.exists_eq_succ_of_ne_zero (Nat.ne_of_gt more)
    rw [Seq.traverse]
    exact look_nil leads.sane reads _
  | @cons x y xs ys first _ ih =>
    obtain ⟨N, made⟩ := first
    obtain ⟨M, walks⟩ := ih
    refine ⟨max N M, fun fuel enough walk more st₁ leads s reads => ?_⟩
    obtain ⟨walk, rfl⟩ := Nat.exists_eq_succ_of_ne_zero (Nat.ne_of_gt (Nat.zero_lt_of_lt more))
    rw [Seq.traverse]
    obtain ⟨rest, st₂, looked, leads₂, behind⟩ := look_cons leads.sane reads _
    obtain ⟨st₃, item, leads₃⟩ := made fuel (by omega) st₂ (leads.trans leads₂)
    obtain ⟨st₄, others, leads₄⟩ := walks fuel (by omega) walk (Nat.lt_of_succ_lt_succ more) st₃
      ((leads.trans leads₂).trans leads₃) rest (leads₃.later.reads _ _ behind)
    exact ⟨st₄, looked.trans ((bind_of_eq item).trans (bind_of_eq others)),
      (leads₂.trans leads₃).trans leads₄⟩

/-- At every depth a value that is seen whole is printed as the text of what is seen. -/
theorem printAt_settles {v u : Value} (seen : Seen st v u) (depth : ℕ) :
    Settles st (fun fuel => v.printAt {} depth fuel) u.text := by
  have printed := (seen depth).bind (f := fun _ w => pure (render {} depth w))
    (settles_pure st (render {} depth u))
  rw [render_depth] at printed
  exact printed

theorem print_settles {v u : Value} (seen : Seen st v u) :
    Settles st (fun fuel => v.print {} fuel) u.text := by
  have printed := printAt_settles seen 0
  simp only [printAt_zero] at printed
  exact printed

theorem texts_settle {xs us : List Value} (seen : List.Forall₂ (Seen st) xs us) :
    List.Forall₂ (fun x text => Settles st (fun fuel => x.print {} fuel) text) xs (us.map text) :=
  List.forall₂_map_right_iff.2 (seen.imp fun _ _ h => print_settles h)

theorem displayEntry_settles {e f : Value × Value} (seen : SeenEntry st e f) :
    Settles st (fun fuel => displayEntry fuel e) (f.1.text ++ " " ++ f.2.text) := by
  have value := (print_settles seen.2).bind (f := fun _ text => pure (f.1.text ++ " " ++ text))
    (settles_pure st (f.1.text ++ " " ++ f.2.text))
  exact (print_settles seen.1).bind
    (f := fun fuel text => do return text ++ " " ++ (← e.2.print {} fuel)) value

/-- What is seen of a collection, and the text of its items that are printed each on their own. -/
structure DisplayedAs (st : Store Value) (v u : Value) : Prop where
  seen : Seen st v u
  collection : u.isCollection = true
  display : Settles st (fun fuel => v.display fuel) (some (layout text u))

theorem displayed_list {l : ConsList Metadata Value} {us : List Value}
    (items : List.Forall₂ (Seen st) l.items us) :
    DisplayedAs st (.list l) (.list { l with items := us }) :=
  ⟨seen_list items, rfl, (mapM_settles (texts_settle items)).bind (settles_pure st _)⟩

theorem displayed_vector {v : Vector Metadata Value} {us : List Value}
    (items : List.Forall₂ (Seen st) v.toList us) :
    DisplayedAs st (.vector v)
      (.vector { (Vector.ofList us : Vector Metadata Value) with metadata := v.metadata }) := by
  refine ⟨seen_vector items, rfl, ?_⟩
  have held := (Vector.holds_ofList us).withMetadata v.metadata
  rw [layout, held.toList_eq]
  exact (mapM_settles (texts_settle items)).bind (settles_pure st _)

theorem displayed_seq {s : Seq Value} {xs us : List Value} (reads : Seq.Reads st s xs)
    (items : List.Forall₂ (Seen st) xs us) :
    DisplayedAs st (.seq s) (.seq (s.refill us)) := by
  refine ⟨seen_seq reads items, rfl, ?_⟩
  obtain ⟨known, -⟩ := Prod.mk.inj (Option.some.inj (spine_refill s us))
  rw [layout, known]
  exact (traverse_settles reads (texts_settle items)).bind (settles_pure st _)

theorem displayed_set {s : Set Metadata Value} {us : List Value}
    (elements : List.Forall₂ (Seen st) s.elements us) :
    DisplayedAs st (.set s)
      (.set { s with toTable := s.toTable.refill (us.map (·, ())) }) := by
  refine ⟨seen_set elements, rfl, ?_⟩
  have refilled : (s.toTable.refill (us.map (·, ()))).keys = us :=
    elements_refill s elements.length_eq.symm
  rw [layout, Set.elements, refilled]
  exact (mapM_settles (texts_settle elements)).bind (settles_pure st _)

theorem displayed_map {m : Map Metadata Value Value} {entries : List (Value × Value)}
    (seen : List.Forall₂ (SeenEntry st) m.toList entries) :
    DisplayedAs st (.map m) (.map { m with toTable := m.toTable.refill entries }) := by
  refine ⟨seen_map seen, rfl, ?_⟩
  have each : List.Forall₂
      (fun e shown => Settles st (fun fuel => displayEntry fuel e) shown) m.toList
      (entries.map fun f => f.1.text ++ " " ++ f.2.text) :=
    List.forall₂_map_right_iff.2 (seen.imp fun _ _ h => displayEntry_settles h)
  rw [layout, Table.toList_refill m.toTable seen.length_eq.symm]
  exact (mapM_settles each).bind (settles_pure st _)

end Settled

section Whole

variable {st : Store Value} (sane : Sane st) {v : Value}
include sane

theorem exists_seen (whole : Whole st v) : ∃ u, Seen st v u := by
  obtain ⟨w, means, -⟩ := whole.exists_means sane
  exact observe_settles sane means whole.valid

theorem exists_seenEntries {m : Map Metadata Value Value} (whole : Whole st (.map m)) :
    ∃ entries, List.Forall₂ (SeenEntry st) m.toList entries := by
  obtain ⟨keyed, -⟩ := valid_entries whole.valid
  refine exists_forall₂ fun e he => ?_
  obtain ⟨key, seen⟩ := exists_seen sane (whole_of_known st (keyed.keys e he))
  obtain ⟨value, seen'⟩ := exists_seen sane (whole.values e he)
  exact ⟨(key, value), seen, seen'⟩

theorem exists_displayed (whole : Whole st v) (collection : v.isCollection = true) :
    ∃ u, DisplayedAs st v u := by
  have items {xs : List Value} (wholes : ∀ x ∈ xs, Whole st x) :
      ∃ us, List.Forall₂ (Seen st) xs us :=
    exists_forall₂ fun x hx => exists_seen sane (wholes x hx)
  cases v with
  | list l =>
    obtain ⟨us, seen⟩ := items (whole.items sane rfl)
    exact ⟨_, displayed_list seen⟩
  | vector v =>
    obtain ⟨us, seen⟩ := items (whole.items sane rfl)
    exact ⟨_, displayed_vector seen⟩
  | seq s =>
    obtain ⟨xs, reads, wholes⟩ := whole.reads sane rfl
    obtain ⟨us, seen⟩ := items wholes
    exact ⟨_, displayed_seq reads seen⟩
  | set s =>
    have known := Set.elements_in (valid_elements whole.valid)
    obtain ⟨us, seen⟩ := items fun x hx => whole_of_known st (known x hx)
    exact ⟨_, displayed_set seen⟩
  | map m =>
    obtain ⟨entries, seen⟩ := exists_seenEntries sane whole
    exact ⟨_, displayed_map seen⟩
  | _ => cases collection

end Whole

/-- Every way to print the value comes to this text: at any depth; and of a collection, its items
printed each on their own, now or once they are known. -/
structure PrintsAs (st : Store Value) (v : Value) (text : String) : Prop where
  print : Prints st v text
  at_depth : ∀ depth, Yields st (fun fuel => v.printAt {} depth fuel) text
  display : v.isCollection = true → Yields st (fun fuel => v.display fuel) (some text)
  innerText : v.isCollection = true →
    Yields st (fun fuel => do return (← v.realize fuel).innerText) (some text)

section Printing

variable {st : Store Value} {v : Value}

theorem Seen.printsAs {u : Value} (seen : Seen st v u)
    (displayed : v.isCollection = true → DisplayedAs st v u) : PrintsAs st v u.text where
  print := (print_settles seen).yields (print_stable v)
  at_depth depth := (printAt_settles seen depth).yields (printAt_stable depth v)
  display collection := by
    rw [text_layout]
    exact (displayed collection).display.yields (display_stable v)
  innerText collection := by
    rw [← innerText_eq (displayed collection).collection]
    exact ((seen 0).bind (settles_pure st u.innerText)).yields (innerText_stable v)

theorem exists_printsAs (sane : Sane st) (whole : Whole st v) : ∃! text, PrintsAs st v text := by
  have once {text text' : String} (h : PrintsAs st v text) (k : PrintsAs st v text') :
      text' = text := k.print.unique sane h.print
  cases collection : v.isCollection with
  | true =>
    obtain ⟨u, displayed⟩ := exists_displayed sane whole collection
    have prints := displayed.seen.printsAs fun _ => displayed
    exact ⟨u.text, prints, fun _ other => once prints other⟩
  | false =>
    obtain ⟨u, seen⟩ := exists_seen sane whole
    have prints := seen.printsAs fun impossible => nomatch collection.symm.trans impossible
    exact ⟨u.text, prints, fun _ other => once prints other⟩

end Printing

/-- Each finite value of a sane store has one text, and the store of every program is sane. -/
theorem run_prints_alike :
    (∀ st, Sane st → ∀ v, Whole st v → ∃! text, PrintsAs st v text) ∧
      ∀ steps : List (Step × ℕ), Sane (run steps).store ∧
        ∀ v ∈ (run steps).values, In (run steps).store v :=
  ⟨fun _ sane _ => exists_printsAs sane, sane_run⟩

end Hashing

/-- A list that holds a lazy sequence, with a quote in one of its items. -/
def nested : List (Step × ℕ) :=
  [(.int 1, 9), (.str "say \"hi\"", 9), (.lazy fun k => [0, 1][k]?, 9), (.list [2, 0], 9)]

attribute [local instance] Hasher.sum in
/-- The list is printed in each of the ways, and so is a set with metadata of a map. -/
theorem run_prints_alike_nested :
    PrintsAs (run nested).store ((run nested).value 3) "((1 \"say \\\"hi\\\"\") 1)" ∧
      ∃! text, PrintsAs (run mixed).store ((run mixed).value 9) text := by
  have alike := run_prints_alike.1 _ (valid_run nested).sane
  have pending : (run nested).store.Pending 0 { source := 0 }
      { answer := fun k => ([0, 1][k]?).map (run (nested.take 2)).value } := ⟨rfl, rfl, rfl⟩
  have reads : Seq.Reads (run nested).store (.lazy 0) [.int 1, .str "say \"hi\""] :=
    .pending pending ⟨rfl, rfl, rfl⟩
  have flat : ∀ x ∈ [Value.int 1, .str "say \"hi\""], Finite (run nested).store x := by
    rw [List.forall_mem_cons, List.forall_mem_cons]
    exact ⟨.flat rfl, .flat rfl, nofun⟩
  have items : ∀ x ∈ [Value.seq (.lazy 0), .int 1], Finite (run nested).store x := by
    rw [List.forall_mem_cons, List.forall_mem_cons]
    exact ⟨.spine rfl reads flat, .flat rfl, nofun⟩
  have whole : Whole (run nested).store ((run nested).value 3) :=
    ⟨(valid_run nested).value 3, .spine rfl (Seq.reads_ofList _ _) items⟩
  obtain ⟨text, prints, -⟩ := alike _ whole
  -- the list is printed once, and no other text is possible
  have ran : ∃ st, ((run nested).value 3).print {} 9 (run nested).store =
      some (Value.text (.list ⟨[.seq (.realized [.int 1, .str "say \"hi\""]), .int 1], none⟩),
        st) :=
    ⟨_, rfl⟩
  obtain ⟨st, done⟩ := ran
  have seq : Value.text (.seq (.realized [.int 1, .str "say \"hi\""])) =
      "(1 \"say \\\"hi\\\"\")" := by
    rw [text_layout]
    change Text.enclosed "(" " " ")" [Value.text (.int 1), Value.text (.str "say \"hi\"")] = _
    rw [text_layout, text_layout]
    rfl
  have written := prints.print.only 9 _ (.refl (valid_run nested).sane) _ st done
  rw [text_layout] at written
  change Text.enclosed "(" " " ")" [Value.text (.seq _), Value.text (.int 1)] = text at written
  rw [seq, text_layout] at written
  subst written
  have mixed := run_prints_alike.1 _ (valid_run mixed).sane _
    (whole_of_set ((valid_run mixed).value 9) (by decide +kernel))
  exact ⟨prints, mixed⟩

end Persistent.Value
