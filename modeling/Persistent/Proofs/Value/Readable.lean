import Persistent.Proofs.Text.Quoted
import Persistent.Proofs.Value.Printing

/-!
Printed text tells values apart. In each form the text tells where it ends and where its parts do,
so plain values that print alike are equal.
-/

set_option autoImplicit false

namespace Persistent.Value

theorem print_stable (v : Value) : Stable fun fuel => v.print {} fuel :=
  fun _ _ le => (observe_extends le 0 v).bind fun _ => .refl _

section Hashing

variable [Hasher]

/-- The texts of two values tell them apart, whatever they stand in. -/
abbrev ToldApart (v w : Value) : Prop :=
  Text.Told v.text w.text ((v == w) = true)

theorem told_flat {v w : Value} (flat : v.isFlat = true) {f : Form} (form : v.form? = some f)
    (form' : w.form? = some f) : ToldApart v w := by
  intro rest rest' closed closed' same
  rw [text_layout, text_layout] at same
  suffices v.bare = w.bare ∧ rest = rest' from this.imp_left (beq_flat flat w).2
  cases v with
  | nil =>
    cases form
    cases w <;> cases form'
    exact ⟨rfl, List.append_cancel_left same⟩
  | bool b =>
    cases form
    cases w <;> cases form'
    rename_i b'
    cases b <;> cases b'
    case false.false | true.true => exact ⟨rfl, List.append_cancel_left same⟩
    all_goals exact absurd (List.cons.inj same).1 (by decide)
  | int n =>
    cases form
    cases w <;> cases form'
    obtain ⟨digits, rests⟩ := Text.append_inj_of_all (Text.numeric_decimal _)
      (Text.numeric_decimal _)
      (fun c hc numeric => not_delimiter_of_numeric numeric (closed c hc))
      (fun c hc numeric => not_delimiter_of_numeric numeric (closed' c hc)) same
    exact ⟨congrArg Value.int (Int64.toInt_inj.1 (Text.decimal_inj digits)), rests⟩
  | str s =>
    cases form
    cases w <;> cases form'
    exact (Text.quoted_append_inj same).imp_left (congrArg Value.str)
  | keyword | symbol => cases form
  | _ => cases flat

section Parts

variable {st : Store Value}

theorem told_spine {v w : Value} {xs ys : List Value} {i : Option ℕ}
    (spine : v.spine? = some (xs, i)) (spine' : w.spine? = some (ys, i))
    (form : v.form? = w.form?) (plain : ∀ x ∈ xs, Plain st x) (plain' : ∀ y ∈ ys, Plain st y)
    (each : ∀ x ∈ xs, ∀ y ∈ ys, ToldApart x y) : ToldApart v w := by
  intro rest rest' _ _ same
  have begins := fun x hx => begins_of_plain (plain x hx)
  have begins' := fun y hy => begins_of_plain (plain' y hy)
  suffices List.Forall₂ (fun x y => (x == y) = true) xs ys ∧ rest = rest' from
    this.imp_left fun items => (beq_spine_iff spine w).2 ⟨ys, spine', items⟩
  rcases text_spine spine with ⟨round, text⟩ | ⟨square, text⟩ <;>
    rcases text_spine spine' with ⟨round', text'⟩ | ⟨square', text'⟩
  · rw [text, text'] at same
    exact Text.enclosed_append_inj rfl rfl (by decide) (by decide) (by decide) each begins begins'
      same
  · cases round.symm.trans (form.trans square')
  · cases square.symm.trans (form.trans round')
  · rw [text, text'] at same
    exact Text.enclosed_append_inj rfl rfl (by decide) (by decide) (by decide) each begins begins'
      same

theorem told_map {m n : Map Metadata Value Value} (known : (Value.map m).Known)
    (known' : (Value.map n).Known) (plain : Plain st (.map m)) (plain' : Plain st (.map n))
    (keys : ∀ e ∈ m.toList, ∀ f ∈ n.toList, ToldApart e.1 f.1)
    (values : ∀ e ∈ m.toList, ∀ f ∈ n.toList, ToldApart e.2 f.2) :
    ToldApart (.map m) (.map n) := by
  have keyed := (valid_entries known).1
  have keyed' := (valid_entries known').1
  intro rest rest' _ _ same
  rw [text_layout, text_layout] at same
  have told : ∀ e ∈ m.toList, ∀ f ∈ n.toList,
      Text.Told (e.1.text ++ " " ++ e.2.text) (f.1.text ++ " " ++ f.2.text)
        (Table.EntryMatches Known (fun x y => (x == y) = true) e f) := fun e he f hf =>
    ((keys e he f hf).pair (values e he f hf)).imp fun ⟨key, value⟩ =>
      ⟨⟨keyed.keys e he, keyed'.keys f hf, key⟩, value⟩
  obtain ⟨entries, rests⟩ := Text.enclosed_append_inj (c := '\x7d') rfl rfl (by decide) (by decide)
    (by decide) told (fun e he => ((begins_of_plain (plain.entries e he).1).append _).append _)
    (fun f hf => ((begins_of_plain (plain'.entries f hf).1).append _).append _) same
  -- entries match in the order in which they are printed
  exact ⟨(beq_map_iff_matches lawful_known.toKeyLaw keyed keyed').2 ⟨_, entries, .refl _⟩, rests⟩

theorem told_set {s t : Set Metadata Value} (known : (Value.set s).Known)
    (known' : (Value.set t).Known) (plain : Plain st (.set s)) (plain' : Plain st (.set t))
    (each : ∀ x ∈ s.elements, ∀ y ∈ t.elements, ToldApart x y) :
    ToldApart (.set s) (.set t) := by
  have keyed := valid_elements known
  have keyed' := valid_elements known'
  intro rest rest' _ _ same
  rw [text_layout, text_layout] at same
  have told : ∀ x ∈ s.elements, ∀ y ∈ t.elements,
      Text.Told x.text y.text (EqualIn Known x y) := fun x hx y hy =>
    (each x hx y hy).imp fun key =>
      ⟨Set.elements_in keyed x hx, Set.elements_in keyed' y hy, key⟩
  obtain ⟨elements, rests⟩ := Text.enclosed_append_inj (c := '\x7d') rfl rfl (by decide)
    (by decide) (by decide) told (fun x hx => begins_of_plain (plain.elements x hx))
    (fun y hy => begins_of_plain (plain'.elements y hy)) same
  have entries : List.Forall₂ (Table.EntryMatches Known fun _ _ => True) s.toList t.toList :=
    (List.forall₂_map_right_iff.1 (List.forall₂_map_left_iff.1 elements)).imp
      fun _ _ key => ⟨key, trivial⟩
  exact ⟨(beq_set_iff_matches lawful_known.toKeyLaw keyed keyed').2 ⟨_, entries, .refl _⟩, rests⟩

/-- In each form the text tells where it ends, and where its parts do. -/
theorem told_apart (sane : Sane st) {v w : Value} (known : v.Known) (known' : w.Known)
    (plain : Plain st v) (plain' : Plain st w) : ToldApart v w := by
  induction size : sizeOf v using Nat.strongRecOn generalizing v w with
  | ind N ih =>
    subst size
    intro rest rest' closed closed' same
    -- what goes on alike begins alike, so the forms are the same
    obtain ⟨f, form⟩ := form_of_plain plain
    obtain ⟨g, form'⟩ := form_of_plain plain'
    obtain rfl := form_inj form form' same
    suffices ToldApart v w from this rest rest' closed closed' same
    rcases kinds v with flat | ⟨xs, i, spine⟩ | ⟨m, rfl⟩ | ⟨s, rfl⟩
    · exact told_flat flat form form'
    · obtain ⟨ys, j, spine'⟩ := spine_of_form spine (form.trans form'.symm)
      obtain ⟨rfl, -⟩ := Small.items ⟨known, Nat.lt_succ_self _⟩ spine
      obtain ⟨rfl, -⟩ := Small.items ⟨known', Nat.lt_succ_self _⟩ spine'
      have items := plain.known_items sane spine
      have items' := plain'.known_items sane spine'
      exact told_spine spine spine' (form.trans form'.symm) items items' fun x hx y hy =>
        ih _ (sizeOf_spine spine hx) (known_items known spine x hx)
          (known_items known' spine' y hy) (items x hx) (items' y hy) rfl
    · cases form
      obtain ⟨n, rfl⟩ : ∃ n, w = .map n := by
        cases w <;> first | exact ⟨_, rfl⟩ | cases form'
      have entries := plain.entries
      have entries' := plain'.entries
      obtain ⟨keyed, values⟩ := valid_entries known
      obtain ⟨keyed', values'⟩ := valid_entries known'
      rw [Value.map.sizeOf_spec] at ih
      refine told_map known known' plain plain' (fun e he f hf => ?_) fun e he f hf => ?_
      · have smaller := Map.sizeOf_mem he
        exact ih _ (by omega) (keyed.keys e he) (keyed'.keys f hf) (entries e he).1
          (entries' f hf).1 rfl
      · have smaller := Map.sizeOf_mem he
        exact ih _ (by omega) (values e he) (values' f hf) (entries e he).2 (entries' f hf).2 rfl
    · cases form
      obtain ⟨t, rfl⟩ : ∃ t, w = .set t := by
        cases w <;> first | exact ⟨_, rfl⟩ | cases form'
      rw [Value.set.sizeOf_spec] at ih
      refine told_set known known' plain plain' fun x hx y hy => ?_
      have smaller := Set.sizeOf_mem hx
      exact ih _ (by omega) (Set.elements_in (valid_elements known) x hx)
        (Set.elements_in (valid_elements known') y hy) (plain.elements x hx)
        (plain'.elements y hy) rfl

theorem equal_of_text (sane : Sane st) {v w : Value} (known : v.Known) (known' : w.Known)
    (plain : Plain st v) (plain' : Plain st w) (same : v.text = w.text) : (v == w) = true :=
  (told_apart sane known known' plain plain' [] [] Text.closed_nil Text.closed_nil
    (by rw [same])).1

end Parts

/-- The printed text, quoted and without limits or metadata. -/
def Prints (st : Store Value) (v : Value) (text : String) : Prop :=
  Yields st (fun fuel => v.print {} fuel) text

/-- Printing comes to one text, from which a plain value can be told. -/
structure PrintsReadably (st : Store Value) : Prop where
  prints {v : Value} : In st v → Plain st v → ∃! text, Prints st v text
  injective {v w : Value} : In st v → In st w → Plain st v → Plain st w →
    ∀ text, Prints st v text → Prints st w text → Equals st v w
  string (s : String) : Prints st (.str s) (Text.quoted s)
  ends (s : String) (rest : List Char) : ∃ behind, (Text.quoted s).toList ++ rest = '"' :: behind ∧
    Text.upToQuote? behind = some ((Text.escape s).toList, rest)
  reversible (s : String) : Text.unescape (Text.escape s).toList = s.toList

theorem prints_flat (st : Store Value) {v : Value} (flat : v.isFlat = true) :
    Prints st v v.text := by
  refine Settles.yields (.succ (d := fun _ => pure v.text) (fun fuel => ?_) (settles_pure st _))
    (print_stable v)
  rw [print, observe_flat flat]
  rfl

section Prints

variable {st : Store Value} (sane : Sane st)
include sane

/-- What is printed is the text of a known value equal to the meaning. -/
theorem exists_prints {v w : Value} (valid : In st v) (plain : Plain st v) (means : Means st v w)
    (known : w.Known) : ∃ u : Value, Prints st v u.text ∧ u.Known ∧ Plain st u ∧
      (w == u) = true := by
  obtain ⟨u, shows, settles⟩ := realize_settles sane means valid
  have same := shows.same w known means
  exact ⟨u, (settles.bind (settles_pure st u.text)).yields (print_stable v), shows.known,
    (plain.of_means sane means).of_beq sane shows.known known
      (lawful_known.toKeyLaw.symm known shows.known same), same⟩

theorem Prints.unique {v : Value} {text text' : String} (h : Prints st v text)
    (k : Prints st v text') : text = text' :=
  h.settles.unique sane k.settles

theorem printsReadably_of_sane : PrintsReadably st where
  prints {v} valid plain := by
    obtain ⟨w, means, known⟩ := (plain.whole valid).exists_means sane
    obtain ⟨u, prints, -⟩ := exists_prints sane valid plain means known
    exact ⟨u.text, prints, fun text other => other.unique sane prints⟩
  injective {v w} valid valid' plain plain' text prints prints' := by
    have law := lawful_known.toKeyLaw
    obtain ⟨a, means, known⟩ := (plain.whole valid).exists_means sane
    obtain ⟨b, means', known'⟩ := (plain'.whole valid').exists_means sane
    obtain ⟨u, shown, hu, plainU, same⟩ := exists_prints sane valid plain means known
    obtain ⟨t, shown', ht, plainT, same'⟩ := exists_prints sane valid' plain' means' known'
    have texts : u.text = t.text :=
      (shown.unique sane prints).trans (prints'.unique sane shown')
    have between : (u == t) = true := equal_of_text sane hu ht plainU plainT texts
    exact (equals_iff sane (plain.whole valid) (plain'.whole valid') means means' known known').2
      (law.trans known ht known' (law.trans known hu ht same between)
        (law.symm known' ht same'))
  string s := by
    have printed := prints_flat st (v := .str s) rfl
    rw [text_layout] at printed
    exact printed
  ends := Text.upToQuote?_quoted
  reversible := Text.unescape_escape

end Prints

/-- The plain values of a sane store that print alike are equal, and the store of every program is
sane. -/
theorem run_prints_readably :
    (∀ st, Sane st → PrintsReadably st) ∧
      ∀ steps : List (Step × ℕ), Sane (run steps).store ∧
        ∀ v ∈ (run steps).values, In (run steps).store v :=
  ⟨fun _ => printsReadably_of_sane, sane_run⟩

end Hashing

/-- A list, and a lazy sequence of the same items, one of them with a quote in its text. -/
def quoting : List (Step × ℕ) :=
  [(.int 1, 9), (.str "say \"hi\"", 9), (.list [0, 1], 9), (.lazy fun k => [0, 1][k]?, 9)]

attribute [local instance] Hasher.sum in
theorem run_prints_readably_quoting :
    ∃ text, Prints (run quoting).store ((run quoting).value 2) text ∧
      Prints (run quoting).store ((run quoting).value 3) text ∧
      Equals (run quoting).store ((run quoting).value 2) ((run quoting).value 3) := by
  have valid := valid_run quoting
  have readable := run_prints_readably.1 _ valid.sane
  have items : ∀ x ∈ [Value.int 1, .str "say \"hi\""], Plain (run quoting).store x := by
    rw [List.forall_mem_cons, List.forall_mem_cons]
    exact ⟨.int 1, .str _, nofun⟩
  have pending : (run quoting).store.Pending 0 { source := 0 }
      { answer := fun k => ([0, 1][k]?).map (run (quoting.take 3)).value } := ⟨rfl, rfl, rfl⟩
  have reads : Seq.Reads (run quoting).store (.lazy 0) [.int 1, .str "say \"hi\""] :=
    .pending pending ⟨rfl, rfl, rfl⟩
  have plain : Plain (run quoting).store ((run quoting).value 2) :=
    .spine rfl (Seq.reads_ofList _ _) items
  have plain' : Plain (run quoting).store ((run quoting).value 3) := .spine rfl reads items
  obtain ⟨text, prints, -⟩ := readable.prints (valid.value 2) plain
  obtain ⟨text', prints', -⟩ := readable.prints (valid.value 3) plain'
  -- each is printed once, and no other text is possible
  have ran : ∃ st, ((run quoting).value 2).print {} 9 (run quoting).store =
      some (Value.text (.list ⟨[.int 1, .str "say \"hi\""], none⟩), st) := ⟨_, rfl⟩
  have ran' : ∃ st, ((run quoting).value 3).print {} 9 (run quoting).store =
      some (Value.text (.seq (.realized [.int 1, .str "say \"hi\""])), st) := ⟨_, rfl⟩
  have same : text = text' := by
    obtain ⟨st, done⟩ := ran
    obtain ⟨st', done'⟩ := ran'
    rw [← prints.only 9 _ (.refl valid.sane) _ st done,
      ← prints'.only 9 _ (.refl valid.sane) _ st' done', text_layout, text_layout]
    rfl
  subst same
  exact ⟨text, prints, prints', readable.injective (valid.value 2) (valid.value 3) plain plain' text
    prints prints'⟩

end Persistent.Value
