import Mathlib.Data.List.Forall2
import Persistent.Text

/-!
Separated items between brackets. Where each item can be told from another and from what comes
behind it, so can the whole enclosure.
-/

set_option autoImplicit false

namespace Persistent.Text

/-- The characters that may come behind an item: those that begin a separator or close brackets. -/
def Delimiter (c : Char) : Prop :=
  c = ' ' ∨ c = ',' ∨ c = ')' ∨ c = ']' ∨ c = '\x7d'

instance : DecidablePred Delimiter :=
  fun c => inferInstanceAs (Decidable (c = ' ' ∨ c = ',' ∨ c = ')' ∨ c = ']' ∨ c = '\x7d'))

/-- Nothing, or a text that begins with a delimiter. -/
def Closed (rest : List Char) : Prop :=
  ∀ c ∈ rest.head?, Delimiter c

theorem closed_nil : Closed [] := nofun

theorem closed_cons {c : Char} (delimiter : Delimiter c) (cs : List Char) : Closed (c :: cs) := by
  rintro _ ⟨⟩
  exact delimiter

/-- A text with a first character, which is no delimiter. -/
def Begins (s : String) : Prop :=
  ∃ c cs, s.toList = c :: cs ∧ ¬Delimiter c

/-- Two texts that are the same up to some delimiters are so only where `R` holds, and to the same
delimiters. -/
def Told (s t : String) (R : Prop) : Prop :=
  ∀ rest rest', Closed rest → Closed rest' → s.toList ++ rest = t.toList ++ rest' →
    R ∧ rest = rest'

theorem Told.imp {s t : String} {R R' : Prop} (told : Told s t R) (weaker : R → R') :
    Told s t R' :=
  fun rest rest' closed closed' same =>
    (told rest rest' closed closed' same).imp_left weaker

/-- Two texts with a space between them. -/
theorem Told.pair {s t s' t' : String} {R R' : Prop} (first : Told s t R) (second : Told s' t' R') :
    Told (s ++ " " ++ s') (t ++ " " ++ t') (R ∧ R') := by
  intro rest rest' closed closed' same
  simp only [String.toList_append, List.append_assoc] at same
  have space (cs : List Char) : Closed (" ".toList ++ cs) := closed_cons (.inl rfl) cs
  obtain ⟨related, behind⟩ := first _ _ (space _) (space _) same
  obtain ⟨related', rests⟩ := second rest rest' closed closed' (List.append_cancel_left behind)
  exact ⟨⟨related, related'⟩, rests⟩

theorem Begins.append {s : String} (begins : Begins s) (t : String) : Begins (s ++ t) := by
  obtain ⟨c, cs, first, text⟩ := begins
  exact ⟨c, cs ++ t.toList, by rw [String.toList_append, first]; rfl, text⟩

theorem toList_enclosed (left separator right : String) (items : List String) :
    (enclosed left separator right items).toList =
      left.toList ++ ((separator.intercalate items).toList ++ right.toList) := by
  simp [enclosed]

section Items

variable {A : Type} {f : A → String}

theorem toList_intercalate_cons (separator : String) (x : A) (xs : List A) :
    (separator.intercalate ((x :: xs).map f)).toList =
      (f x).toList ++ xs.flatMap fun y => separator.toList ++ (f y).toList := by
  induction xs generalizing x with
  | nil => simp
  | cons y ys ih =>
    have rest := ih y
    rw [List.map_cons] at rest
    simp [rest]

variable {R : A → A → Prop} {separator right : String} {d c : Char}
  {ds : List Char} (begun : separator.toList = d :: ds) (ended : right.toList = [c])
  (delimiter : Delimiter d) (closing : Delimiter c) (other : d ≠ c)

include begun delimiter closing

omit ended other in
theorem closed_separated (xs : List A) (rest : List Char) :
    Closed ((xs.flatMap fun x => separator.toList ++ (f x).toList) ++ c :: rest) := by
  cases xs with
  | nil => exact closed_cons closing rest
  | cons x xs =>
    rw [List.flatMap_cons, begun]
    exact closed_cons delimiter _

include other

theorem separated_inj {xs ys : List A} (each : ∀ x ∈ xs, ∀ y ∈ ys, Told (f x) (f y) (R x y))
    {rest rest' : List Char}
    (same : (xs.flatMap fun x => separator.toList ++ (f x).toList) ++ c :: rest =
      (ys.flatMap fun y => separator.toList ++ (f y).toList) ++ c :: rest') :
    List.Forall₂ R xs ys ∧ rest = rest' := by
  induction xs generalizing ys with
  | nil =>
    cases ys with
    | nil => exact ⟨.nil, (List.cons.inj same).2⟩
    | cons y ys =>
      rw [List.flatMap_cons, begun] at same
      exact absurd (List.cons.inj same).1.symm other
  | cons x xs ih =>
    cases ys with
    | nil =>
      rw [List.flatMap_cons, begun] at same
      exact absurd (List.cons.inj same).1 other
    | cons y ys =>
      rw [List.flatMap_cons, List.flatMap_cons] at same
      simp only [List.append_assoc] at same
      obtain ⟨first, behind⟩ := each x List.mem_cons_self y List.mem_cons_self _ _
        (closed_separated begun delimiter closing xs rest)
        (closed_separated begun delimiter closing ys rest') (List.append_cancel_left same)
      obtain ⟨items, rests⟩ := ih (fun x hx y hy =>
        each x (List.mem_cons_of_mem _ hx) y (List.mem_cons_of_mem _ hy)) behind
      exact ⟨.cons first items, rests⟩

include ended

theorem enclosed_append_inj {left : String} {xs ys : List A}
    (each : ∀ x ∈ xs, ∀ y ∈ ys, Told (f x) (f y) (R x y)) (begins : ∀ x ∈ xs, Begins (f x))
    (begins' : ∀ y ∈ ys, Begins (f y)) {rest rest' : List Char}
    (same : (enclosed left separator right (xs.map f)).toList ++ rest =
      (enclosed left separator right (ys.map f)).toList ++ rest') :
    List.Forall₂ R xs ys ∧ rest = rest' := by
  simp only [toList_enclosed, ended, List.append_assoc, List.cons_append, List.nil_append] at same
  have inner := List.append_cancel_left same
  -- an item begins where an empty enclosure closes
  have filled (z : A) (zs : List A) (begins : Begins (f z)) (rest rest' : List Char) :
      (separator.intercalate ((z :: zs).map f)).toList ++ c :: rest ≠ c :: rest' := by
    obtain ⟨b, bs, first, text⟩ := begins
    rw [toList_intercalate_cons, first]
    intro equal
    rw [List.cons_append, List.cons_append] at equal
    exact text ((List.cons.inj equal).1 ▸ closing)
  cases xs with
  | nil =>
    cases ys with
    | nil => exact ⟨.nil, by simpa using inner⟩
    | cons y ys =>
      rw [List.map_nil, String.intercalate_nil] at inner
      exact absurd inner.symm (filled y ys (begins' y List.mem_cons_self) _ _)
  | cons x xs =>
    cases ys with
    | nil =>
      rw [List.map_nil, String.intercalate_nil] at inner
      exact absurd inner (filled x xs (begins x List.mem_cons_self) _ _)
    | cons y ys =>
      rw [toList_intercalate_cons, toList_intercalate_cons, List.append_assoc,
        List.append_assoc] at inner
      obtain ⟨first, behind⟩ := each x List.mem_cons_self y List.mem_cons_self _ _
        (closed_separated begun delimiter closing xs rest)
        (closed_separated begun delimiter closing ys rest') inner
      obtain ⟨items, rests⟩ := separated_inj begun delimiter closing other (fun x hx y hy =>
        each x (List.mem_cons_of_mem _ hx) y (List.mem_cons_of_mem _ hy)) behind
      exact ⟨.cons first items, rests⟩

end Items

end Persistent.Text
