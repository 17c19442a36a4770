import Persistent.Proofs.Text.Enclosed
import Persistent.Proofs.Text.Quoted
import Persistent.Proofs.Value.Delivering
import Persistent.Proofs.Value.Plain

/-!
The text of a value by the texts of its parts. The first character tells the form of the value, and
no text of a plain value begins with a separator or a closing bracket.
-/

set_option autoImplicit false

namespace Persistent.Value

/-- The text of a value by the texts of its parts. -/
def layout (part : Value → String) : Value → String
  | .nil => "nil"
  | .bool b => if b then "true" else "false"
  | .int n => toString n.toInt
  | .str s => Text.quoted s
  | .keyword k => k.text
  | .symbol s => s.text
  | .list l => Text.enclosed "(" " " ")" (l.items.map part)
  | .seq s => Text.enclosed "(" " " ")" (s.known.map part)
  | .vector v => Text.enclosed "[" " " "]" (v.toList.map part)
  | .set s => Text.enclosed "#\x7b" " " "\x7d" (s.elements.map part)
  | .map m =>
    Text.enclosed "\x7b" ", " "\x7d" (m.toList.map fun e => part e.1 ++ " " ++ part e.2)

theorem render_layout (depth : ℕ) (v : Value) :
    render {} depth v = layout (render {} (depth + 1)) v := by
  have shown {A : Type} (xs : List A) : PrintOptions.shown {} xs = xs := rfl
  cases v with
  | map m =>
    have entries := List.attach_map_val (l := m.toList)
      (f := fun e : Value × Value =>
        render {} (depth + 1) e.1 ++ " " ++ render {} (depth + 1) e.2)
    rw [render]
    simp only [PrintOptions.hides, PrintOptions.ellipsis, Option.any_none, Bool.and_false,
      Bool.not_false, Bool.true_or, Bool.false_eq_true, if_true, if_false, List.append_nil, layout]
    split <;> exact (String.empty_append).trans (congrArg _ entries)
  | _ =>
    rw [render]
    simp [PrintOptions.hides, PrintOptions.ellipsis, shown, layout]
    split <;> rfl

/-- The text does not depend on the depth. -/
theorem render_depth (depth : ℕ) (v : Value) : render {} depth v = v.text := by
  induction size : sizeOf v using Nat.strongRecOn generalizing v depth with
  | ind N ih =>
    subst size
    have part {x : Value} (smaller : sizeOf x < sizeOf v) (d d' : ℕ) :
        render {} d x = render {} d' x :=
      (ih _ smaller d x rfl).trans (ih _ smaller d' x rfl).symm
    rw [text, render_layout, render_layout]
    rcases kinds v with flat | ⟨xs, i, spine⟩ | ⟨m, rfl⟩ | ⟨s, rfl⟩
    · cases v <;> first | rfl | cases flat
    · have items : xs.map (render {} (depth + 1)) = xs.map (render {} 1) :=
        List.map_congr_left fun x hx => part (sizeOf_spine spine hx) _ _
      cases v with
      | list | vector =>
        cases spine
        exact congrArg (Text.enclosed _ _ _) items
      | seq =>
        obtain ⟨rfl, -⟩ := Prod.mk.inj (Option.some.inj spine)
        exact congrArg (Text.enclosed _ _ _) items
      | _ => cases spine
    · refine congrArg (Text.enclosed _ _ _) (List.map_congr_left fun e he => ?_)
      have smaller := Map.sizeOf_mem he
      rw [Value.map.sizeOf_spec] at part
      rw [part (by omega) (depth + 1) 1, part (x := e.2) (by omega) (depth + 1) 1]
    · refine congrArg (Text.enclosed _ _ _) (List.map_congr_left fun x hx => ?_)
      have smaller := Set.sizeOf_mem hx
      rw [Value.set.sizeOf_spec] at part
      exact part (by omega) _ _

theorem text_layout (v : Value) : v.text = layout text v := by
  have parts : render {} (0 + 1) = text := funext (render_depth 1)
  exact (render_layout 0 v).trans (congrArg (layout · v) parts)

/-- What the first character of a text tells. -/
inductive Form
  | nil
  | bool
  | number
  | string
  | round
  | square
  | set
  | map

def Form.ofChar : Char → Form
  | 'n' => .nil
  | 't' | 'f' => .bool
  | '"' => .string
  | '(' => .round
  | '[' => .square
  | '#' => .set
  | '\x7b' => .map
  | _ => .number

/-- The form of a value that is no name. -/
def form? : Value → Option Form
  | .nil => some .nil
  | .bool _ => some .bool
  | .int _ => some .number
  | .str _ => some .string
  | .keyword _ | .symbol _ => none
  | .list _ | .seq _ => some .round
  | .vector _ => some .square
  | .set _ => some .set
  | .map _ => some .map

theorem ofChar_numeric {c : Char} (numeric : Text.Numeric c) : Form.ofChar c = .number := by
  unfold Form.ofChar
  split
  case h_9 => rfl
  all_goals exact absurd numeric (by decide)

theorem not_delimiter_of_numeric {c : Char} (numeric : Text.Numeric c) : ¬Text.Delimiter c := by
  rintro (rfl | rfl | rfl | rfl | rfl) <;> exact absurd numeric (by decide)

theorem text_begins {v : Value} {f : Form} (form : v.form? = some f) :
    ∃ c cs, v.text.toList = c :: cs ∧ Form.ofChar c = f ∧ ¬Text.Delimiter c := by
  rw [text_layout]
  cases v with
  | keyword | symbol => cases form
  | bool b =>
    cases form
    cases b <;> exact ⟨_, _, rfl, rfl, by decide⟩
  | int n =>
    cases form
    obtain ⟨c, cs, digits⟩ := List.exists_cons_of_ne_nil (Text.decimal_ne_nil n.toInt)
    have numeric := Text.numeric_decimal n.toInt c (by rw [digits]; exact List.mem_cons_self)
    exact ⟨c, cs, digits, ofChar_numeric numeric, not_delimiter_of_numeric numeric⟩
  | str s =>
    cases form
    exact ⟨_, _, Text.toList_quoted s, rfl, by decide⟩
  | nil =>
    cases form
    exact ⟨_, _, rfl, rfl, by decide⟩
  | _ =>
    cases form
    exact ⟨_, _, Text.toList_enclosed _ _ _ _, rfl, by decide⟩

theorem form_of_plain {st : Store Value} {v : Value} (plain : Plain st v) :
    ∃ f, v.form? = some f := by
  cases plain with
  | spine sequence => cases v <;> first | exact ⟨_, rfl⟩ | cases sequence
  | _ => exact ⟨_, rfl⟩

theorem begins_of_plain {st : Store Value} {v : Value} (plain : Plain st v) :
    Text.Begins v.text := by
  obtain ⟨f, form⟩ := form_of_plain plain
  obtain ⟨c, cs, first, -, text⟩ := text_begins form
  exact ⟨c, cs, first, text⟩

/-- Texts that begin alike are of values of one form. -/
theorem form_inj {v w : Value} {f g : Form} (form : v.form? = some f) (form' : w.form? = some g)
    {rest rest' : List Char} (same : v.text.toList ++ rest = w.text.toList ++ rest') : f = g := by
  obtain ⟨c, cs, first, rfl, -⟩ := text_begins form
  obtain ⟨d, ds, first', rfl, -⟩ := text_begins form'
  rw [first, first', List.cons_append, List.cons_append] at same
  rw [(List.cons.inj same).1]

/-- The brackets around the items of a sequence tell its form. -/
theorem text_spine {v : Value} {xs : List Value} {i : Option ℕ} (spine : v.spine? = some (xs, i)) :
    (v.form? = some .round ∧ v.text = Text.enclosed "(" " " ")" (xs.map text)) ∨
    (v.form? = some .square ∧ v.text = Text.enclosed "[" " " "]" (xs.map text)) := by
  rw [text_layout]
  cases v with
  | list => cases spine; exact .inl ⟨rfl, rfl⟩
  | vector => cases spine; exact .inr ⟨rfl, rfl⟩
  | seq =>
    obtain ⟨rfl, -⟩ := Prod.mk.inj (Option.some.inj spine)
    exact .inl ⟨rfl, rfl⟩
  | _ => cases spine

theorem spine_of_form {v w : Value} {xs : List Value} {i : Option ℕ}
    (spine : v.spine? = some (xs, i)) (form : v.form? = w.form?) :
    ∃ ys j, w.spine? = some (ys, j) := by
  rcases text_spine spine with ⟨round, -⟩ | ⟨square, -⟩
  · cases w <;> first | exact ⟨_, _, rfl⟩ | cases round.symm.trans form
  · cases w <;> first | exact ⟨_, _, rfl⟩ | cases square.symm.trans form

end Persistent.Value
