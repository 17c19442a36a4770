import Persistent.Proofs.Seq.Taking
import Persistent.Proofs.Value.Program

/-!
What the printed text of a value is, by what its sequences show. A collection is written between
brackets, piece by piece, up to the limit on its length, and as a mark where it lies too deep.
Metadata is written in front, as a map at the depth of the value that carries it.
-/

set_option autoImplicit false

namespace Persistent.Value

/-- The brackets around the pieces of a collection, and what stands between two pieces. -/
structure Frame where
  left : String
  separator : String
  right : String

namespace Frame

def round : Frame :=
  ⟨"(", " ", ")"⟩

def square : Frame :=
  ⟨"[", " ", "]"⟩

def elements : Frame :=
  ⟨"#\x7b", " ", "\x7d"⟩

def entries : Frame :=
  ⟨"\x7b", ", ", "\x7d"⟩

end Frame

/-- The texts in order, with the separator between each two neighbours. -/
def join (separator : String) : List String → String
  | [] => ""
  | [text] => text
  | text :: next :: texts => text ++ separator ++ join separator (next :: texts)

theorem intercalate_eq_join (separator : String) (texts : List String) :
    separator.intercalate texts = join separator texts := by
  induction texts with
  | nil => rfl
  | cons text texts ih =>
    cases texts with
    | nil => simp [join]
    | cons next texts => simp [join, ← ih]

/-- The left bracket, the joined texts and the right bracket. -/
def Frame.enclose (frame : Frame) (texts : List String) : String :=
  frame.left ++ join frame.separator texts ++ frame.right

theorem Frame.enclosed_eq (frame : Frame) (texts : List String) :
    Text.enclosed frame.left frame.separator frame.right texts = frame.enclose texts := by
  rw [Text.enclosed, intercalate_eq_join, enclose]

def frame? : Value → Option Frame
  | .list _ | .seq _ => some .round
  | .vector _ => some .square
  | .set _ => some .elements
  | .map _ => some .entries
  | _ => none

/-- The text of a value that is no collection, metadata apart. -/
def atom (opts : PrintOptions) : Value → String
  | .nil => "nil"
  | .bool b => if b then "true" else "false"
  | .int n => toString n.toInt
  | .str s => if opts.readably then Text.quoted s else s
  | .keyword k => k.text
  | .symbol s => s.text
  | _ => ""

/-- An entry is one piece, made of its key and its value. -/
def ofEntries (m : Map Metadata Value Value) : List (List Value) :=
  m.toList.map fun e => [e.1, e.2]

/-- The pieces that are known. -/
def pieces : Value → List (List Value)
  | .list l => l.items.map ([·])
  | .vector v => v.toList.map ([·])
  | .set s => s.elements.map ([·])
  | .map m => ofEntries m
  | .seq s => s.known.map ([·])
  | _ => []

/-- The text of a piece, given those of its values. -/
def glue (part : Value → String) (piece : List Value) : String :=
  join " " (piece.map part)

/-- The metadata that is written. -/
def attached (opts : PrintOptions) (metadata : Option (Map Metadata Value Value)) :
    Option (Map Metadata Value Value) :=
  if opts.metadata then metadata.filter (!·.isEmpty) else none

@[simp]
theorem attached_none (opts : PrintOptions) : attached opts none = none := by
  unfold attached
  split <;> rfl

/-- The pieces of a value in a store. Those of a sequence are what it shows. -/
inductive HasPieces (st : Store Value) : Value → Seq.Items (List Value) → Prop
  | known {v : Value} (closed : ∀ s, v ≠ .seq s) : HasPieces st v (v.pieces[·]?)
  | seq {s : Seq Value} {f : Seq.Items Value} (shows : Seq.Shows st s f) :
      HasPieces st (.seq s) fun i => (f i).map ([·])

/-- The pieces that are written: all of them, if they are within the limit on the length; else as
many as the limit says, with an ellipsis behind them. -/
inductive Trimmed {A : Type} (opts : PrintOptions) (f : Seq.Items A) : List A → List String → Prop
  | whole {n : ℕ} (ends : Seq.Items.EndsAt f n)
      (within : ∀ limit, opts.length = some limit → n ≤ limit) :
      Trimmed opts f (Seq.Items.take n f) []
  | cut {n : ℕ} (limit : opts.length = some n) (more : ∀ i ≤ n, (f i).isSome) :
      Trimmed opts f (Seq.Items.take n f) ["..."]

/-- What is written: a value, a value without its metadata, or pieces between brackets. -/
inductive Written where
  | value (v : Value)
  | own (v : Value)
  | pieces (frame : Frame) (all : Seq.Items (List Value))

/-- The text at a depth. -/
inductive Writes (st : Store Value) (opts : PrintOptions) : ℕ → Written → String → Prop
  | mark {d : ℕ} {frame : Frame} {all : Seq.Items (List Value)} (deep : opts.hides d = true) :
      Writes st opts d (.pieces frame all) "#"
  | pieces {d : ℕ} {frame : Frame} {all : Seq.Items (List Value)} {shown : List (List Value)}
      {more : List String} {part : Value → String} (near : opts.hides d = false)
      (trimmed : Trimmed opts all shown more)
      (parts : ∀ piece ∈ shown, ∀ x ∈ piece, Writes st opts (d + 1) (.value x) (part x)) :
      Writes st opts d (.pieces frame all) (frame.enclose (shown.map (glue part) ++ more))
  | atom {d : ℕ} {v : Value} (single : v.frame? = none) : Writes st opts d (.own v) (v.atom opts)
  | collection {d : ℕ} {v : Value} {frame : Frame} {all : Seq.Items (List Value)} {text : String}
      (framed : v.frame? = some frame) (has : HasPieces st v all)
      (row : Writes st opts d (.pieces frame all) text) : Writes st opts d (.own v) text
  | bare {d : ℕ} {v : Value} {text : String} (none : attached opts v.metadata? = none)
      (own : Writes st opts d (.own v) text) : Writes st opts d (.value v) text
  | metadata {d : ℕ} {v : Value} {m : Map Metadata Value Value} {front text : String}
      (carried : attached opts v.metadata? = some m)
      (row : Writes st opts d (.pieces .entries ((ofEntries m)[·]?)) front)
      (own : Writes st opts d (.own v) text) :
      Writes st opts d (.value v) ("^" ++ front ++ " " ++ text)

theorem Trimmed.unique {A : Type} {opts : PrintOptions} {f : Seq.Items A} {shown shown' : List A}
    {more more' : List String} (h : Trimmed opts f shown more) (k : Trimmed opts f shown' more') :
    shown = shown' ∧ more = more' := by
  have apart {n m : ℕ} (ends : Seq.Items.EndsAt f n) (le : n ≤ m) (more : ∀ i ≤ m, (f i).isSome) :
      False := by
    have item := more n le
    rw [ends.done] at item
    cases item
  cases h with
  | whole ends within =>
    cases k with
    | whole ends' => exact ⟨by rw [ends.unique ends'], rfl⟩
    | cut limit more => exact (apart ends (within _ limit) more).elim
  | cut limit more =>
    cases k with
    | whole ends within => exact (apart ends (within _ limit) more).elim
    | cut limit' =>
      cases limit.symm.trans limit'
      exact ⟨rfl, rfl⟩

theorem HasPieces.unique {st : Store Value} {v : Value} {all all' : Seq.Items (List Value)}
    (h : HasPieces st v all) (k : HasPieces st v all') : all = all' := by
  cases h with
  | known closed =>
    cases k with
    | known => rfl
    | seq => exact absurd rfl (closed _)
  | seq shows =>
    cases k with
    | known closed => exact absurd rfl (closed _)
    | seq shows' => rw [shows.unique shows']

theorem Writes.unique {st : Store Value} {opts : PrintOptions} {d : ℕ} {w : Written}
    {text text' : String} (h : Writes st opts d w text) (k : Writes st opts d w text') :
    text = text' := by
  induction h generalizing text' with
  | mark deep =>
    cases k with
    | mark => rfl
    | pieces near => cases deep.symm.trans near
  | pieces near trimmed parts ih =>
    cases k with
    | mark deep => cases deep.symm.trans near
    | pieces near' trimmed' parts' =>
      obtain ⟨rfl, rfl⟩ := trimmed.unique trimmed'
      refine congrArg (fun texts => Frame.enclose _ (texts ++ _)) (List.map_congr_left ?_)
      intro piece member
      exact congrArg (join " ") (List.map_congr_left fun x hx =>
        ih piece member x hx (parts' piece member x hx))
  | atom single =>
    cases k with
    | atom => rfl
    | collection framed => cases single.symm.trans framed
  | collection framed has row ih =>
    cases k with
    | atom single => cases single.symm.trans framed
    | collection framed' has' row' =>
      cases framed.symm.trans framed'
      obtain rfl := has.unique has'
      exact ih row'
  | bare none own ih =>
    cases k with
    | bare none' own' => exact ih own'
    | metadata carried => cases none.symm.trans carried
  | metadata carried row own ih ih' =>
    cases k with
    | bare none => cases none.symm.trans carried
    | metadata carried' row' own' =>
      cases carried.symm.trans carried'
      rw [ih row', ih' own']

/-- The written pieces of known ones, between their brackets. -/
def rowText (opts : PrintOptions) (d : ℕ) (frame : Frame) (known : List (List Value)) : String :=
  if opts.hides d then "#"
  else frame.enclose
    ((opts.shown known).map (glue (render opts (d + 1))) ++ opts.ellipsis known)

def ownText (opts : PrintOptions) (d : ℕ) (v : Value) : String :=
  match v.frame? with
  | none => v.atom opts
  | some frame => rowText opts d frame v.pieces

def frontText (opts : PrintOptions) (d : ℕ) (metadata : Option (Map Metadata Value Value)) :
    String :=
  match attached opts metadata with
  | none => ""
  | some m => "^" ++ rowText opts d .entries (ofEntries m) ++ " "

section Lists

variable {A B : Type} (opts : PrintOptions)

theorem shown_map (f : A → B) (xs : List A) : opts.shown (xs.map f) = (opts.shown xs).map f := by
  unfold PrintOptions.shown
  split
  · rfl
  · exact List.map_take.symm

theorem ellipsis_of_length {xs : List A} {ys : List B} (length : xs.length = ys.length) :
    opts.ellipsis xs = opts.ellipsis ys := by
  unfold PrintOptions.ellipsis
  rw [length]

/-- All items are at hand. -/
theorem trimmed_whole {n : ℕ} {f : Seq.Items A} (ends : Seq.Items.EndsAt f n) :
    Trimmed opts f (opts.shown (Seq.Items.take n f)) (opts.ellipsis (Seq.Items.take n f)) := by
  unfold PrintOptions.shown PrintOptions.ellipsis
  rw [Seq.Items.length_take ends.before]
  cases limit : opts.length with
  | none => exact .whole ends (by simp [limit])
  | some m =>
    by_cases within : n ≤ m
    · have all : (Seq.Items.take n f).take m = Seq.Items.take n f :=
        List.take_of_length_le
          (Nat.le_trans (Nat.le_of_eq (Seq.Items.length_take ends.before)) within)
      simp only [Option.any_some, all, decide_eq_true_eq, if_neg (Nat.not_lt.2 within)]
      exact .whole ends (by simpa [limit] using within)
    · have inside := Nat.lt_of_not_le within
      simp only [Option.any_some, Seq.Items.take_take (Nat.le_of_lt inside), decide_eq_true_eq,
        if_pos inside]
      exact .cut limit fun i le => ends.before i (Nat.lt_of_le_of_lt le inside)

/-- One item more is at hand than the limit allows. -/
theorem trimmed_front {n : ℕ} (limit : opts.length = some n) (f : Seq.Items A) :
    Trimmed opts f (opts.shown (Seq.Items.take (n + 1) f))
      (opts.ellipsis (Seq.Items.take (n + 1) f)) := by
  by_cases more : ∀ i ≤ n, (f i).isSome
  · have count := Seq.Items.length_take fun i (less : i < n + 1) => more i (Nat.le_of_lt_succ less)
    unfold PrintOptions.shown PrintOptions.ellipsis
    rw [count]
    simp only [limit, Option.any_some, Seq.Items.take_take (Nat.le_succ n), Nat.lt_succ_self,
      decide_true, if_true]
    exact .cut limit more
  · obtain ⟨m, le, ends⟩ := Seq.Items.exists_endsAt more
    rw [Seq.Items.take_of_ends ends (Nat.le_succ_of_le le)]
    exact trimmed_whole opts ends

/-- A list is at hand as a whole. -/
theorem trimmed_list (xs : List A) :
    Trimmed opts (xs[·]?) (opts.shown xs) (opts.ellipsis xs) := by
  have whole := trimmed_whole opts (Seq.Items.endsAt_ofList xs)
  rw [Seq.Items.take_ofList] at whole
  exact whole

theorem trimmed_map (g : A → B) (xs : List A) :
    Trimmed opts ((xs.map g)[·]?) ((opts.shown xs).map g) (opts.ellipsis xs) := by
  have whole := trimmed_list opts (xs.map g)
  rw [shown_map, ellipsis_of_length opts (List.length_map g)] at whole
  exact whole

variable {opts} in
theorem Trimmed.map {f : Seq.Items A} {shown : List A} {more : List String} (g : A → B)
    (h : Trimmed opts f shown more) :
    Trimmed opts (fun i => (f i).map g) (shown.map g) more := by
  cases h with
  | whole ends within =>
    rw [← Seq.Items.take_map]
    refine .whole ⟨?_, fun i inside => ?_⟩ within
    · rw [ends.done, Option.map_none]
    · rw [Option.isSome_map]
      exact ends.before i inside
  | cut limit more =>
    rw [← Seq.Items.take_map]
    refine .cut limit fun i le => ?_
    rw [Option.isSome_map]
    exact more i le

end Lists

section Rows

variable (opts : PrintOptions) (d : ℕ)

/-- Items are pieces of one value each. -/
theorem rowText_items (frame : Frame) (xs : List Value) :
    rowText opts d frame (xs.map ([·])) =
      if opts.hides d then "#"
      else frame.enclose ((opts.shown xs).map (render opts (d + 1)) ++ opts.ellipsis xs) := by
  unfold rowText
  have same : (xs.map ([·])).length = xs.length := List.length_map ([·])
  rw [shown_map, List.map_map, ellipsis_of_length opts same]
  rfl

theorem rowText_entries (m : Map Metadata Value Value) :
    rowText opts d .entries (ofEntries m) =
      if opts.hides d then "#"
      else Frame.entries.enclose ((opts.shown m.toList).map (fun e =>
        render opts (d + 1) e.1 ++ " " ++ render opts (d + 1) e.2) ++ opts.ellipsis m.toList) := by
  unfold rowText ofEntries
  rw [shown_map, List.map_map, ellipsis_of_length opts (List.length_map _)]
  rfl

/-- The text of a value is that of its metadata and its own behind it. -/
theorem render_eq (v : Value) :
    render opts d v = frontText opts d v.metadata? ++ ownText opts d v := by
  have items (frame : Frame) (xs : List Value) :
      (if (true && opts.hides d) = true then "#"
      else Text.enclosed frame.left frame.separator frame.right
        ((opts.shown xs).attach.map (fun x => render opts (d + 1) x.1) ++ opts.ellipsis xs)) =
        rowText opts d frame (xs.map ([·])) := by
    have texts := List.attach_map_val (l := opts.shown xs) (f := render opts (d + 1))
    rw [rowText_items, Bool.true_and, ← texts, frame.enclosed_eq]
  have entries (m : Map Metadata Value Value) :
      (if (true && opts.hides d) = true then "#"
      else Text.enclosed Frame.entries.left Frame.entries.separator Frame.entries.right
        ((opts.shown m.toList).attach.map (fun e =>
          render opts (d + 1) e.1.1 ++ " " ++ render opts (d + 1) e.1.2) ++
            opts.ellipsis m.toList)) = rowText opts d .entries (ofEntries m) := by
    have texts := List.attach_map_val (l := opts.shown m.toList)
      (f := fun e : Value × Value => render opts (d + 1) e.1 ++ " " ++ render opts (d + 1) e.2)
    rw [rowText_entries, Bool.true_and, ← texts, Frame.entries.enclosed_eq]
  rw [render.eq_def]
  refine congrArg₂ (· ++ ·) ?_ ?_
  · split
    case h_1 none =>
      rw [frontText, none, attached_none]
    case h_2 m carried =>
      by_cases printed : opts.metadata = true ∧ m.isEmpty = false
      · have present : attached opts v.metadata? = some m := by
          rw [carried, attached, if_pos printed.1, Option.filter_some, printed.2]
          rfl
        have deep : "^# " = "^" ++ "#" ++ " " := rfl
        rw [frontText, present]
        dsimp only
        rw [← entries, Bool.true_and, if_neg (by simp [printed]), deep]
        split <;> rfl
      · have absent : attached opts v.metadata? = none := by
          rw [carried, attached, Option.filter_some]
          split
          · rename_i shown
            rw [if_neg]
            simpa [shown] using printed
          · rfl
        rw [frontText, absent, if_pos]
        cases shown : opts.metadata with
        | false => rfl
        | true => simpa [shown] using printed
  · cases v with
    | list l => exact items .round l.items
    | vector v => exact items .square v.toList
    | set s => exact items .elements s.elements
    | seq s => exact items .round s.known
    | map m => exact entries m
    | _ => rfl

end Rows

end Persistent.Value
