import Persistent.Proofs.Value.Looking
import Persistent.Proofs.Value.Written

/-!
What printing reaches in a value and at which depth, and the places of the sequences that it opens
there. Nothing is reached through a collection that lies too deep, and nothing behind the pieces
that are written.
-/

set_option autoImplicit false

namespace Persistent.Value

section Places

variable (st : Store Value) (opts : PrintOptions)

/-- The rows of a value: its own pieces, if it is a collection, and the metadata in front. -/
inductive Row (v : Value) : Seq.Items (List Value) → Prop
  | own {frame : Frame} {all : Seq.Items (List Value)} (framed : v.frame? = some frame)
      (has : HasPieces st v all) : Row v all
  | metadata {m : Map Metadata Value Value} (carried : attached opts v.metadata? = some m) :
      Row v ((ofEntries m)[·]?)

/-- The value is in a piece that is written. -/
def InRow (all : Seq.Items (List Value)) (x : Value) : Prop :=
  ∃ shown more, Trimmed opts all shown more ∧ ∃ piece ∈ shown, x ∈ piece

/-- From a value at a depth, printing gets to a value at another depth. -/
inductive Reaches : ℕ → Value → ℕ → Value → Prop
  | here {d : ℕ} {v : Value} : Reaches d v d v
  | part {d d' : ℕ} {v x w : Value} {all : Seq.Items (List Value)} (near : opts.hides d = false)
      (row : Row st opts v all) (shown : InRow opts all x) (onward : Reaches (d + 1) x d' w) :
      Reaches d v d' w

/-- Printing gets to the bottom of the value: nothing that it reaches is nested without end. -/
inductive Grounded : ℕ → Value → Prop
  | intro {d : ℕ} {v : Value} (parts : opts.hides d = false → ∀ all, Row st opts v all →
      ∀ x, InRow opts all x → Grounded (d + 1) x) : Grounded d v

/-- The place lies neither behind the limit on the length nor behind the end. So the places that
are met are as many as the items that are written, and one more. -/
def Within (f : Seq.Items Value) (k : ℕ) : Prop :=
  (∀ n, opts.length = some n → k ≤ n) ∧ ∀ size, Seq.Items.EndsAt f size → k ≤ size

/-- The place of a sequence is met when the value is printed at a depth. -/
def Opened (d : ℕ) (v : Value) (s : Seq Value) (k : ℕ) : Prop :=
  ∃ d' f, Reaches st opts d v d' (.seq s) ∧ opts.hides d' = false ∧ Seq.Shows st s f ∧
    Within opts f k

/-- Every sequence that is opened has an end. -/
def Ending (d : ℕ) (v : Value) : Prop :=
  ∀ d' s f, Reaches st opts d v d' (.seq s) → opts.hides d' = false → Seq.Shows st s f →
    ∃ n, Seq.Items.EndsAt f n

def Bounded (d : ℕ) (v : Value) : Prop :=
  opts.length.isSome ∨ Ending st opts d v

/-- The place is met in one of the values of a row. -/
def RowOpened (d : ℕ) (all : Seq.Items (List Value)) (s : Seq Value) (k : ℕ) : Prop :=
  opts.hides d = false ∧ ∃ x, InRow opts all x ∧ Opened st opts (d + 1) x s k

/-- The place is met in the metadata. -/
def FrontOpened (d : ℕ) (metadata : Option (Map Metadata Value Value)) (s : Seq Value) (k : ℕ) :
    Prop :=
  ∃ m, attached opts metadata = some m ∧ RowOpened st opts d ((ofEntries m)[·]?) s k

/-- The place is met in the value, metadata apart. -/
def OwnOpened (d : ℕ) (v : Value) (s : Seq Value) (k : ℕ) : Prop :=
  (v = .seq s ∧ opts.hides d = false ∧ ∃ f, Seq.Shows st s f ∧ Within opts f k) ∨
    ∃ frame all, v.frame? = some frame ∧ HasPieces st v all ∧ RowOpened st opts d all s k

end Places

section Opened

variable {st : Store Value} {opts : PrintOptions} {d : ℕ} {v x : Value}
  {all : Seq.Items (List Value)}

theorem InRow.exists_piece (h : InRow opts all x) :
    ∃ i piece, all i = some piece ∧ x ∈ piece := by
  obtain ⟨shown, more, trimmed, piece, among, part⟩ := h
  cases trimmed with
  | whole | cut =>
    obtain ⟨i, item⟩ := Seq.Items.mem_take among
    exact ⟨i, piece, item, part⟩

theorem inRow_iff {shown : List (List Value)} {more : List String}
    (trimmed : Trimmed opts all shown more) (x : Value) :
    InRow opts all x ↔ ∃ piece ∈ shown, x ∈ piece := by
  constructor
  · rintro ⟨shown', more', trimmed', among⟩
    obtain ⟨rfl, rfl⟩ := trimmed.unique trimmed'
    exact among
  · exact fun among => ⟨shown, more, trimmed, among⟩

theorem opened_iff (s : Seq Value) (k : ℕ) : Opened st opts d v s k ↔
    FrontOpened st opts d v.metadata? s k ∨ OwnOpened st opts d v s k := by
  constructor
  · rintro ⟨d', f, reaches, open', shows, within⟩
    cases reaches with
    | here => exact .inr (.inl ⟨rfl, open', f, shows, within⟩)
    | part near row shown onward =>
      have inside : RowOpened st opts d _ s k :=
        ⟨near, _, shown, d', f, onward, open', shows, within⟩
      cases row with
      | own framed has => exact .inr (.inr ⟨_, _, framed, has, inside⟩)
      | metadata carried => exact .inl ⟨_, carried, inside⟩
  · have through {all : Seq.Items (List Value)} (row : Row st opts v all) :
        RowOpened st opts d all s k → Opened st opts d v s k := by
      rintro ⟨near, x, shown, d', f, onward, others⟩
      exact ⟨d', f, .part near row shown onward, others⟩
    rintro (⟨m, carried, inside⟩ | ⟨rfl, open', f, others⟩ | ⟨frame, all, framed, has, inside⟩)
    · exact through (.metadata carried) inside
    · exact ⟨d, f, .here, open', others⟩
    · exact through (.own framed has) inside

theorem Bounded.part (h : Bounded st opts d v) (near : opts.hides d = false)
    (row : Row st opts v all) (shown : InRow opts all x) : Bounded st opts (d + 1) x :=
  h.imp id fun ending d' s f onward => ending d' s f (.part near row shown onward)

/-- A place does not lie behind the end if there is an item at every place in front of it. -/
theorem not_behind_end_iff (f : Seq.Items Value) (k : ℕ) :
    (∀ size, Seq.Items.EndsAt f size → k ≤ size) ↔ ∀ j < k, (f j).isSome := by
  constructor
  · intro inside j less
    by_contra none
    obtain ⟨size, le, ends⟩ := Seq.Items.exists_endsAt fun all => none (all j (Nat.le_refl j))
    have := inside size ends
    omega
  · intro before size ends
    by_contra behind
    have item := before size (Nat.lt_of_not_le behind)
    rw [ends.done] at item
    cases item

theorem within_iff {n : ℕ} (limit : opts.length = some n) (f : Seq.Items Value) (k : ℕ) :
    Within opts f k ↔ Front f (n + 1) k := by
  unfold Within Front
  rw [not_behind_end_iff]
  simp only [limit, Option.some.injEq, forall_eq', Nat.lt_succ_iff]

theorem within_iff_of_ends (free : opts.length = none) {n : ℕ} {f : Seq.Items Value}
    (ends : Seq.Items.EndsAt f n) (k : ℕ) : Within opts f k ↔ Front f (n + 1) k := by
  unfold Within Front
  rw [free, Nat.lt_succ_iff, ← not_behind_end_iff]
  exact ⟨fun h => ⟨h.2 n ends, h.2⟩, fun h => ⟨nofun, h.2⟩⟩

end Opened

end Persistent.Value
