import Persistent.Proofs.Value.Founding
import Persistent.Proofs.Value.Grounding

/-!
The limits on printing. They cut the text and nothing else: where no collection is larger or lies
deeper than they allow, the text is the one without them. A limit on the length also bounds what is
looked at, so that endless sequences are printed. A value that is nested without end is printed if
the level is limited; a limit on the length alone leaves its printing without an end.
-/

set_option autoImplicit false

open Persistent.Seq (Ahead Reached)

namespace Persistent

/-- The options without their limits. -/
def PrintOptions.unlimited (opts : PrintOptions) : PrintOptions :=
  { opts with length := none, level := none }

namespace Value

/-- Printing comes to the text of the value, and has looked at exactly the cells that it opens. -/
structure PrintsWithin (st : Store Value) (opts : PrintOptions) (v : Value) (text : String)
    (st' : Store Value) : Prop where
  comes : Comes (fun fuel => print opts fuel v) st text st'
  writes : Writes st opts 0 (.value v) text
  settled_iff : ∀ i, st'.settled i ↔
    st.settled i ∨ ∃ s k, Opened st opts 0 v s k ∧ Ahead st' s k i
  reached : ∀ s k, Opened st opts 0 v s k → Reached st' s k

/-- The row is neither too deep nor too long. -/
def FitsRow (opts : PrintOptions) (d : ℕ) (all : Seq.Items (List Value)) : Prop :=
  opts.hides d = false ∧ ∀ n, opts.length = some n → ∃ size ≤ n, Seq.Items.EndsAt all size

/-- Every collection that is printed without limits is neither too deep nor too long, and neither
is the metadata that is printed. -/
def Fits (st : Store Value) (opts : PrintOptions) (d : ℕ) (v : Value) : Prop :=
  ∀ d' w all, Reaches st opts.unlimited d v d' w → Row st opts.unlimited w all →
    FitsRow opts d' all

section Uncut

variable {st : Store Value} {opts : PrintOptions}

theorem Trimmed.whole_unlimited {A : Type} {f : Seq.Items A} {shown : List A} {more : List String}
    (h : Trimmed opts.unlimited f shown more) :
    ∃ n, Seq.Items.EndsAt f n ∧ shown = Seq.Items.take n f ∧ more = [] := by
  cases h with
  | @whole n ends => exact ⟨n, ends, rfl, rfl⟩
  | cut limit => cases limit

/-- What fits, for each kind of what is written. -/
def FitsWritten (st : Store Value) (opts : PrintOptions) (d : ℕ) : Written → Prop
  | .value v => Fits st opts d v
  | .own v => ∀ frame all, v.frame? = some frame → HasPieces st v all →
      FitsRow opts d all ∧ ∀ x, InRow opts.unlimited all x → Fits st opts (d + 1) x
  | .pieces _ all => FitsRow opts d all ∧ ∀ x, InRow opts.unlimited all x → Fits st opts (d + 1) x

theorem Fits.row {d : ℕ} {v : Value} (h : Fits st opts d v) {all : Seq.Items (List Value)}
    (row : Row st opts.unlimited v all) :
    FitsRow opts d all ∧ ∀ x, InRow opts.unlimited all x → Fits st opts (d + 1) x :=
  ⟨h d v all .here row, fun _ shown d' w all' onward => h d' w all' (.part rfl row shown onward)⟩

/-- What fits is written with the limits as without them. -/
theorem Writes.of_unlimited {d : ℕ} {w : Written} {text : String}
    (h : Writes st opts.unlimited d w text) (fits : FitsWritten st opts d w) :
    Writes st opts d w text := by
  induction h with
  | mark deep => cases deep
  | @pieces d frame all shown more part near trimmed parts ih =>
    obtain ⟨⟨near', small⟩, inside⟩ := fits
    have among (piece : List Value) (here : piece ∈ shown) (x : Value) (hx : x ∈ piece) :
        InRow opts.unlimited all x := ⟨shown, more, trimmed, piece, here, hx⟩
    obtain ⟨n, ends, rfl, rfl⟩ := trimmed.whole_unlimited
    refine .pieces near' (.whole ends fun limit within => ?_) fun piece here x hx =>
      ih piece here x hx (inside x (among piece here x hx))
    obtain ⟨size, le, ends'⟩ := small limit within
    exact ends.unique ends' ▸ le
  | atom single => exact .atom single
  | collection framed has row ih => exact .collection framed has (ih (fits _ _ framed has))
  | bare none own ih =>
    exact .bare none (ih fun _ _ framed has => fits.row (.own framed has))
  | metadata carried row own ih ih' =>
    exact .metadata carried (ih (fits.row (.metadata carried)))
      (ih' fun _ _ framed has => fits.row (.own framed has))

theorem Row.unlimited {v : Value} {all : Seq.Items (List Value)} (row : Row st opts v all) :
    Row st opts.unlimited v all := by
  cases row with
  | own framed has => exact .own framed has
  | metadata carried => exact .metadata carried

/-- Without a limit on the length, nothing is reached that is not reached without limits. -/
theorem Reaches.unlimited (free : opts.length = none) {d d' : ℕ} {v w : Value}
    (h : Reaches st opts d v d' w) : Reaches st opts.unlimited d v d' w := by
  induction h with
  | here => exact .here
  | @part d d' v x w all _ row shown _ ih =>
    obtain ⟨pieces, more, trimmed, among⟩ := shown
    have trimmed' : Trimmed opts.unlimited all pieces more := by
      cases trimmed with
      | whole ends => exact .whole ends nofun
      | cut limit => cases free.symm.trans limit
    exact .part rfl row.unlimited ⟨pieces, more, trimmed', among⟩ ih

/-- In a row that fits nothing is cut. -/
theorem InRow.unlimited {d : ℕ} {all : Seq.Items (List Value)} {x : Value}
    (h : InRow opts all x) (fits : FitsRow opts d all) : InRow opts.unlimited all x := by
  obtain ⟨pieces, more, trimmed, among⟩ := h
  cases trimmed with
  | whole ends => exact ⟨_, _, .whole ends nofun, among⟩
  | cut limit all =>
    obtain ⟨size, le, ends⟩ := fits.2 _ limit
    have item := all size le
    rw [ends.done] at item
    cases item

/-- What has a bottom and fits has a bottom with the limits too. -/
theorem Grounded.of_unlimited {d : ℕ} {v : Value} (h : Grounded st opts.unlimited d v)
    (fits : Fits st opts d v) : Grounded st opts d v := by
  induction h with
  | intro _ ih =>
    refine .intro fun _ all row x shown => ?_
    have row' : Row st opts.unlimited _ all := row.unlimited
    obtain ⟨small, inside⟩ := fits.row row'
    have shown' : InRow opts.unlimited all x := shown.unlimited small
    exact ih rfl all row' x shown' (inside x shown')

theorem bounded_of_unlimited {d : ℕ} {v : Value} (ending : Ending st opts.unlimited d v) :
    Bounded st opts d v := by
  cases free : opts.length with
  | some n => exact .inl (by rw [free]; rfl)
  | none => exact .inr fun d' s f reaches _ => ending d' s f (reaches.unlimited free) rfl

end Uncut

section Hashing

variable [Hasher]

section Proper

variable {st : Store Value} (ordered : Ordered st) {v : Value} (proper : Proper st v)
  {opts : PrintOptions}
include ordered proper

theorem prints_within (grounded : Grounded st opts 0 v) (bounded : Bounded st opts 0 v) :
    ∃ text st', PrintsWithin st opts v text st' := by
  obtain ⟨w, st', looks, writes⟩ := grounded.displays proper bounded st (.refl ordered)
  exact ⟨render opts 0 w, st', looks.returns.comes, writes, looks.settled_iff st' (.refl st'),
    looks.reached⟩

theorem prints_unlimited (ending : Ending st opts.unlimited 0 v)
    (grounded : Grounded st opts.unlimited 0 v) (fits : Fits st opts 0 v) :
    ∃ text st' st'', PrintsWithin st opts v text st' ∧
      PrintsWithin st opts.unlimited v text st'' := by
  obtain ⟨text, st', limited⟩ :=
    prints_within ordered proper (grounded.of_unlimited fits) (bounded_of_unlimited ending)
  obtain ⟨text', st'', free⟩ := prints_within ordered proper grounded (.inr ending)
  obtain rfl := limited.writes.unique (free.writes.of_unlimited fits)
  exact ⟨text, st', st'', limited, free⟩

omit proper in
theorem grounded_of_comes {text : String} {st' : Store Value}
    (comes : Comes (fun fuel => print opts fuel v) st text st') :
    Grounded st opts 0 v ∧ Bounded st opts 0 v := by
  obtain ⟨N, done⟩ := comes
  obtain ⟨w, u, observed, -⟩ := of_bind (done N (Nat.le_refl N))
  exact Returns.grounded ⟨st, u, .refl ordered.chained, observed⟩

end Proper

/-- What the limits do to the printed text of a value, and to what is looked at for it. A finite
value is one in which printing without limits gets to the bottom and to each end. -/
structure LimitsCut (st : Store Value) (opts : PrintOptions) (v : Value) : Prop where
  grounded : opts.level.isSome ∨ Founded st v → Grounded st opts 0 v
  limited : opts.length.isSome → Grounded st opts 0 v → ∃ text st', PrintsWithin st opts v text st'
  ending : Ending st opts 0 v → Grounded st opts 0 v → ∃ text st', PrintsWithin st opts v text st'
  uncut : Ending st opts.unlimited 0 v → Grounded st opts.unlimited 0 v → Fits st opts 0 v →
    ∃ text st' st'', PrintsWithin st opts v text st' ∧ PrintsWithin st opts.unlimited v text st''
  /-- Nothing else is ever printed. -/
  only : ∀ text st', Comes (fun fuel => print opts fuel v) st text st' →
    Grounded st opts 0 v ∧ (opts.length.isSome ∨ Ending st opts 0 v)

end Hashing

/-- An endless sequence in a vector, and a list of one item. -/
def endlessInVector : List (Step × ℕ) :=
  [(.int 7, 0), (.lazy fun _ => some 0, 0), (.vector [1], 0), (.list [0], 0)]

section Sevens

variable {st : Store Value} {opts : PrintOptions} {d : ℕ}

theorem writes_seven : Writes st opts d (.value (.int 7)) "7" :=
  .bare (attached_none opts) (.atom rfl)

theorem writes_sevens (limit : opts.length = some 2) (near : opts.hides d = false) {s : Seq Value}
    (shows : Seq.Shows st s fun _ => some (.int 7)) :
    Writes st opts d (.value (.seq s)) "(7 7 ...)" := by
  have trimmed : Trimmed opts (fun _ => some [Value.int 7]) [[.int 7], [.int 7]] ["..."] :=
    .cut limit fun _ _ => rfl
  have row : Writes st opts d (.pieces .round fun _ => some [.int 7])
      (Frame.round.enclose ([[.int 7], [.int 7]].map (glue fun _ => "7") ++ ["..."])) := by
    refine .pieces near trimmed fun piece among x part => ?_
    have one : piece = [.int 7] := by simpa using among
    subst one
    obtain rfl := List.mem_singleton.1 part
    exact writes_seven
  exact .bare (attached_none opts) (.collection rfl (.seq shows) row)

end Sevens

section Single

variable {st : Store Value} {opts : PrintOptions} {d d' : ℕ} {n : Int64} {w x : Value}
  {all : Seq.Items (List Value)}

theorem trimmed_single (within : ∀ limit, opts.length = some limit → 1 ≤ limit) :
    Trimmed opts ([[x]][·]?) [[x]] [] :=
  .whole (Seq.Items.endsAt_ofList [[x]]) within

/-- A list or a vector of one item, within the limits. -/
theorem writes_single {v : Value} {frame : Frame} (closed : ∀ s, v ≠ .seq s)
    (framed : v.frame? = some frame) (bare : v.metadata? = none) (pieces : v.pieces = [[x]])
    (near : opts.hides d = false) (within : ∀ limit, opts.length = some limit → 1 ≤ limit)
    {text : String} (inner : Writes st opts (d + 1) (.value x) text) :
    Writes st opts d (.value v) (frame.enclose [text]) := by
  have trimmed : Trimmed opts (v.pieces[·]?) [[x]] [] := pieces ▸ trimmed_single within
  have row : Writes st opts d (.pieces frame (v.pieces[·]?))
      (frame.enclose ([[x]].map (glue fun _ => text) ++ [])) := by
    refine .pieces near trimmed fun piece among y part => ?_
    obtain rfl := List.mem_singleton.1 among
    obtain rfl := List.mem_singleton.1 part
    exact inner
  exact .bare (bare ▸ attached_none opts) (.collection framed (.known closed) row)

theorem not_row_int : ¬Row st opts (.int n) all := by
  intro row
  cases row with
  | own framed => cases framed
  | metadata carried => cases (attached_eq_some.1 carried).2.1

theorem row_single (row : Row st opts (.list { items := [.int n] }) all) :
    all = ([[.int n]][·]?) := by
  cases row with
  | own framed has => exact has.unique (.known nofun)
  | metadata carried => cases (attached_eq_some.1 carried).2.1

theorem reaches_single (h : Reaches st opts d (.list { items := [.int n] }) d' w) :
    (d' = d ∧ w = .list { items := [.int n] }) ∨ w = .int n := by
  cases h with
  | here => exact .inl ⟨rfl, rfl⟩
  | part _ row shown onward =>
    obtain ⟨i, piece, item, part⟩ := shown.exists_piece
    obtain rfl := row_single row
    obtain rfl := List.mem_singleton.1 (List.mem_of_getElem? item)
    obtain rfl := List.mem_singleton.1 part
    cases onward with
    | here => exact .inr rfl
    | part _ row => exact absurd row not_row_int

theorem ending_single : Ending st opts d (.list { items := [.int n] }) := by
  intro d' s f reaches
  rcases reaches_single reaches with ⟨-, same⟩ | same <;> cases same

theorem fits_single (near : opts.hides d = false)
    (within : ∀ limit, opts.length = some limit → 1 ≤ limit) :
    Fits st opts d (.list { items := [.int n] }) := by
  intro d' w all reaches row
  rcases reaches_single reaches with ⟨rfl, rfl⟩ | rfl
  · obtain rfl := row_single row
    exact ⟨near, fun limit same => ⟨1, within limit same, Seq.Items.endsAt_ofList _⟩⟩
  · exact absurd row not_row_int

end Single

/-- A sequence of one item, which is the sequence itself. -/
def looped : Store Value :=
  (({} : Store Value).wrap fun k => if k = 0 then some (.seq (.lazy 0)) else none).2

section Looped

variable {opts : PrintOptions} {d : ℕ} {all : Seq.Items (List Value)}

theorem shows_looped : Seq.Shows looped (.lazy 0) ([.seq (.lazy 0)][·]?) := by
  have stands : looped.At 0 (fun k => if k = 0 then some (.seq (.lazy 0)) else none) 0 0 :=
    ⟨rfl, rfl⟩
  have same : (fun i => if 0 + i = 0 then some (.seq (.lazy 0)) else none) =
      ([Value.seq (.lazy 0)][·]?) := by
    funext i
    cases i <;> simp
  exact same ▸ .lazy stands

theorem ordered_looped [Hasher] : Ordered looped := by
  refine (advances_wrap ordered_empty fun k x answered => ?_).ordered
  split at answered <;> cases answered
  exact .seq nofun fun _ same => Option.some.inj same ▸ Nat.one_pos

theorem proper_looped [Hasher] : Proper looped (.seq (.lazy 0)) := by
  have only {v w : Value} (holds : Holds looped v w) (same : v = .seq (.lazy 0)) :
      w = .seq (.lazy 0) := by
    induction holds with
    | here => exact same
    | piece has item part _ ih =>
      subst same
      obtain rfl := has.unique (.seq shows_looped)
      obtain ⟨y, here, rfl⟩ := Option.map_eq_some_iff.1 item
      obtain rfl := List.mem_singleton.1 part
      exact ih (List.mem_singleton.1 (List.mem_of_getElem? here))
    | metadata carries =>
      subst same
      cases carries
  refine ⟨fun w holds => ?_, fun w holds m carries => ?_⟩
  · obtain rfl := only holds rfl
    exact ⟨_, .seq shows_looped⟩
  · obtain rfl := only holds rfl
    cases carries

theorem trimmed_looped {n : ℕ} (limit : opts.length = some (n + 1)) :
    Trimmed opts (fun i => [Value.seq (.lazy 0)][i]?.map ([·])) [[.seq (.lazy 0)]] [] := by
  have whole : Trimmed opts ([Value.seq (.lazy 0)][·]?) [.seq (.lazy 0)] [] := by
    refine .whole (Seq.Items.endsAt_ofList _) fun m same => ?_
    cases limit.symm.trans same
    exact Nat.le_add_left 1 n
  exact whole.map ([·])

/-- The item of the sequence has no bottom, since it is the sequence. -/
theorem not_grounded_looped {n : ℕ} (free : opts.level = none)
    (limit : opts.length = some (n + 1)) : ¬Grounded looped opts d (.seq (.lazy 0)) := by
  intro h
  generalize same : Value.seq (.lazy 0) = v at h
  induction h with
  | @intro d v _ ih =>
    subst same
    have near : opts.hides d = false := by
      rw [PrintOptions.hides, free]
      rfl
    refine ih near _ (.own rfl (.seq shows_looped)) (.seq (.lazy 0)) ?_ rfl
    exact ⟨_, _, trimmed_looped limit, _, List.mem_singleton_self _, List.mem_singleton_self _⟩

/-- Each level that is entered puts the text of the next one between brackets. -/
theorem writes_looped {n : ℕ} (limit : opts.length = some (n + 1)) (near : opts.hides d = false)
    {text : String} (inner : Writes looped opts (d + 1) (.value (.seq (.lazy 0))) text) :
    Writes looped opts d (.value (.seq (.lazy 0))) ("(" ++ text ++ ")") := by
  have row : Writes looped opts d (.pieces .round fun i => [Value.seq (.lazy 0)][i]?.map ([·]))
      (Frame.round.enclose ([[.seq (.lazy 0)]].map (glue fun _ => text) ++ [])) := by
    refine .pieces near (trimmed_looped limit) fun piece among x part => ?_
    obtain rfl := List.mem_singleton.1 among
    obtain rfl := List.mem_singleton.1 part
    exact inner
  exact .bare (attached_none opts) (.collection rfl (.seq shows_looped) row)

end Looped

end Value

end Persistent
