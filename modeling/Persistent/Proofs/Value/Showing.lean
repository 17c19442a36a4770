import Persistent.Proofs.Value.Rows

/-!
Printing looks at exactly the cells that it opens, and the value that it comes to is rendered to
the text of the value that was asked for: one case for each kind of value, its metadata first.
-/

set_option autoImplicit false

namespace Persistent.Value

section Places

variable {st : Store Value} {opts : PrintOptions} {d : ℕ} {v w : Value} {frame : Frame}
  {all : Seq.Items (List Value)}

theorem ownOpened_of_row (closed : ∀ s, v ≠ .seq s)
    (framed : v.frame? = some frame) (has : HasPieces st v all) (s : Seq Value) (k : ℕ) :
    RowOpened st opts d all s k ↔ OwnOpened st opts d v s k := by
  constructor
  · exact fun opened => .inr ⟨frame, all, framed, has, opened⟩
  · rintro (⟨rfl, -⟩ | ⟨frame', all', -, has', opened⟩)
    · exact absurd rfl (closed s)
    · exact has.unique has' ▸ opened

theorem not_ownOpened_of_hides (deep : opts.hides d = true) (s : Seq Value) (k : ℕ) :
    ¬OwnOpened st opts d v s k := by
  rintro (⟨-, near, -⟩ | ⟨-, -, -, -, near, -⟩) <;> cases deep.symm.trans near

theorem not_ownOpened_of_single (single : v.frame? = none) (s : Seq Value) (k : ℕ) :
    ¬OwnOpened st opts d v s k := by
  rintro (⟨rfl, -⟩ | ⟨frame, all, framed, -⟩)
  · cases single
  · cases single.symm.trans framed

theorem writes_own (framed : v.frame? = some frame) (has : HasPieces st v all)
    (framed' : w.frame? = some frame)
    (row : Writes st opts d (.pieces frame all) (rowText opts d frame w.pieces)) :
    Writes st opts d (.own v) (ownText opts d w) := by
  unfold ownText
  rw [framed']
  exact .collection framed has row

theorem ownOpened_seq (near : opts.hides d = false) {s : Seq Value} {f : Seq.Items Value}
    (shows : Seq.Shows st s f) (t : Seq Value) (k : ℕ) :
    (t = s ∧ Within opts f k) ∨ RowOpened st opts d (fun i => (f i).map ([·])) t k ↔
      OwnOpened st opts d (.seq s) t k := by
  have has := HasPieces.seq shows
  constructor
  · rintro (⟨rfl, within⟩ | opened)
    · exact .inl ⟨rfl, near, f, shows, within⟩
    · exact .inr ⟨.round, _, rfl, has, opened⟩
  · rintro (⟨same, -, g, shows', within⟩ | ⟨frame, all, -, has', opened⟩)
    · cases same
      exact .inl ⟨rfl, shows'.unique shows ▸ within⟩
    · exact .inr (has'.unique has ▸ opened)

end Places

variable [Hasher]

section Own

variable {st : Store Value} {opts : PrintOptions} {d : ℕ} {v w : Value} {frame : Frame}
  {all : Seq.Items (List Value)}

theorem hidden_own (w : Value) (deep : opts.hides d = true) (framed : v.frame? = some frame)
    (has : HasPieces st v all) (framed' : w.frame? = some frame) {u : Store Value}
    (ordered : Ordered u) :
    Looks (fun _ => (pure w : Demand Value Value)) u (OwnOpened st opts d v) w u ∧
      Writes st opts d (.own v) (ownText opts d w) := by
  refine ⟨(looks_pure ordered w).congr fun s k => iff_of_false id (not_ownOpened_of_hides deep s k),
    writes_own framed has framed' ?_⟩
  rw [rowText, if_pos deep]
  exact .mark deep

theorem single_own (v w : Value) (single : v.frame? = none) (single' : w.frame? = none)
    (same : v.atom opts = w.atom opts) {u : Store Value} (ordered : Ordered u) :
    Looks (fun _ => (pure w : Demand Value Value)) u (OwnOpened st opts d v) w u ∧
      Writes st opts d (.own v) (ownText opts d w) := by
  refine ⟨(looks_pure ordered w).congr fun s k =>
    iff_of_false id (not_ownOpened_of_single single s k), ?_⟩
  unfold ownText
  rw [single', ← same]
  exact .atom single

theorem displays_bare (bare : v.metadata? = none) {c : ℕ → Demand Value Value}
    (step : ∀ fuel, observe opts (fuel + 1) d v = c fuel)
    (inner : ∀ u, Advances st u → ∃ w u', Looks c u (OwnOpened st opts d v) w u' ∧
      w.metadata? = none ∧ Writes st opts d (.own v) (ownText opts d w)) :
    Displays st opts d v := by
  intro u advances
  obtain ⟨w, u', looks, bare', own⟩ := inner u advances
  refine ⟨w, u', (looks.succ step).congr fun s k => ?_, ?_⟩
  · rw [opened_iff, bare]
    simp [FrontOpened]
  · rw [render_eq, bare', frontText, attached_none]
    exact String.empty_append.symm ▸ .bare (bare ▸ attached_none opts) own

theorem displays_carrier (parts : PartsDisplay st opts d v all) {metadata : Option Metadata}
    (carries : v.metadata? = metadata.map (·.map)) {c : ℕ → Option Metadata → Demand Value Value}
    (step : ∀ fuel, observe opts (fuel + 1) d v =
      observeMetadata opts d (observe opts fuel (d + 1)) metadata >>= c fuel)
    (inner : ∀ metadata u, Advances st u → ∃ w u',
      Looks (fun fuel => c fuel metadata) u (OwnOpened st opts d v) w u' ∧
      w.metadata? = metadata.map (·.map) ∧ Writes st opts d (.own v) (ownText opts d w)) :
    Displays st opts d v := by
  intro u advances
  obtain ⟨metadata', u₁, front, written⟩ := front_looks parts carries advances
  obtain ⟨w, u₂, looks, carries', own⟩ := inner metadata' u₁ (advances.trans front.advances)
  refine ⟨w, u₂, ((front.bind looks).succ step).congr fun s k => (opened_iff s k).symm, ?_⟩
  rw [render_eq, carries']
  exact written _ own

/-- At a hidden depth a collection is left as it is, metadata apart. -/
theorem displays_collection (parts : PartsDisplay st opts d v all)
    (framed : v.frame? = some frame) {metadata : Option Metadata}
    (carries : v.metadata? = metadata.map (·.map)) {c : ℕ → Option Metadata → Demand Value Value}
    (step : ∀ fuel, observe opts (fuel + 1) d v =
      observeMetadata opts d (observe opts fuel (d + 1)) metadata >>= c fuel)
    (left : Option Metadata → Value) (framed' : ∀ metadata, (left metadata).frame? = some frame)
    (carries' : ∀ metadata, (left metadata).metadata? = metadata.map (·.map))
    (hidden : opts.hides d = true → ∀ fuel metadata, c fuel metadata = pure (left metadata))
    (entered : opts.hides d = false → ∀ metadata u, Advances st u → ∃ w u',
      Looks (fun fuel => c fuel metadata) u (OwnOpened st opts d v) w u' ∧
      w.metadata? = metadata.map (·.map) ∧ Writes st opts d (.own v) (ownText opts d w)) :
    Displays st opts d v := by
  refine displays_carrier parts carries step fun metadata' u advances => ?_
  cases near : opts.hides d with
  | false => exact entered near metadata' u advances
  | true =>
    obtain ⟨looks, own⟩ :=
      hidden_own (left metadata') near framed parts.has (framed' metadata') advances.ordered
    simp only [hidden near]
    exact ⟨left metadata', u, looks, carries' metadata', own⟩

/-- The items that printing meets in a sequence. -/
theorem observeItems_looks {s : Seq Value} {f : Seq.Items Value}
    (bounded : opts.length.isSome ∨ ∃ n, Seq.Items.EndsAt f n) {u : Store Value}
    (ordered : Ordered u) (shows : Seq.Shows u s f) :
    ∃ xs u', Looks (fun fuel => observeItems opts fuel s) u (fun t k => t = s ∧ Within opts f k)
        xs u' ∧ Trimmed opts f (opts.shown xs) (opts.ellipsis xs) := by
  unfold observeItems
  cases limit : opts.length with
  | some n =>
    obtain ⟨u', looks⟩ := take_looks (n + 1) ordered shows
    refine ⟨Seq.Items.take (n + 1) f, u', looks.congr fun t k => ?_, trimmed_front opts limit f⟩
    rw [within_iff limit]
  | none =>
    obtain ⟨n, ends⟩ := bounded.resolve_left (by simp [limit])
    obtain ⟨u', looks⟩ := take_looks (n + 1) ordered shows
    have all : Seq.Items.take (n + 1) f = Seq.Items.take n f :=
      Seq.Items.take_of_ends ends (Nat.le_succ n)
    have same (fuel : ℕ) (enough : n + 1 ≤ fuel) : s.toList fuel u = s.take (n + 1) u := by
      obtain ⟨fuel, rfl⟩ := Nat.exists_eq_add_of_le enough
      rw [Nat.add_right_comm]
      exact toList_eq_take n fuel ordered shows ends
    refine ⟨_, u', (looks.eventually same).congr fun t k => ?_, all ▸ trimmed_whole opts ends⟩
    rw [within_iff_of_ends limit ends]

/-- A collection of items that are known, not hidden. -/
theorem items_own (parts : PartsDisplay st opts d v all) (near : opts.hides d = false)
    (framed : v.frame? = some frame) (closed : ∀ s, v ≠ .seq s) {xs : List Value}
    (pieces : v.pieces = xs.map ([·])) (wrap : List Value → Value)
    (framed' : ∀ ys, (wrap ys).frame? = some frame)
    (filled : ∀ ys, ys.length = xs.length → (wrap ys).pieces = ys.map ([·]))
    {u : Store Value} (advances : Advances st u) :
    ∃ ys u', Looks (fun fuel => observeShown opts (observe opts fuel (d + 1)) xs >>= fun ys =>
        pure (wrap ys)) u (OwnOpened st opts d v) (wrap ys) u' ∧
      Writes st opts d (.own v) (ownText opts d (wrap ys)) := by
  have has := parts.has
  obtain rfl := has.unique (.known closed)
  have trimmed : Trimmed opts (v.pieces[·]?) ((opts.shown xs).map ([·])) (opts.ellipsis xs) :=
    pieces ▸ trimmed_map opts ([·]) xs
  have own := parts.own (by rw [framed]; rfl) near
  obtain ⟨ys, u', looks, length, row⟩ := items_looks near trimmed own advances
  refine ⟨ys, u', looks.returns.congr (ownOpened_of_row closed framed has),
    writes_own framed has (framed' ys) ?_⟩
  rw [filled ys length]
  exact row frame

end Own

section Kinds

variable {st : Store Value} {opts : PrintOptions} {d : ℕ} {all : Seq.Items (List Value)}

/-- A value that has neither pieces nor metadata. -/
theorem displays_atom {v : Value} (single : v.frame? = none) (bare : v.metadata? = none)
    (step : ∀ fuel, observe opts (fuel + 1) d v = pure v) : Displays st opts d v := by
  refine displays_bare bare step fun u advances => ?_
  obtain ⟨looks, own⟩ := single_own v v single single rfl advances.ordered
  exact ⟨v, u, looks, bare, own⟩

theorem displays_symbol {s : Symbol Metadata} (parts : PartsDisplay st opts d (.symbol s) all) :
    Displays st opts d (.symbol s) := by
  refine displays_carrier parts rfl (fun _ => rfl) fun metadata u advances => ?_
  obtain ⟨looks, own⟩ := single_own (.symbol s) (.symbol { s with metadata }) rfl rfl rfl
    advances.ordered
  exact ⟨_, u, looks, rfl, own⟩

theorem displays_list {l : ConsList Metadata Value} (parts : PartsDisplay st opts d (.list l) all) :
    Displays st opts d (.list l) := by
  refine displays_collection parts rfl rfl (fun _ => rfl)
    (fun metadata => .list { l with metadata }) (fun _ => rfl) (fun _ => rfl)
    (fun deep _ _ => by rw [if_pos deep]; rfl) fun near metadata u advances => ?_
  obtain ⟨ys, u', looks, row⟩ := items_own parts near rfl nofun rfl
    (fun items => .list { items, metadata }) (fun _ => rfl) (fun _ _ => rfl) advances
  simp only [near]
  exact ⟨_, u', looks, rfl, row⟩

theorem displays_vector {v : Vector Metadata Value}
    (parts : PartsDisplay st opts d (.vector v) all) : Displays st opts d (.vector v) := by
  refine displays_collection parts rfl rfl (fun _ => rfl)
    (fun metadata => .vector { v with metadata }) (fun _ => rfl) (fun _ => rfl)
    (fun deep _ _ => if_pos deep) fun near metadata u advances => ?_
  obtain ⟨ys, u', looks, row⟩ := items_own parts near rfl nofun rfl
    (fun items => .vector { (Vector.ofList items : Vector Metadata Value) with metadata })
    (fun _ => rfl)
    (fun ys _ => congrArg (List.map ([·])) (Vector.holds_ofList ys).toList_eq) advances
  simp only [near]
  exact ⟨_, u', looks, rfl, row⟩

theorem displays_set {s : Set Metadata Value} (parts : PartsDisplay st opts d (.set s) all) :
    Displays st opts d (.set s) := by
  refine displays_collection parts rfl rfl (fun _ => rfl) (fun metadata => .set { s with metadata })
    (fun _ => rfl) (fun _ => rfl) (fun deep _ _ => if_pos deep) fun near metadata u advances => ?_
  obtain ⟨ys, u', looks, row⟩ := items_own parts near rfl nofun rfl
    (fun items => .set { s with toTable := s.toTable.refill (items.map (·, ())), metadata })
    (fun _ => rfl) (fun ys length => congrArg (List.map ([·])) (elements_refill s length)) advances
  simp only [near]
  exact ⟨_, u', looks, rfl, row⟩

theorem displays_map {m : Map Metadata Value Value} (parts : PartsDisplay st opts d (.map m) all) :
    Displays st opts d (.map m) := by
  refine displays_collection parts rfl rfl (fun _ => rfl) (fun metadata => .map { m with metadata })
    (fun _ => rfl) (fun _ => rfl) (fun deep _ _ => if_pos deep) fun near metadata u advances => ?_
  have has := parts.has
  obtain rfl := has.unique (.known nofun)
  obtain ⟨m', u', looks, -, -, row⟩ := entries_looks near m (parts.own rfl near) advances
  simp only [near]
  exact ⟨.map { m' with metadata }, u', looks.returns.congr (ownOpened_of_row nofun rfl has), rfl,
    writes_own rfl has rfl row⟩

theorem displays_seq {s : Seq Value} {f : Seq.Items Value} (shows : Seq.Shows st s f)
    (parts : PartsDisplay st opts d (.seq s) fun i => (f i).map ([·]))
    (bounded : Bounded st opts d (.seq s)) : Displays st opts d (.seq s) := by
  have step (fuel : ℕ) : observe opts (fuel + 1) d (.seq s) =
      if opts.hides d then pure (.seq s)
      else observeItems opts fuel s >>= fun items =>
        observeShown opts (observe opts fuel (d + 1)) items >>= fun ys =>
          pure (.seq (s.refill ys)) := rfl
  refine displays_bare rfl step fun u advances => ?_
  cases near : opts.hides d with
  | true =>
    obtain ⟨looks, own⟩ := hidden_own (.seq s) near rfl parts.has rfl advances.ordered
    exact ⟨.seq s, u, looks, rfl, own⟩
  | false =>
    have bounded := bounded.imp id fun ending => ending d s f .here near shows
    obtain ⟨xs, u₁, items, trimmed⟩ := observeItems_looks bounded advances.ordered
      (shows.mono advances.grows)
    obtain ⟨ys, u₂, looks, -, row⟩ := items_looks near (trimmed.map ([·])) (parts.own rfl near)
      (advances.trans items.advances)
    have known : (s.refill ys).known = ys :=
      (Prod.mk.inj (Option.some.inj (spine_refill s ys))).1
    refine ⟨.seq (s.refill ys), u₂, (items.bind looks.returns).congr (ownOpened_seq near shows),
      rfl, writes_own rfl parts.has rfl ?_⟩
    change Writes st opts d _ (rowText opts d .round ((s.refill ys).known.map ([·])))
    rw [known]
    exact row .round

end Kinds

theorem Proper.row {st : Store Value} {opts : PrintOptions} {v x : Value}
    {all : Seq.Items (List Value)} (proper : Proper st v) (row : Row st opts v all)
    (shown : InRow opts all x) : Proper st x := by
  obtain ⟨i, piece, item, part⟩ := shown.exists_piece
  have deeper (w : Value) (onward : Holds st x w) : Holds st v w := by
    cases row with
    | own _ has => exact .piece has item part onward
    | metadata carried =>
      exact .metadata (attached_eq_some.1 carried).2.1 (List.mem_of_getElem? item) part onward
  exact ⟨fun w onward => proper.pieces w (deeper w onward),
    fun w onward => proper.keyed w (deeper w onward)⟩

theorem Grounded.displays {st : Store Value} {opts : PrintOptions} {d : ℕ} {v : Value}
    (h : Grounded st opts d v) (proper : Proper st v) (bounded : Bounded st opts d v) :
    Displays st opts d v := by
  induction h with
  | @intro d v _ ih =>
    obtain ⟨all, has⟩ := proper.pieces v .here
    have inner (near : opts.hides d = false) {row : Seq.Items (List Value)}
        (row_ : Row st opts v row) (x : Value) (shown : InRow opts row x) :
        Displays st opts (d + 1) x :=
      ih near row row_ x shown (proper.row row_ shown) (bounded.part near row_ shown)
    have parts : PartsDisplay st opts d v all := by
      refine ⟨has, fun framed near => ?_, fun m carries => (proper.keyed v .here m carries).size_eq,
        fun m carried near => inner near (.metadata carried)⟩
      obtain ⟨frame, framed⟩ := Option.isSome_iff_exists.1 framed
      exact inner near (.own framed has)
    cases v with
    | nil | bool | int | str | keyword => exact displays_atom rfl rfl fun _ => rfl
    | symbol => exact displays_symbol parts
    | list => exact displays_list parts
    | vector => exact displays_vector parts
    | set => exact displays_set parts
    | map => exact displays_map parts
    | seq s =>
      cases has with
      | known closed => exact absurd rfl (closed s)
      | seq shows => exact displays_seq shows parts bounded

end Persistent.Value
