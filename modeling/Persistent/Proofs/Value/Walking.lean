import Persistent.Proofs.Table.Order
import Persistent.Proofs.Value.Displaying
import Persistent.Proofs.Value.Sequences

/-!
The order in which the keys of a map are seen. The hashes of the keys decide it, in a walk, in the
sequence over the map and in its printed text, and the history of the map has no part in it.
-/

set_option autoImplicit false

namespace Persistent

namespace Map

variable {μ ν K V W : Type} [BEq K] [Hashable K]

/-- The keys are walked in one order and printed in the order in which they are walked. -/
structure InStep (m : Map μ K V) (n : Map ν K W) : Prop extends
    Table.InStep m.toTable n.toTable where
  text_left : ∀ key value, m.text key value =
    Text.enclosed "\x7b" ", " "\x7d" (m.cursor.toList.map fun e => key e.1 ++ " " ++ value e.2)
  text_right : ∀ key value, n.text key value =
    Text.enclosed "\x7b" ", " "\x7d" (n.cursor.toList.map fun e => key e.1 ++ " " ++ value e.2)

theorem text_eq {m : Map μ K V} (wf : m.WellFormed) (key : K → String) (value : V → String) :
    m.text key value = Text.enclosed "\x7b" ", " "\x7d"
      (m.cursor.toList.map fun e => key e.1 ++ " " ++ value e.2) := by
  rw [wf.cursor_toList]
  rfl

theorem inStep_of_keyed [EquivBEq K] [LawfulHashable K] {m : Map μ K V} {n : Map ν K W}
    (hm : m.WellFormed) (hn : n.WellFormed) (same : m.SameKeys n.toTable)
    (apart : m.Separated) : m.InStep n where
  toInStep := same.inStep KeyLaw.of_lawful (keyed hm) (keyed hn) apart
  text_left := text_eq hm
  text_right := text_eq hn

end Map

namespace Value

variable [Hasher]

/-- A finite map prints row by row, a row for each entry in the order of the walk. -/
structure PrintsRows (st : Store Value) (m : Map Metadata Value Value)
    (rows : List (String × String)) : Prop where
  each : List.Forall₂ (fun e row => Prints st e.1 row.1 ∧ Prints st e.2 row.2)
    m.cursor.toList rows
  text : Prints st (.map m)
    (Text.enclosed "\x7b" ", " "\x7d" (rows.map fun row => row.1 ++ " " ++ row.2))

/-- Two maps, each in a store of its own, that show equal keys in the same places: in a walk, in
the sequence over them, and in their printed text. -/
structure SeenInStep (st : Store Value) (m : Map Metadata Value Value) (st' : Store Value)
    (n : Map Metadata Value Value) : Prop where
  walks : Table.InStep m.toTable n.toTable
  seq_left : Gives st (fun fuel => itemsBySeq fuel (.map m))
    (.ok (m.drain.toList.map fun e => ofEntry ⟨e.1, e.2⟩))
  seq_right : Gives st' (fun fuel => itemsBySeq fuel (.map n))
    (.ok (n.drain.toList.map fun e => ofEntry ⟨e.1, e.2⟩))
  print_left : Whole st (.map m) → ∃ rows, PrintsRows st m rows
  print_right : Whole st' (.map n) → ∃ rows, PrintsRows st' n rows

section Map

variable {st : Store Value} (sane : Sane st) {m : Map Metadata Value Value}
include sane

theorem exists_printsRows (whole : Whole st (.map m)) : ∃ rows, PrintsRows st m rows := by
  obtain ⟨keyed, -⟩ := valid_entries whole.valid
  obtain ⟨entries, seen⟩ := exists_seenEntries sane whole
  refine ⟨entries.map fun f => (f.1.text, f.2.text), ?_, ?_⟩
  · rw [keyed.cursor_toList]
    refine List.forall₂_map_right_iff.2 (seen.imp fun e f h => ⟨?_, ?_⟩)
    · exact (print_settles h.1).yields (print_stable e.1)
    · exact (print_settles h.2).yields (print_stable e.2)
  · have printed := (print_settles (seen_map seen)).yields (print_stable (.map m))
    rw [text_layout, layout, Table.toList_refill m.toTable seen.length_eq.symm] at printed
    rw [List.map_map]
    exact printed

omit sane in
theorem itemsBySeq_map (valid : In st (.map m)) :
    Gives st (fun fuel => itemsBySeq fuel (.map m))
      (.ok (m.drain.toList.map fun e => ofEntry ⟨e.1, e.2⟩)) := by
  rw [(valid_entries valid).1.drain_toList]
  exact itemsBySeq_does valid .map

theorem seenInStep {st' : Store Value} (sane' : Sane st') {n : Map Metadata Value Value}
    (valid : In st (.map m)) (valid' : In st' (.map n)) (same : m.SameKeys n.toTable)
    (apart : m.Separated) : SeenInStep st m st' n where
  walks := same.inStep lawful_known.toKeyLaw (valid_entries valid).1 (valid_entries valid').1 apart
  seq_left := itemsBySeq_map valid
  seq_right := itemsBySeq_map valid'
  print_left := exists_printsRows sane
  print_right := exists_printsRows sane'

end Map

end Value

/-- Every map that a program makes is walked in the order of its hashes, and two maps of any two
programs with the same keys, no two of them of one hash, show them in the same order. -/
theorem run_walks_ordered [Hasher] {μ ν K V W : Type} [BEq K] [Hashable K] [EquivBEq K]
    [LawfulHashable K] :
    (∀ (steps : List (Map.Step K V)) (steps' : List (Map.Step K W)),
      ∀ m ∈ (Map.run steps : List (Map μ K V)), m.Ordered ∧
        ∀ n ∈ (Map.run steps' : List (Map ν K W)), m.SameKeys n.toTable → m.Separated →
          m.InStep n) ∧
      ∀ acts acts' : List (Value.Step × ℕ),
        (∀ v ∈ (Value.run acts).values, Value.In (Value.run acts).store v) ∧
          ∀ m, Value.In (Value.run acts).store (.map m) → m.Ordered ∧
            ∀ n, Value.In (Value.run acts').store (.map n) → m.SameKeys n.toTable →
              m.Separated →
                Value.SeenInStep (Value.run acts).store m (Value.run acts').store n := by
  refine ⟨fun steps steps' m hm => ⟨?_, fun n hn => ?_⟩, fun acts acts' =>
    ⟨(Value.valid_run acts).values, fun m valid => ⟨?_, fun n valid' => ?_⟩⟩⟩
  · exact (Map.wellFormed_run steps m hm).ordered
  · exact Map.inStep_of_keyed (Map.wellFormed_run steps m hm) (Map.wellFormed_run steps' n hn)
  · exact (Value.valid_entries valid).1.ordered
  · exact Value.seenInStep (Value.valid_run acts).sane (Value.valid_run acts').sane valid valid'

/-- A key of the first hash comes and goes, and leaves its entry deep in the trie. -/
def Map.winding : List (Step HashedKey ℕ) :=
  [.insert 0 ⟨1, 7, ""⟩ 10, .insert 1 ⟨4, 7, ""⟩ 40, .insert 2 ⟨2, 39, ""⟩ 20,
    .insert 3 ⟨3, 1152921504606846983, ""⟩ 30, .erase 4 ⟨4, 7, ""⟩]

def Map.straight : List (Step HashedKey Bool) :=
  [.insertAll 0 [(⟨3, 1152921504606846983, "c"⟩, true), (⟨2, 39, "b"⟩, false),
    (⟨1, 7, "a"⟩, true)]]

def Value.atOnce : List (Step × ℕ) :=
  [(.int 1, 9), (.int 2, 9), (.hashMap [(0, 0), (1, 1)], 9)]

/-- The keys of the one map, one at a time and the other way round. -/
def Value.piecewise : List (Step × ℕ) :=
  [(.int 2, 9), (.int 1, 9), (.hashMap [], 9), (.assoc 2 0 1, 9), (.assoc 3 1 0, 9)]

attribute [local instance] Hasher.sum in
theorem run_walks_ordered_detour :
    EquivBEq HashedKey ∧ LawfulHashable HashedKey ∧
      (∃ m ∈ (Map.run Map.winding : List (Map Unit HashedKey ℕ)),
        ∃ n ∈ (Map.run Map.straight : List (Map ℕ HashedKey Bool)),
          m.SameKeys n.toTable ∧ m.Separated ∧ m.Ordered ∧ m.InStep n ∧
            m.keys.map (·.id) = [1, 3, 2]) ∧
      ∃ m n, (Value.run Value.atOnce).value 2 = .map m ∧
        (Value.run Value.piecewise).value 4 = .map n ∧ m.SameKeys n.toTable ∧ m.Separated ∧
          m.Ordered ∧ Value.SeenInStep (Value.run Value.atOnce).store m
            (Value.run Value.piecewise).store n := by
  obtain ⟨maps, values⟩ := run_walks_ordered (μ := Unit) (ν := ℕ) (V := ℕ) (W := Bool)
    (K := HashedKey)
  have made := List.get_mem (Map.run Map.winding : List (Map Unit HashedKey ℕ)) ⟨5, by decide⟩
  have made' := List.get_mem (Map.run Map.straight : List (Map ℕ HashedKey Bool)) ⟨1, by decide⟩
  have ordered := maps Map.winding Map.straight _ made
  have valid := (Value.valid_run Value.atOnce).value 2
  have valid' := (Value.valid_run Value.piecewise).value 4
  have ordered' := (values Value.atOnce Value.piecewise).2 _ valid
  refine ⟨inferInstance, inferInstance, ⟨_, made, _, made', ?_, ?_, ordered.1,
    ordered.2 _ made' ?_ ?_, ?_⟩, _, _, rfl, rfl, ?_, ?_, ordered'.1, ordered'.2 _ valid' ?_ ?_⟩
  all_goals decide +kernel

end Persistent
