import Persistent.Proofs.Seq.Shown

/-!
The lazy cells in front of a sequence: the one that stands so many places on, if a walk has come
far enough for it to exist. One step of the walk brings every cell one place nearer.
-/

set_option autoImplicit false

namespace Persistent.Seq

variable {α : Type}

/-- Cell `i` is met behind `d` items of the sequence. -/
inductive Ahead (st : Store α) : Seq α → ℕ → ℕ → Prop
  | cons {x : α} {rest : Seq α} {d i : ℕ} (behind : Ahead st rest d i) :
      Ahead st (.cons x rest) (d + 1) i
  | lazy {j : ℕ} {answer : ℕ → Option α} {k cell d i : ℕ} (here : st.At j answer k cell)
      (there : st.At j answer (k + d) i) : Ahead st (.lazy cell) d i

/-- What is met behind `d` items is there: it is known, or the sequence has no lazy cell, or there
is a cell. -/
def Reached (st : Store α) (s : Seq α) (d : ℕ) : Prop :=
  d < s.known.length ∨ s.pending? = none ∨ ∃ i, Ahead st s d i

theorem Ahead.mono {st st' : Store α} (grows : st.Grows st') {s : Seq α} {d i : ℕ}
    (h : Ahead st s d i) : Ahead st' s d i := by
  induction h with
  | cons _ ih => exact .cons ih
  | lazy here there => exact .lazy (grows _ _ _ _ here) (grows _ _ _ _ there)

theorem Reached.mono {st st' : Store α} (grows : st.Grows st') {s : Seq α} {d : ℕ}
    (h : Reached st s d) : Reached st' s d :=
  h.imp id (Or.imp id fun ⟨i, ahead⟩ => ⟨i, ahead.mono grows⟩)

theorem ahead_ofList {st : Store α} {xs : List α} {d i : ℕ} : ¬Ahead st (ofList xs) d i := by
  cases xs with
  | nil => exact nofun
  | cons x xs => exact nofun

section Zero

variable {st st' : Store α} {s : Seq α} {f : Items α} (shows : Shows st s f)
  (grows : st.Grows st')
include shows grows

theorem ahead_zero (i : ℕ) : Ahead st' s 0 i ↔ s = .lazy i := by
  constructor
  · intro ahead
    cases ahead with
    | lazy here there =>
      rw [Option.some.inj (here.place.symm.trans there.place)]
  · rintro rfl
    cases shows with
    | lazy stands => exact .lazy (grows _ _ _ _ stands) (grows _ _ _ _ stands)

theorem reached_zero : Reached st' s 0 := by
  cases s with
  | nil => exact .inr (.inl rfl)
  | cons x rest => exact .inl (Nat.succ_pos _)
  | list x xs => exact .inr (.inl rfl)
  | lazy cell => exact .inr (.inr ⟨cell, (ahead_zero shows grows cell).2 rfl⟩)

end Zero

section Step

variable {st st' : Store α} (chained : st.Chained) {s rest : Seq α} {f : Items α}
  (shows : Shows st s f) {x : α} (first : (s.uncons st).1 = some (x, rest))
  (grows : (s.uncons st).2.Grows st')
include chained shows first grows

theorem ahead_succ (d i : ℕ) : Ahead st' s (d + 1) i ↔ Ahead st' rest d i := by
  cases shows with
  | nil => cases first
  | cons shows =>
    cases first
    exact ⟨fun ahead => by cases ahead; assumption, .cons⟩
  | list =>
    cases first
    exact ⟨nofun, fun ahead => absurd ahead ahead_ofList⟩
  | @lazy j answer k cell stands =>
    have looked := chained.looked stands
    unfold uncons at first grows
    dsimp only at first grows
    obtain ⟨⟨y, next⟩, forced, same⟩ := Option.map_eq_some_iff.1 first
    cases same
    have here := grows _ _ _ _ (looked.grows _ _ _ _ stands)
    have behind := grows _ _ _ _ (looked.behind y next forced)
    have place : k + (d + 1) = k + 1 + d := by omega
    constructor
    · intro ahead
      cases ahead with
      | lazy here' there =>
        obtain ⟨rfl, rfl, rfl⟩ := here.unique here'
        exact .lazy behind (place ▸ there)
    · intro ahead
      cases ahead with
      | lazy behind' there =>
        obtain ⟨rfl, rfl, rfl⟩ := behind.unique behind'
        exact .lazy here (place ▸ there)

theorem reached_succ {d : ℕ} (reached : Reached st' rest d) : Reached st' s (d + 1) := by
  have cells := ahead_succ chained shows first grows d
  cases shows with
  | nil => cases first
  | cons shows =>
    cases first
    rcases reached with known | none | ⟨i, ahead⟩
    · exact .inl (Nat.succ_lt_succ known)
    · exact .inr (.inl none)
    · exact .inr (.inr ⟨i, (cells i).2 ahead⟩)
  | list => exact .inr (.inl rfl)
  | lazy =>
    obtain ⟨⟨y, next⟩, -, same⟩ := Option.map_eq_some_iff.1 first
    cases same
    rcases reached with known | none | ⟨i, ahead⟩
    · cases known
    · cases none
    · exact .inr (.inr ⟨i, (cells i).2 ahead⟩)

end Step

end Persistent.Seq
