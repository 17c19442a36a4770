import Mathlib.Data.Int.Notation
import Mathlib.Data.Nat.Notation
import Persistent.Text

/-!
Printed strings and numbers in the middle of a text. An escaped text can be read back, a quoted one
ends at its first quote that is not escaped, and a number ends where its digits do.
-/

set_option autoImplicit false

namespace Persistent.Text

/-- What an escaped text stands for. -/
def unescape : List Char → List Char
  | '\\' :: 'n' :: cs => '\n' :: unescape cs
  | '\\' :: 't' :: cs => '\t' :: unescape cs
  | '\\' :: 'r' :: cs => '\r' :: unescape cs
  | '\\' :: c :: cs => c :: unescape cs
  | c :: cs => c :: unescape cs
  | [] => []

/-- The text up to the first quote that no backslash escapes, and the text behind that quote. -/
def upToQuote? : List Char → Option (List Char × List Char)
  | [] => none
  | '"' :: cs => some ([], cs)
  | '\\' :: c :: cs => (upToQuote? cs).map fun (body, rest) => ('\\' :: c :: body, rest)
  | c :: cs => (upToQuote? cs).map fun (body, rest) => (c :: body, rest)

theorem toList_escape (s : String) : (escape s).toList = s.toList.flatMap escapeChar := by
  rw [escape, String.toList_ofList]

theorem toList_quoted (s : String) :
    (quoted s).toList = '"' :: (s.toList.flatMap escapeChar ++ ['"']) := by
  simp [quoted, toList_escape]

/-- A character is escaped by a backslash and another, or stands for itself. -/
theorem escapeChar_cases (c : Char) :
    (∃ d, escapeChar c = ['\\', d] ∧ ∀ cs, unescape ('\\' :: d :: cs) = c :: unescape cs) ∨
    (escapeChar c = [c] ∧ c ≠ '"' ∧ c ≠ '\\') := by
  unfold escapeChar
  split
  case h_6 backslash quote => exact .inr ⟨rfl, quote, backslash⟩
  all_goals exact .inl ⟨_, rfl, fun cs => by simp [unescape]⟩

theorem unescape_flatMap (cs : List Char) : unescape (cs.flatMap escapeChar) = cs := by
  induction cs with
  | nil => rfl
  | cons c cs ih =>
    rw [List.flatMap_cons]
    rcases escapeChar_cases c with ⟨d, escaped, back⟩ | ⟨plain, -, other⟩
    · rw [escaped, List.cons_append, List.cons_append, List.nil_append, back, ih]
    · rw [plain, List.cons_append, List.nil_append, unescape, ih]
      all_goals
        intros
        contradiction

theorem unescape_escape (s : String) : unescape (escape s).toList = s.toList := by
  rw [toList_escape, unescape_flatMap]

theorem upToQuote?_flatMap (cs rest : List Char) :
    upToQuote? (cs.flatMap escapeChar ++ '"' :: rest) = some (cs.flatMap escapeChar, rest) := by
  induction cs with
  | nil => rfl
  | cons c cs ih =>
    rw [List.flatMap_cons]
    rcases escapeChar_cases c with ⟨d, escaped, -⟩ | ⟨plain, quote, other⟩
    · rw [escaped]
      change upToQuote? ('\\' :: d :: (cs.flatMap escapeChar ++ '"' :: rest)) = _
      rw [upToQuote?, ih]
      rfl
    · rw [plain]
      change upToQuote? (c :: (cs.flatMap escapeChar ++ '"' :: rest)) = _
      rw [upToQuote?, ih]
      · rfl
      all_goals
        intros
        contradiction

/-- A quoted text ends at the first quote that is not escaped, whatever comes behind it. -/
theorem upToQuote?_quoted (s : String) (rest : List Char) :
    ∃ behind, (quoted s).toList ++ rest = '"' :: behind ∧
      upToQuote? behind = some ((escape s).toList, rest) := by
  refine ⟨(escape s).toList ++ '"' :: rest, ?_, ?_⟩
  · rw [toList_quoted, toList_escape]
    simp
  · rw [toList_escape, upToQuote?_flatMap]

example : upToQuote? "a \\\"b\\\"\" c".toList = some ("a \\\"b\\\"".toList, " c".toList) :=
  rfl

theorem quoted_append_inj {s t : String} {rest rest' : List Char}
    (same : (quoted s).toList ++ rest = (quoted t).toList ++ rest') : s = t ∧ rest = rest' := by
  obtain ⟨behind, left, read⟩ := upToQuote?_quoted s rest
  obtain ⟨behind', right, read'⟩ := upToQuote?_quoted t rest'
  obtain rfl : behind = behind' := (List.cons.inj (left.symm.trans (same.trans right))).2
  obtain ⟨body, rfl⟩ := Prod.mk.inj (Option.some.inj (read.symm.trans read'))
  have back := congrArg unescape body
  rw [unescape_escape, unescape_escape, String.toList_inj] at back
  exact ⟨back, rfl⟩

/-- Texts of one kind of characters, each up to the first of another kind. -/
theorem append_inj_of_all {p : Char → Prop} {xs ys rest rest' : List Char} (hx : ∀ c ∈ xs, p c)
    (hy : ∀ c ∈ ys, p c) (stop : ∀ c ∈ rest.head?, ¬p c) (stop' : ∀ c ∈ rest'.head?, ¬p c)
    (same : xs ++ rest = ys ++ rest') : xs = ys ∧ rest = rest' := by
  induction xs generalizing ys with
  | nil =>
    cases ys with
    | nil => exact ⟨rfl, same⟩
    | cons y ys =>
      change rest = y :: (ys ++ rest') at same
      exact absurd (hy y List.mem_cons_self) (stop y (by rw [same]; rfl))
  | cons x xs ih =>
    cases ys with
    | nil =>
      change x :: (xs ++ rest) = rest' at same
      exact absurd (hx x List.mem_cons_self) (stop' x (by rw [← same]; rfl))
    | cons y ys =>
      rw [List.cons_append, List.cons_append] at same
      obtain ⟨rfl, behind⟩ := List.cons.inj same
      obtain ⟨rfl, rfl⟩ := ih (fun c h => hx c (List.mem_cons_of_mem _ h))
        (fun c h => hy c (List.mem_cons_of_mem _ h)) behind
      exact ⟨rfl, rfl⟩

/-- The characters of a decimal number. -/
def Numeric (c : Char) : Prop :=
  c = '-' ∨ c.isDigit = true

instance : DecidablePred Numeric :=
  fun c => inferInstanceAs (Decidable (c = '-' ∨ c.isDigit = true))

theorem toList_decimal (n : ℤ) : (toString n).toList =
    (if 0 ≤ n then [] else ['-']) ++ Nat.toDigits 10 n.natAbs := by
  rw [Int.toString_eq_repr, Int.repr_eq_if]
  by_cases positive : 0 ≤ n
  · rw [if_pos positive, if_pos positive, Nat.toList_repr, List.nil_append,
      show n.toNat = n.natAbs by omega]
  · rw [if_neg positive, if_neg positive, String.toList_append, Nat.toList_repr,
      show (-n).toNat = n.natAbs by omega]
    rfl

theorem digits_of_toDigits (n : ℕ) : ∀ c ∈ Nat.toDigits 10 n, c.isDigit = true :=
  fun _ h => Nat.isDigit_of_mem_toDigits (by decide) (by decide) h

theorem numeric_decimal (n : ℤ) : ∀ c ∈ (toString n).toList, Numeric c := by
  intro c h
  rw [toList_decimal, List.mem_append] at h
  rcases h with sign | digit
  · split at sign
    · cases sign
    · exact .inl (List.mem_singleton.1 sign)
  · exact .inr (digits_of_toDigits _ c digit)

theorem decimal_ne_nil (n : ℤ) : (toString n).toList ≠ [] := by
  rw [toList_decimal]
  exact List.append_ne_nil_of_right_ne_nil _ Nat.toDigits_ne_nil

/-- A sign is no digit, so the digits can be told from it, and they tell the number. -/
theorem decimal_inj {m n : ℤ} (same : (toString m).toList = (toString n).toList) : m = n := by
  have digits (k : ℕ) : Nat.ofDigitChars 10 (Nat.toDigits 10 k) 0 = k :=
    Nat.ofDigitChars_ten_toDigits
  have unsigned (k : ℕ) : ∀ cs, Nat.toDigits 10 k ≠ '-' :: cs := by
    intro cs signed
    have digit := digits_of_toDigits k '-' (by rw [signed]; exact List.mem_cons_self)
    exact absurd digit (by decide)
  rw [toList_decimal, toList_decimal] at same
  by_cases hm : 0 ≤ m
  · by_cases hn : 0 ≤ n
    · rw [if_pos hm, if_pos hn] at same
      have equal := congrArg (Nat.ofDigitChars 10 · 0) same
      rw [List.nil_append, List.nil_append, digits, digits] at equal
      omega
    · rw [if_pos hm, if_neg hn] at same
      exact absurd same (unsigned _ _)
  · by_cases hn : 0 ≤ n
    · rw [if_neg hm, if_pos hn] at same
      exact absurd same.symm (unsigned _ _)
    · rw [if_neg hm, if_neg hn] at same
      have equal := congrArg (Nat.ofDigitChars 10 · 0) (List.append_cancel_left same)
      rw [digits, digits] at equal
      omega

end Persistent.Text
