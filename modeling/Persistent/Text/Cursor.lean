/-!
Walking a text one character at a time. The cursor stands at a byte of the encoded text, decodes
the character that starts there, and moves on by as many bytes as that character takes.
-/

set_option autoImplicit false

namespace Persistent

namespace Text

structure Cursor where
  text : String
  position : Nat := 0

namespace Cursor

def next? (c : Cursor) : Option (Char × Cursor) :=
  match c.text.toByteArray.utf8DecodeChar? c.position with
  | none => none
  | some x => some (x, { c with position := c.position + x.utf8Size })

def remaining (c : Cursor) : Nat :=
  c.text.toByteArray.size - c.position

theorem remaining_next? {c d : Cursor} {x : Char} (h : c.next? = some (x, d)) :
    d.remaining < c.remaining := by
  unfold next? at h
  split at h
  case h_1 => cases h
  case h_2 y decoded =>
    cases h
    have inside := ByteArray.le_size_of_utf8DecodeChar?_eq_some decoded
    have bytes := Char.utf8Size_pos x
    unfold remaining
    dsimp only
    omega

/-- Every character still to come. -/
def toList (c : Cursor) : List Char :=
  match h : c.next? with
  | none => []
  | some (x, d) =>
    have := remaining_next? h
    x :: d.toList
termination_by c.remaining

/-- Behind the characters `front` the cursor stands at the first one of `back`. -/
theorem next?_eq {c : Cursor} {front back : List Char} (whole : c.text.toList = front ++ back)
    (here : c.position = front.utf8Encode.size) :
    c.next? = back.head?.map fun x => (x, { c with position := c.position + x.utf8Size }) := by
  have bytes : c.text.toByteArray = front.utf8Encode ++ back.utf8Encode := by
    rw [← List.utf8Encode_append, ← whole, String.utf8Encode_toList]
  have cut : c.text.toByteArray.extract c.position c.text.toByteArray.size = back.utf8Encode := by
    rw [bytes, here, ByteArray.extract_append_eq_right rfl ByteArray.size_append]
  unfold next?
  rw [ByteArray.utf8DecodeChar?_eq_utf8DecodeChar?_extract, cut]
  cases back with
  | nil => rfl
  | cons x back => rw [List.utf8DecodeChar?_utf8Encode_cons]; rfl

theorem toList_behind {c : Cursor} {front back : List Char} (whole : c.text.toList = front ++ back)
    (here : c.position = front.utf8Encode.size) : c.toList = back := by
  induction back generalizing c front with
  | nil =>
    have ended := next?_eq whole here
    rw [toList]
    split <;> simp_all
  | cons x back ih =>
    have yielded := next?_eq whole here
    rw [toList]
    split
    case h_1 none => simp [none] at yielded
    case h_2 y d found =>
      rw [found] at yielded
      cases yielded
      have passed : c.text.toList = (front ++ [x]) ++ back := by simpa using whole
      refine congrArg (x :: ·) (ih passed ?_)
      simp [List.utf8Encode_append, List.utf8Encode_singleton, here]

/-- The walk yields the characters of the text. -/
theorem toList_eq (s : String) : ({ text := s } : Cursor).toList = s.toList :=
  toList_behind (List.nil_append s.toList).symm rfl

end Cursor

end Text

end Persistent
