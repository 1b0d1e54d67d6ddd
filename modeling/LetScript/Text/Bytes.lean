/-!
# Byte lengths of texts

Positions count the bytes of the UTF-8 encoding, while texts are read character by character.
`byteLength` measures a text in bytes, and `splitAtByte?` cuts it at a byte offset, which succeeds
exactly at the offsets that lie between two characters.
-/

namespace LetScript.Text

/-- The number of bytes in the UTF-8 encoding of a text. -/
def byteLength (text : List Char) : Nat :=
  text.foldl (fun total c => total + c.utf8Size) 0

/-- Cut a text at a byte offset. There is no cut past the end or inside a character. -/
def splitAtByte? : Nat → List Char → Option (List Char × List Char)
  | 0, text => some ([], text)
  | _ + 1, [] => none
  | offset + 1, c :: text =>
    if offset + 1 < c.utf8Size then none
    else
      (splitAtByte? (offset + 1 - c.utf8Size) text).map fun (before, after) =>
        (c :: before, after)

/-- Counting on from `start` adds `start` to the length. -/
theorem foldl_utf8_size (text : List Char) (start : Nat) :
    text.foldl (fun total c => total + c.utf8Size) start = start + byteLength text := by
  induction text generalizing start with
  | nil => rfl
  | cons c text ih =>
    rw [byteLength, List.foldl_cons, List.foldl_cons, ih, ih]
    omega

@[simp] theorem byte_length_nil : byteLength [] = 0 := rfl

@[simp] theorem byte_length_cons (c : Char) (text : List Char) :
    byteLength (c :: text) = c.utf8Size + byteLength text := by
  rw [byteLength, List.foldl_cons, foldl_utf8_size, Nat.zero_add]

@[simp] theorem byte_length_append (first second : List Char) :
    byteLength (first ++ second) = byteLength first + byteLength second := by
  induction first with
  | nil => simp
  | cons c first ih => simp [ih, Nat.add_assoc]

/-- A text can be cut after any of its first parts. -/
theorem split_at_byte_append (before after : List Char) :
    splitAtByte? (byteLength before) (before ++ after) = some (before, after) := by
  induction before with
  | nil => rw [byte_length_nil, List.nil_append, splitAtByte?]
  | cons c before ih =>
    have hpos : 0 < c.utf8Size := c.utf8Size_pos
    obtain ⟨offset, hoffset⟩ := Nat.exists_eq_add_one.2 (Nat.add_pos_left hpos (byteLength before))
    have hrest : offset + 1 - c.utf8Size = byteLength before := by omega
    rw [byte_length_cons, hoffset, List.cons_append, splitAtByte?, if_neg (by omega), hrest, ih]
    rfl

/-- The bytes of a text are those of its string. -/
theorem byte_length_to_list (text : String) : byteLength text.toList = text.utf8ByteSize := by
  rw [← String.size_toByteArray, ← String.utf8Encode_toList]
  induction text.toList with
  | nil => rfl
  | cons c text ih =>
    rw [byte_length_cons, ih, List.utf8Encode_cons, ByteArray.size_append,
      List.utf8Encode_singleton, List.size_toByteArray, String.length_utf8EncodeChar]

end LetScript.Text
