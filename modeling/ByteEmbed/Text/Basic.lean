/-!
# Text and its size in bytes

Text is a list of characters.  Sizes, limits and offsets are counted in the
bytes of its UTF-8 form, so every character weighs between one and four.
-/

namespace ByteEmbed

/-- Text, character by character. -/
abbrev Text := List Char

namespace Text

/-- The number of bytes that a text takes in UTF-8. -/
def byteLength (text : Text) : Nat :=
  text.foldr (fun c size => c.utf8Size + size) 0

/-- The UTF-8 form of a text. -/
def encode (text : Text) : List UInt8 :=
  text.flatMap String.utf8EncodeChar

/-- The text before the first newline, or all of it. -/
def firstLine (text : Text) : Text :=
  text.takeWhile (· != '\n')

@[simp]
theorem byteLength_nil : byteLength [] = 0 := rfl

@[simp]
theorem byteLength_cons (c : Char) (text : Text) :
    byteLength (c :: text) = c.utf8Size + byteLength text :=
  rfl

@[simp]
theorem byteLength_append (front back : Text) :
    byteLength (front ++ back) = byteLength front + byteLength back := by
  induction front with
  | nil => simp
  | cons c front ih =>
      rw [List.cons_append, byteLength_cons, byteLength_cons, ih, Nat.add_assoc]

@[simp]
theorem encode_nil : encode [] = [] := rfl

@[simp]
theorem encode_cons (c : Char) (text : Text) :
    encode (c :: text) = String.utf8EncodeChar c ++ encode text := by
  simp [encode]

@[simp]
theorem encode_append (front back : Text) :
    encode (front ++ back) = encode front ++ encode back := by
  simp [encode]

@[simp]
theorem length_encode (text : Text) : (encode text).length = byteLength text := by
  induction text with
  | nil => rfl
  | cons c text ih => simp [ih]

end Text

end ByteEmbed
