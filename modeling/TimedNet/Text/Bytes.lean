/-
  TimedNet.Text.Bytes

  Offsets into a text are counted in bytes of its UTF-8 form.
-/

namespace TimedNet.Text

/-- The byte that ends a line. -/
def newline : UInt8 := 10

/-- The UTF-8 form of a run of characters. -/
def bytes (cs : List Char) : List UInt8 := cs.flatMap String.utf8EncodeChar

/-- The number of bytes that a run of characters takes. -/
def width : List Char → Nat
  | [] => 0
  | c :: cs => c.utf8Size + width cs

@[simp] theorem bytes_nil : bytes [] = [] := rfl

@[simp] theorem bytes_append (cs ds : List Char) : bytes (cs ++ ds) = bytes cs ++ bytes ds := by
  simp [bytes]

@[simp] theorem width_nil : width [] = 0 := rfl

@[simp] theorem width_cons (c : Char) (cs : List Char) :
    width (c :: cs) = c.utf8Size + width cs := rfl

@[simp] theorem width_append (cs ds : List Char) : width (cs ++ ds) = width cs + width ds := by
  induction cs with
  | nil => simp
  | cons c cs ih => simp [ih, Nat.add_assoc]

/-- A run of characters is as wide as its UTF-8 form is long. -/
theorem length_bytes (cs : List Char) : (bytes cs).length = width cs := by
  induction cs with
  | nil => rfl
  | cons c cs ih =>
    have hc : bytes (c :: cs) = String.utf8EncodeChar c ++ bytes cs := by simp [bytes]
    simp [hc, ih, String.length_utf8EncodeChar]

/-- A text is as wide as its characters. -/
theorem width_toList (s : String) : width s.toList = s.utf8ByteSize := by
  have hencode : s.toByteArray = (bytes s.toList).toByteArray := String.utf8Encode_toList.symm
  rw [← length_bytes, ← String.size_toByteArray, hencode, List.size_toByteArray]

end TimedNet.Text
