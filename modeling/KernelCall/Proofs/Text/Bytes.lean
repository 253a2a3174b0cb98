import Mathlib.Data.List.Infix

/-!
# Bytes of a text

A text is stored as the bytes of its characters in UTF-8. The bytes of one text are found among those
of another only where its characters are (`exists_append_of_bytes_isPrefix_drop`): the first byte of a
character is never one of the later bytes of another, so a place at which a character is found is on
the boundary between two characters.

A character of ASCII is a single byte, and no byte of any other character is the code of one
(`mem_utf8EncodeChar`).
-/

namespace KernelCall.Text

variable {s t w : String} {i : Nat}

/-- The bytes of a text. -/
def bytes (s : String) : List UInt8 := s.toByteArray.data.toList

@[simp] theorem bytes_empty : bytes "" = [] := rfl

@[simp] theorem bytes_append (s t : String) : bytes (s ++ t) = bytes s ++ bytes t := by
  rw [bytes, String.toByteArray_append, ByteArray.toList_data_append, bytes, bytes]

@[simp] theorem length_bytes (s : String) : (bytes s).length = s.utf8ByteSize := by
  rw [bytes, Array.length_toList, ← String.size_toByteArray]
  rfl

theorem bytes_singleton (c : Char) : bytes (String.singleton c) = String.utf8EncodeChar c := by
  rw [bytes, String.toByteArray_singleton, List.utf8Encode_singleton, List.toList_data_toByteArray]

/-! ## Characters and bytes -/

theorem toNat_ofUInt8 (b : UInt8) : (Char.ofUInt8 b).toNat = b.toNat := UInt8.toNat_toUInt32 b

/-- A byte of a character is the character itself, or neither is one of ASCII. -/
theorem eq_or_le_of_mem_utf8EncodeChar {c : Char} {b : UInt8} (h : b ∈ String.utf8EncodeChar c) :
    c = Char.ofUInt8 b ∨ (128 ≤ c.toNat ∧ 128 ≤ b.toNat) := by
  by_cases hc : c.val.toNat ≤ 127
  · left
    rw [String.utf8EncodeChar, if_pos hc, List.mem_singleton] at h
    refine Char.ext (UInt32.toNat_inj.mp ((toNat_ofUInt8 b).trans ?_).symm)
    rw [h, UInt8.toNat_ofNat']
    omega
  · right
    refine ⟨Nat.lt_of_not_le hc, ?_⟩
    simp only [String.utf8EncodeChar, if_neg hc] at h
    split_ifs at h <;> simp only [List.mem_cons, List.not_mem_nil, or_false] at h
    · rcases h with rfl | rfl <;> simp only [UInt8.toNat_ofNat'] <;> omega
    · rcases h with rfl | rfl | rfl <;> simp only [UInt8.toNat_ofNat'] <;> omega
    · rcases h with rfl | rfl | rfl | rfl <;> simp only [UInt8.toNat_ofNat'] <;> omega

section Ends

/-! What holds of no character outside of ASCII can be asked of the bytes at the ends of a text. -/

variable {p : Char → Bool} (hp : ∀ c, p c → c.toNat < 128)

include hp

private theorem apply_ofUInt8 {c : Char} {b : UInt8} (h : b ∈ String.utf8EncodeChar c) :
    p (Char.ofUInt8 b) = p c := by
  rcases eq_or_le_of_mem_utf8EncodeChar h with rfl | ⟨hc, hb⟩
  · rfl
  · have hbyte := toNat_ofUInt8 b
    have hleft : p (Char.ofUInt8 b) = false := by
      rw [Bool.eq_false_iff]
      exact fun h ↦ absurd (hp _ h) (by omega)
    have hright : p c = false := by
      rw [Bool.eq_false_iff]
      exact fun h ↦ absurd (hp _ h) (by omega)
    rw [hleft, hright]

theorem any_head?_bytes (s : String) :
    ((bytes s).head?.any fun b ↦ p (Char.ofUInt8 b)) = s.toList.head?.any p := by
  obtain ⟨cs, rfl⟩ := s.exists_eq_ofList
  rw [String.toList_ofList]
  cases cs with
  | nil => rfl
  | cons c cs =>
    obtain ⟨b, bs, hbs⟩ := List.exists_cons_of_ne_nil (String.utf8EncodeChar_ne_nil (c := c))
    rw [String.ofList_cons, bytes_append, bytes_singleton, hbs]
    exact apply_ofUInt8 hp (hbs ▸ List.mem_cons_self)

theorem any_getLast?_bytes (s : String) :
    ((bytes s).getLast?.any fun b ↦ p (Char.ofUInt8 b)) = s.toList.getLast?.any p := by
  induction s using String.push_induction with
  | empty => rfl
  | push s c _ =>
    have hlast := List.getLast?_eq_some_getLast (String.utf8EncodeChar_ne_nil (c := c))
    rw [← String.append_singleton, bytes_append, bytes_singleton,
      List.getLast?_append_of_ne_nil _ String.utf8EncodeChar_ne_nil, hlast, String.append_singleton,
      String.toList_push, List.getLast?_concat]
    exact apply_ofUInt8 hp (List.mem_of_getLast? hlast)

end Ends

/-! ## Places of a text -/

/-- A text begins with the characters with whose bytes it begins. -/
theorem exists_append_of_bytes_isPrefix (h : bytes w <+: bytes t) : ∃ s, t = w ++ s := by
  obtain ⟨bs, hbs⟩ := h
  have harrays : w.toList.utf8Encode ++ bs.toByteArray = t.toList.utf8Encode := by
    rw [String.utf8Encode_toList, String.utf8Encode_toList, ByteArray.ext_iff, ← Array.toList_inj,
      ByteArray.toList_data_append, List.toList_data_toByteArray]
    exact hbs
  obtain ⟨cs, hcs⟩ := List.isPrefix_of_utf8Encode_append_eq_utf8Encode _ harrays
  refine ⟨String.ofList cs, String.toList_inj.mp ?_⟩
  rw [String.toList_append, String.toList_ofList, hcs]

private theorem isUTF8FirstByte_bytes_zero (h : 0 < (bytes w).length) :
    (bytes w)[0].IsUTF8FirstByte := by
  have hpos : 0 < w.rawEndPos := by
    rwa [String.Pos.Raw.lt_iff, String.byteIdx_rawEndPos, ← length_bytes]
  exact String.isUTF8FirstByte_getUTF8Byte_zero (h := hpos)

/-- **The bytes of a text are found where the text is found.** -/
theorem exists_append_of_bytes_isPrefix_drop (hw : w ≠ "") (h : bytes w <+: (bytes t).drop i) :
    ∃ front back, t = front ++ (w ++ back) ∧ front.utf8ByteSize = i := by
  have hpos : 0 < (bytes w).length := by
    rw [length_bytes, Nat.pos_iff_ne_zero]
    exact mt String.utf8ByteSize_eq_zero_iff.mp hw
  have hlength := h.length_le
  rw [List.length_drop] at hlength
  have hfirst : (bytes t)[i].IsUTF8FirstByte := by
    have hbyte : (bytes w)[0] = (bytes t)[i] := by
      simp only [h.getElem hpos, List.getElem_drop, Nat.add_zero]
    rw [← hbyte]
    exact isUTF8FirstByte_bytes_zero hpos
  have hvalid : (⟨i⟩ : String.Pos.Raw).IsValid t := by
    have hlt : (⟨i⟩ : String.Pos.Raw) < t.rawEndPos := by
      rw [String.Pos.Raw.lt_iff, String.byteIdx_rawEndPos, ← length_bytes]
      change i < _
      omega
    exact String.Pos.Raw.isValid_iff_isUTF8FirstByte.mpr (Or.inr ⟨hlt, hfirst⟩)
  obtain ⟨front, rest, rfl, hfront⟩ := String.Pos.Raw.isValid_iff_exists_append.mp hvalid
  have hsize : front.utf8ByteSize = i := by
    rw [← String.byteIdx_rawEndPos, ← hfront]
  rw [bytes_append, List.drop_left' (by rw [length_bytes, hsize])] at h
  obtain ⟨back, rfl⟩ := exists_append_of_bytes_isPrefix h
  exact ⟨front, back, rfl, hsize⟩

end KernelCall.Text
