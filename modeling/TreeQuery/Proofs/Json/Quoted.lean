import TreeQuery.Json.Quoted

/-! # Quoted texts are read back

Each character is written in a way that reading turns back into that character, whatever follows
(`decode_encodeChar`). -/

namespace TreeQuery.Quoted

theorem unhex4_hex4_of_lt : ∀ n < 32, unhex4 (Nat.digitChar (n / 4096 % 16)) (Nat.digitChar (n / 256 % 16))
    (Nat.digitChar (n / 16 % 16)) (Nat.digitChar (n % 16)) = some n := by
  decide

theorem decode_of_plain {c : Char} {rest : List Char} (hq : c ≠ '"') (hb : c ≠ '\\') (h : ¬c.toNat < 32) :
    decode (c :: rest) = push c (decode rest) := by
  rw [decode, if_neg h]
  all_goals simp [hq, hb]

theorem decode_encodeChar (c : Char) (rest : List Char) : decode (encodeChar c ++ rest) = push c (decode rest) := by
  unfold encodeChar
  split
  case h_8 hquote hbackslash _ _ _ _ _ =>
    split
    · rename_i hlt
      have hhigh : isHighSurrogate c.toNat = false := by
        simp [isHighSurrogate]
        omega
      have hlow : isLowSurrogate c.toNat = false := by
        simp [isLowSurrogate]
        omega
      simp [hex4, decode, unhex4_hex4_of_lt c.toNat hlt, hhigh, hlow]
    · rename_i hge
      exact decode_of_plain hquote hbackslash hge
  all_goals simp [decode, escaped?]

/-- Behind the opening quote, a text written as it is quoted is read up to the closing quote. -/
theorem decode_flatMap (text rest : List Char) : decode (text.flatMap encodeChar ++ '"' :: rest) = some (text, rest) := by
  induction text with
  | nil => simp [decode]
  | cons c text ih =>
    rw [List.flatMap_cons, List.append_assoc, decode_encodeChar, ih]
    rfl

theorem encode_append (text rest : List Char) :
    encode text ++ rest = '"' :: (text.flatMap encodeChar ++ '"' :: rest) := by
  simp [encode]

end TreeQuery.Quoted
