import TreeQuery.Proofs.Grammar.Position
import TreeQuery.Query.Scan

/-! # Characters and their bytes

A character is one byte below 128, which is the character itself, or several bytes from 128 on (`encode_cases`). So the
bytes of the grammar are found among bytes as its characters are among characters. Where a text is split between
characters (`Splits`), the bytes before and behind are those of the parts, decoding gives the characters back without a
replacement (`decodeLossy_bytesOf`), and a slice is what stands between (`slice?_of_splits`). -/

namespace TreeQuery
open Scan

variable {text : String} {before behind raw cs : List Char} {c : Char} {place : Nat} {b : UInt8}

/-- The bytes of characters. -/
def bytesOf (cs : List Char) : List UInt8 := cs.flatMap String.utf8EncodeChar

theorem bytesOf_cons (c : Char) (cs : List Char) : bytesOf (c :: cs) = String.utf8EncodeChar c ++ bytesOf cs :=
  List.flatMap_cons

theorem bytesOf_append (a b : List Char) : bytesOf (a ++ b) = bytesOf a ++ bytesOf b := List.flatMap_append

theorem length_bytesOf (cs : List Char) : (bytesOf cs).length = byteLength cs := by
  induction cs with
  | nil => rfl
  | cons c cs ih => rw [bytesOf_cons, List.length_append, String.length_utf8EncodeChar, ih, byteLength]

theorem toByteArray_bytesOf (cs : List Char) : (bytesOf cs).toByteArray = cs.utf8Encode := rfl

theorem isValidUTF8_bytesOf (cs : List Char) : (bytesOf cs).toByteArray.IsValidUTF8 := ⟨cs, rfl⟩

/-- A character is one byte, which is the character, or it is beyond ASCII and all its bytes are. -/
theorem encode_cases (c : Char) :
    (∃ b, String.utf8EncodeChar c = [b] ∧ Char.ofUInt8 b = c) ∨
      128 ≤ c.toNat ∧ ∃ b more, String.utf8EncodeChar c = b :: more ∧ ∀ x ∈ b :: more, 128 ≤ x.toNat := by
  have hhigh : ∀ n, 128 ≤ n → n < 256 → 128 ≤ (UInt8.ofNat n).toNat := fun n h h' => by
    rwa [UInt8.toNat_ofNat_of_lt' h']
  fun_cases String.utf8EncodeChar c
  · rename_i v hv
    refine Or.inl ⟨_, rfl, Char.ext (UInt32.toNat_inj.mp ?_)⟩
    show (UInt8.ofNat v).toUInt32.toNat = v
    rw [UInt8.toNat_toUInt32, UInt8.toNat_ofNat_of_lt' (Nat.lt_of_le_of_lt hv (by decide))]
  all_goals
    have hv : 128 ≤ c.toNat := Nat.lt_of_not_le ‹¬c.val.toNat ≤ 127›
    refine Or.inr ⟨hv, _, _, rfl, ?_⟩
    simp only [List.forall_mem_cons, List.not_mem_nil, false_imp_iff, implies_true, and_true]
  · exact ⟨hhigh _ (by omega) (by omega), hhigh _ (by omega) (by omega)⟩
  · exact ⟨hhigh _ (by omega) (by omega), hhigh _ (by omega) (by omega), hhigh _ (by omega) (by omega)⟩
  · exact ⟨hhigh _ (by omega) (by omega), hhigh _ (by omega) (by omega), hhigh _ (by omega) (by omega),
      hhigh _ (by omega) (by omega)⟩

/-- Behind the first byte of a character there are only bytes beyond ASCII. -/
theorem encode_tail (c : Char) : ∃ b more, String.utf8EncodeChar c = b :: more ∧ ∀ x ∈ more, 128 ≤ x.toNat := by
  rcases encode_cases c with ⟨b, hc, -⟩ | ⟨-, b, more, hc, hhigh⟩
  · exact ⟨b, [], hc, List.forall_mem_nil _⟩
  · exact ⟨b, more, hc, fun x hx => hhigh x (List.mem_cons_of_mem b hx)⟩

theorem ofUInt8_ne {d : Char} (h : 128 ≤ b.toNat) (hd : d.toNat < 128) : Char.ofUInt8 b ≠ d := by
  rintro rfl
  have hval : (Char.ofUInt8 b).toNat = b.toNat := UInt8.toNat_toUInt32 b
  omega

/-! ### Decoding -/

/-- Bytes of characters are decoded without a replacement. -/
theorem decodeLossy_bytesOf (cs : List Char) : decodeLossy (bytesOf cs) = cs := by
  induction cs with
  | nil => rw [decodeLossy]; rfl
  | cons c cs ih =>
    have hne : bytesOf (c :: cs) ≠ [] := by
      rw [bytesOf_cons]
      exact List.append_ne_nil_of_left_ne_nil String.utf8EncodeChar_ne_nil _
    have hdecode : (bytesOf (c :: cs)).toByteArray.utf8DecodeChar? 0 = some c := by
      rw [bytesOf_cons, List.toByteArray_append]
      exact ByteArray.utf8DecodeChar?_utf8EncodeChar_append
    have hdrop : (bytesOf (c :: cs)).drop c.utf8Size = bytesOf cs := by
      rw [bytesOf_cons, ← String.length_utf8EncodeChar, List.drop_left]
    rw [decodeLossy, if_neg hne, hdecode]
    dsimp only
    rw [hdrop, ih]

/-! ### Places -/

/-- The bytes of a text from a place on. -/
def bytesFrom (text : String) (place : Nat) : List UInt8 := (bytesOf text.toList).drop place

theorem byteAt?_eq_head? (text : String) (place : Nat) : byteAt? text place = (bytesFrom text place).head? := by
  rw [byteAt?, ← String.utf8Encode_toList, ← toByteArray_bytesOf, bytesFrom, List.head?_drop]
  by_cases h : place < (bytesOf text.toList).length
  · rw [List.getElem?_eq_getElem h, getElem?_pos _ _ (by rwa [List.size_toByteArray]), List.getElem_toByteArray]
  · rw [List.getElem?_eq_none (Nat.le_of_not_lt h), getElem?_neg _ _ (by rwa [List.size_toByteArray])]

theorem bytesFrom_succ (text : String) (place : Nat) : bytesFrom text (place + 1) = (bytesFrom text place).tail :=
  List.tail_drop.symm

theorem bytesFrom_add {front back : List UInt8} (h : bytesFrom text place = front ++ back) :
    bytesFrom text (place + front.length) = back := by
  rw [bytesFrom, ← List.drop_drop, ← bytesFrom, h, List.drop_left]

/-- A place in a text is where the characters `before` end and the characters `behind` begin. -/
structure Splits (text : String) (place : Nat) (before behind : List Char) : Prop where
  text : text.toList = before ++ behind
  place : place = byteLength before

theorem splits_start (text : String) : Splits text 0 [] text.toList := ⟨rfl, rfl⟩

theorem Splits.append (h : Splits text place before (raw ++ behind)) :
    Splits text (place + byteLength raw) (before ++ raw) behind where
  text := by rw [h.text, List.append_assoc]
  place := by rw [h.place, byteLength_append]

theorem Splits.bytesFrom (h : Splits text place before behind) : bytesFrom text place = bytesOf behind := by
  rw [TreeQuery.bytesFrom, h.text, h.place, bytesOf_append, ← length_bytesOf, List.drop_left]

theorem Splits.ofList (h : Splits text place before behind) : text = String.ofList before ++ String.ofList behind := by
  rw [← String.ofList_append, ← h.text, String.ofList_toList]

theorem Splits.isValid (h : Splits text place before behind) : String.Pos.Raw.IsValid text ⟨place⟩ := by
  refine String.Pos.Raw.isValid_iff_exists_append.mpr ⟨_, _, h.ofList, ?_⟩
  exact String.Pos.Raw.ext (h.place.trans (utf8ByteSize_ofList before).symm)

theorem Splits.le (h : Splits text place before behind) : place ≤ text.utf8ByteSize := h.isValid.le_utf8ByteSize

theorem Splits.beginsAt (h : Splits text place before (c :: behind)) (offset : Nat) :
    BeginsAt text offset c (offset + place) :=
  (Stands.beginsAt ⟨before, behind, h.text, h.place ▸ rfl, List.forall_mem_nil _⟩).1

/-- The slice between two characters is what stands there. -/
theorem slice?_of_splits (h : Splits text place before (raw ++ behind)) :
    slice? text place (place + byteLength raw) = some (String.ofList raw) := by
  rw [slice?, dif_pos ⟨Nat.le_add_right _ _, h.isValid, h.append.isValid⟩]
  refine congrArg some (String.toByteArray_inj.mp ?_)
  have hbytes : text.toByteArray = (String.ofList before).toByteArray ++
      ((String.ofList raw).toByteArray ++ (String.ofList behind).toByteArray) := by
    rw [h.ofList, String.ofList_append, String.toByteArray_append, String.toByteArray_append]
  have hplace : place = (String.ofList before).toByteArray.size := h.place.trans (utf8ByteSize_ofList before).symm
  rw [String.toByteArray_extract, hbytes]
  refine (ByteArray.extract_append_size_add' (i := 0) hplace).trans ?_
  exact ByteArray.extract_append_eq_left (utf8ByteSize_ofList raw).symm

/-! ### The end of a bracket -/

theorem bracketEnd?_eq (text : String) (place : Nat) :
    bracketEnd? text place = (bytesFrom text place).head?.bind fun b =>
      if Char.ofUInt8 b = '\\' then bracketEnd? text (place + 2)
      else if Char.ofUInt8 b = ']' then some place
      else bracketEnd? text (place + 1) := by
  rw [bracketEnd?]
  split
  · rename_i hb
    rw [← byteAt?_eq_head?, hb]
    rfl
  · rename_i b hb
    rw [← byteAt?_eq_head?, hb]
    rfl

theorem bracketEnd?_of_high {more back : List UInt8} (h : ∀ x ∈ more, 128 ≤ x.toNat)
    (hb : bytesFrom text place = more ++ back) : bracketEnd? text place = bracketEnd? text (place + more.length) := by
  induction more generalizing place with
  | nil => rfl
  | cons x more ih =>
    obtain ⟨hx, hmore⟩ := List.forall_mem_cons.mp h
    have htail : bytesFrom text (place + 1) = more ++ back := by rw [bytesFrom_succ, hb]; rfl
    rw [bracketEnd?_eq, hb, List.cons_append, List.head?_cons, Option.bind_some,
      if_neg (ofUInt8_ne hx (by decide)), if_neg (ofUInt8_ne hx (by decide)), ih hmore htail, List.length_cons,
      Nat.add_assoc, Nat.add_comm 1]

theorem bracketEnd?_of_plain {rest : List UInt8} (hb : bytesFrom text place = String.utf8EncodeChar c ++ rest)
    (hc : c ≠ '\\') (hc' : c ≠ ']') : bracketEnd? text place = bracketEnd? text (place + c.utf8Size) := by
  rcases encode_cases c with ⟨b, henc, hchar⟩ | ⟨-, b, more, henc, hhigh⟩
  · rw [bracketEnd?_eq, hb, henc, ← String.length_utf8EncodeChar, henc]
    simp only [List.cons_append, List.nil_append, List.head?_cons, Option.bind_some, hchar, if_neg hc, if_neg hc']
    rfl
  · rw [henc] at hb
    rw [bracketEnd?_of_high hhigh hb, ← henc, String.length_utf8EncodeChar]

/-- Where a bracket ends behind `front` that is part of it. -/
theorem map_place (front : List Char) (parts : Option (List Char × List Char)) :
    (parts.map fun p => (front ++ p.1, p.2)).map (fun p => place + byteLength p.1) =
      parts.map fun p => place + byteLength front + byteLength p.1 := by
  rw [Option.map_map]
  refine congrArg (Option.map · parts) (funext fun p => ?_)
  rw [Function.comp_apply, byteLength_append, Nat.add_assoc]

/-- The search through bytes finds the `]` that ends the bracket. -/
theorem bracketEnd?_of_splits (h : Splits text place before behind) :
    bracketEnd? text place = (splitBracket behind).map fun p => place + byteLength p.1 := by
  fun_induction splitBracket behind generalizing place before with
  | case1 =>
    rw [bracketEnd?_eq, h.bytesFrom]
    rfl
  | case2 c rest ih =>
    obtain ⟨b, more, henc, hhigh⟩ := encode_tail c
    have hbytes : bytesFrom text place = [0x5C, b] ++ (more ++ bytesOf rest) := by
      rw [h.bytesFrom, bytesOf_cons, bytesOf_cons, henc]
      rfl
    have hmore : bytesFrom text (place + 2) = more ++ bytesOf rest := bytesFrom_add hbytes
    have hescape : bracketEnd? text place = bracketEnd? text (place + 2) := by
      rw [bracketEnd?_eq, hbytes]
      rfl
    have hplace : place + 2 + more.length = place + byteLength ['\\', c] := by
      have hsize : more.length + 1 = c.utf8Size := by rw [← String.length_utf8EncodeChar, henc, List.length_cons]
      have hlength : byteLength ['\\', c] = 1 + (c.utf8Size + 0) := rfl
      omega
    have hbehind : Splits text place before (['\\', c] ++ rest) := h
    rw [hescape, bracketEnd?_of_high hhigh hmore, hplace, ih hbehind.append]
    exact (map_place ['\\', c] (splitBracket rest)).symm
  | case3 rest =>
    rw [bracketEnd?_eq, h.bytesFrom]
    rfl
  | case4 c rest hc hc' ih =>
    by_cases hescape : c = '\\'
    · cases rest with
      | cons d rest => exact absurd rfl (hc d rest hescape)
      | nil =>
        -- The byte behind the backslash is missing, so the search goes on behind the end.
        subst hescape
        have hnil : bytesFrom text (place + 2) = [] := by
          rw [bytesFrom_succ, bytesFrom_succ, h.bytesFrom]
          rfl
        have hnone : bracketEnd? text (place + 2) = none := by
          rw [bracketEnd?_eq, hnil]
          rfl
        rw [bracketEnd?_eq, h.bytesFrom]
        exact hnone
    · have hbehind : Splits text place before ([c] ++ rest) := h
      rw [bracketEnd?_of_plain (h.bytesFrom.trans (bytesOf_cons c rest)) hescape hc']
      exact (ih hbehind.append).trans (map_place [c] (splitBracket rest)).symm

end TreeQuery
