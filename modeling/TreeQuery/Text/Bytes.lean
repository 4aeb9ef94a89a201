/-! # Texts by their bytes

A text is stored as bytes in UTF-8, and a place in it may be given as a number of bytes. Not every such place is one
where a character begins, and not all bytes are a text: a slice between other places is no text, and where bytes are
decoded, each part of them that is no character is replaced. -/

namespace TreeQuery

/-- The byte of a text at a place. -/
def byteAt? (text : String) (place : Nat) : Option UInt8 := text.toByteArray[place]?

theorem lt_of_byteAt? {text : String} {place : Nat} {b : UInt8} (h : byteAt? text place = some b) :
    place < text.utf8ByteSize := by
  obtain ⟨hlt, -⟩ := getElem?_eq_some_iff.mp h
  exact hlt

/-- The part of a text between two places, if they are in order and characters begin there or the text ends. -/
def slice? (text : String) (start stop : Nat) : Option String :=
  if h : start ≤ stop ∧ String.Pos.Raw.IsValid text ⟨start⟩ ∧ String.Pos.Raw.IsValid text ⟨stop⟩ then
    some (text.extract ⟨⟨start⟩, h.2.1⟩ ⟨⟨stop⟩, h.2.2⟩)
  else none

/-- What stands for bytes that are no character. -/
def replacement : Char := '\uFFFD'

/-- Whether a byte may be the second one of a character of three or four bytes that begins with `lead`. -/
def mayFollow (lead second : UInt8) : Bool :=
  if lead = 0xE0 then 0xA0 ≤ second && second ≤ 0xBF
  else if lead = 0xED then 0x80 ≤ second && second ≤ 0x9F
  else if lead = 0xF0 then 0x90 ≤ second && second ≤ 0xBF
  else if lead = 0xF4 then 0x80 ≤ second && second ≤ 0x8F
  else 0xE1 ≤ lead && lead ≤ 0xF3 && 0x80 ≤ second && second ≤ 0xBF

/-- The number of bytes that are replaced together where no character begins: those that a character could begin with,
    and one at least. -/
def brokenSize : List UInt8 → Nat
  | lead :: second :: rest =>
    if !mayFollow lead second then 1
    else match rest with
      | third :: _ => if 0xF0 ≤ lead && 0x80 ≤ third && third ≤ 0xBF then 3 else 2
      | [] => 2
  | _ => 1

theorem brokenSize_pos (bytes : List UInt8) : 0 < brokenSize bytes := by
  unfold brokenSize
  repeat' split
  all_goals exact Nat.succ_pos _

/-- The characters that bytes encode, where bytes that are no character are replaced. -/
def decodeLossy (bytes : List UInt8) : List Char :=
  if bytes = [] then []
  else match bytes.toByteArray.utf8DecodeChar? 0 with
    | some c => c :: decodeLossy (bytes.drop c.utf8Size)
    | none => replacement :: decodeLossy (bytes.drop (brokenSize bytes))
termination_by bytes.length
decreasing_by
  all_goals
    rw [List.length_drop]
    refine Nat.sub_lt (List.length_pos_iff.mpr ‹_›) ?_
  · exact c.utf8Size_pos
  · exact brokenSize_pos bytes

end TreeQuery
