import Mathlib.Data.List.Forall2
import TreeQuery.Json.Parse
import TreeQuery.Json.Render
import TreeQuery.Proofs.Json.Quoted
import TreeQuery.Proofs.Number.Numeral

/-! # Written JSON is read back

A tree of JSON that is nested no deeper than a reader goes is what its compact and its indented form are read as
(`ofChars?_compact`, `ofChars?_indented`). The two forms differ in blanks only, so that a container is read in one way:
from texts of its parts that can each be read (`Spells`), with blanks before each part and before the closing
bracket. -/

namespace TreeQuery.Json

variable {α : Type} {part : Reader α} {c closing : Char} {pad back text cs rest : List Char} {texts : List (List Char)}
  {x : α} {xs : List α} {levels fuel : Nat} {j : Json} {n : Numeral} {items : List Json} {fields : Fields Json}

/-! ### Blanks -/

def isBlank (c : Char) : Bool := c ∈ [' ', '\t', '\n', '\r']

theorem isBlank_iff : isBlank c = true ↔ c = ' ' ∨ c = '\t' ∨ c = '\n' ∨ c = '\r' := by
  simp [isBlank]

/-- A text of blanks. -/
def Blanks (pad : List Char) : Prop := ∀ c ∈ pad, isBlank c = true

theorem blanks_nil : Blanks [] := nofun

theorem blanks_space : Blanks [' '] := fun _ hc => List.mem_singleton.mp hc ▸ rfl

theorem blanks_lineBreak (depth : Nat) : Blanks (lineBreak depth) := by
  intro c hc
  rcases List.mem_cons.mp hc with rfl | hc
  · rfl
  · exact List.eq_of_mem_replicate hc ▸ rfl

theorem Blanks.skipBlanks (h : Blanks pad) (cs : List Char) : Json.skipBlanks (pad ++ cs) = Json.skipBlanks cs := by
  induction pad with
  | nil => rfl
  | cons c pad ih =>
    obtain ⟨hc, hpad⟩ := List.forall_mem_cons.mp h
    rcases isBlank_iff.mp hc with rfl | rfl | rfl | rfl
    all_goals exact ih hpad

theorem skipBlanks_cons (h : isBlank c = false) (cs : List Char) : skipBlanks (c :: cs) = c :: cs := by
  have hne : c ≠ ' ' ∧ c ≠ '\t' ∧ c ≠ '\n' ∧ c ≠ '\r' := by simpa [isBlank] using h
  rw [skipBlanks]
  all_goals simp [hne]

theorem expect_blanks (hpad : Blanks pad) (word cs : List Char) : expect word (pad ++ cs) = expect word cs := by
  rw [expect, expect, hpad.skipBlanks]

theorem expect_cons (h : isBlank c = false) (cs : List Char) : expect [c] (c :: cs) = some cs := by
  simp [expect, skipBlanks_cons h]

/-- A closing bracket that does not follow is not read. -/
theorem expect_eq_none (h : isBlank c = false) (hne : closing ≠ c) (cs : List Char) : expect [closing] (c :: cs) = none := by
  simp [expect, skipBlanks_cons h, List.isPrefixOf, hne]

/-! ### Texts of parts -/

/-- A text that begins as a value or a name does. -/
def Opens (text : List Char) : Prop :=
  ∃ c cs, text = c :: cs ∧ isBlank c = false ∧ c ≠ ']' ∧ c ≠ '\x7d'

/-- A text that a reader reads as `x`, unless it is a number that goes on behind it. -/
structure Spells (part : Reader α) (text : List Char) (x : α) : Prop where
  opens : Opens text
  read : ∀ rest, Numeral.Stops rest → part (text ++ rest) = some (x, rest)

theorem stops_cons (h : c.isDigit = false ∧ c ≠ '.' ∧ c ≠ 'e' ∧ c ≠ 'E') : Numeral.Stops (c :: cs) :=
  fun _ hd => Option.some.inj hd ▸ h

theorem isBlank_closing (hc : closing = ']' ∨ closing = '\x7d') : isBlank closing = false := by
  rcases hc with rfl | rfl <;> rfl

theorem stops_back (hback : Blanks back) (hc : closing = ']' ∨ closing = '\x7d') :
    Numeral.Stops (back ++ closing :: rest) := by
  cases back with
  | nil => rcases hc with rfl | rfl <;> exact stops_cons (by decide)
  | cons c back =>
    rcases isBlank_iff.mp (hback c List.mem_cons_self) with rfl | rfl | rfl | rfl
    all_goals exact stops_cons (by decide)

theorem commaSeparated_cons (text : List Char) (texts : List (List Char)) :
    commaSeparated (text :: texts) = text ++ texts.flatMap (',' :: ·) := by
  induction texts generalizing text with
  | nil => exact (List.append_nil text).symm
  | cons next texts ih =>
    rw [commaSeparated, ih, List.flatMap_cons]
    · rfl
    · exact List.cons_ne_nil _ _

/-! ### Containers -/

/-- The texts of the parts of a container behind the first one, with their commas. -/
def followers (pad : List Char) (texts : List (List Char)) : List Char := texts.flatMap fun text => ',' :: (pad ++ text)

theorem commaSeparated_map_cons (pad text : List Char) (texts : List (List Char)) :
    commaSeparated ((text :: texts).map (pad ++ ·)) = pad ++ (text ++ followers pad texts) := by
  rw [List.map_cons, commaSeparated_cons, List.flatMap_map, List.append_assoc]
  rfl

/-- Each part takes a character at least. -/
theorem length_le_followers (pad : List Char) (texts : List (List Char)) : texts.length ≤ (followers pad texts).length := by
  induction texts with
  | nil => exact Nat.zero_le _
  | cons text texts ih =>
    rw [followers, List.flatMap_cons, List.length_append, ← followers, List.length_cons, List.length_cons]
    omega

section
variable (hback : Blanks back) (hc : closing = ']' ∨ closing = '\x7d')
include hback hc

theorem stops_followers (pad rest : List Char) (texts : List (List Char)) :
    Numeral.Stops (followers pad texts ++ (back ++ closing :: rest)) := by
  cases texts with
  | nil => exact stops_back hback hc
  | cons => exact stops_cons (by decide)

variable (hparts : List.Forall₂ (Spells part) texts xs) (hskip : ∀ cs, part (pad ++ cs) = part cs)
include hparts hskip

/-- The parts behind the first one are read in as many rounds. -/
theorem readRest_append (rest : List Char) (hfuel : texts.length < fuel) :
    readRest part closing fuel (followers pad texts ++ (back ++ closing :: rest)) = some (xs, rest) := by
  have hcomma : ',' ≠ closing := by rcases hc with rfl | rfl <;> decide
  induction hparts generalizing fuel with
  | nil =>
    obtain _ | fuel := fuel
    · cases hfuel
    · simp [followers, readRest, hback.skipBlanks, skipBlanks_cons (isBlank_closing hc)]
  | @cons text x texts xs hpart hparts ih =>
    obtain _ | fuel := fuel
    · cases hfuel
    · have hrest := ih (Nat.lt_of_succ_lt_succ hfuel)
      have hfirst := hpart.read _ (stops_followers hback hc pad rest texts)
      have happend : followers pad (text :: texts) = ',' :: (pad ++ (text ++ followers pad texts)) := by
        rw [followers, List.flatMap_cons, List.cons_append, List.append_assoc]
        rfl
      rw [happend, List.cons_append, readRest, skipBlanks_cons rfl]
      simp only [if_neg hcomma, List.append_assoc, hskip, hfirst, hrest, if_true, Option.bind_eq_bind, Option.bind_some]
      rfl

/-- All parts are read, behind the opening bracket. -/
theorem readParts_append (hpad : Blanks pad) (rest : List Char) :
    readParts part closing (commaSeparated (texts.map (pad ++ ·)) ++ (back ++ closing :: rest)) = some (xs, rest) := by
  cases hparts with
  | nil => simp [commaSeparated, readParts, expect_blanks hback, expect_cons (isBlank_closing hc)]
  | @cons text x texts xs hpart hparts =>
    have hfirst := hpart.read _ (stops_followers hback hc pad rest texts)
    have hfuel : texts.length < (followers pad texts ++ (back ++ closing :: rest)).length + 1 := by
      have hlength := length_le_followers pad texts
      rw [List.length_append]
      omega
    have hrest := readRest_append hback hc hparts hskip rest hfuel
    have hopen : expect [closing] (pad ++ (text ++ (followers pad texts ++ (back ++ closing :: rest)))) = none := by
      obtain ⟨d, cs, rfl, hd, hbracket, hbrace⟩ := hpart.opens
      rw [expect_blanks hpad]
      exact expect_eq_none hd (by rcases hc with rfl | rfl <;> exact Ne.symm ‹_›) _
    simp only [commaSeparated_map_cons, List.append_assoc, readParts, hopen, hskip, hfirst, hrest, Option.bind_eq_bind,
      Option.bind_some]
    rfl

end

/-! ### Values -/

theorem readValue_blanks (hpad : Blanks pad) (levels : Nat) (cs : List Char) :
    readValue levels (pad ++ cs) = readValue levels cs := by
  cases levels <;> simp only [readValue, hpad.skipBlanks]

theorem readField_blanks (hpad : Blanks pad) (value : Reader Json) (cs : List Char) :
    readField value (pad ++ cs) = readField value cs := by
  simp only [readField, expect_blanks hpad]

/-- A value without brackets is read in the same way at every level. -/
theorem readValue_eq_readScalar (h : isBlank c = false) (hbracket : c ≠ '[') (hbrace : c ≠ '\x7b') :
    readValue levels (c :: cs) = readScalar (c :: cs) := by
  cases levels with
  | zero => simp only [readValue, skipBlanks_cons h]
  | succ levels =>
    simp only [readValue, skipBlanks_cons h]
    split
    · rename_i heq
      exact absurd (List.cons.inj heq).1 hbracket
    · rename_i heq
      exact absurd (List.cons.inj heq).1 hbrace
    · rfl

theorem spells_null : Spells (readValue levels) (compact null) null :=
  ⟨⟨'n', _, rfl, by decide⟩, fun _ _ => readValue_eq_readScalar (by decide) (by decide) (by decide)⟩

theorem spells_bool (b : Bool) : Spells (readValue levels) (compact (bool b)) (bool b) := by
  cases b with
  | true => exact ⟨⟨'t', _, rfl, by decide⟩, fun _ _ => readValue_eq_readScalar (by decide) (by decide) (by decide)⟩
  | false => exact ⟨⟨'f', _, rfl, by decide⟩, fun _ _ => readValue_eq_readScalar (by decide) (by decide) (by decide)⟩

theorem spells_str (s : String) : Spells (readValue levels) (compact (str s)) (str s) := by
  refine ⟨⟨'"', _, rfl, by decide⟩, fun rest _ => ?_⟩
  change readValue levels (Quoted.encode s.toList ++ rest) = _
  rw [Quoted.encode_append, readValue_eq_readScalar (by decide) (by decide) (by decide)]
  simp [readScalar, Quoted.decode_flatMap]

/-- The text of a number begins with its sign or a digit. -/
theorem text_eq_cons (h : n.WellFormed) : ∃ c cs, n.text = c :: cs ∧ (c == '-' || c.isDigit) = true := by
  obtain ⟨c, cs, hwhole⟩ := List.exists_cons_of_ne_nil h.isRun.1
  have hdigit : c.isDigit = true := List.all_eq_true.mp h.isRun.2 c (by simp [hwhole])
  cases hn : n.negative with
  | true => exact ⟨'-', _, by rw [Numeral.text, hn]; rfl, rfl⟩
  | false => exact ⟨c, _, by rw [Numeral.text, hn, hwhole]; rfl, by simp [hdigit]⟩

theorem spells_number (h : n.WellFormed) : Spells (readValue levels) (compact (number n)) (number n) := by
  obtain ⟨c, cs, htext, hc⟩ := text_eq_cons h
  have hne : ∀ d : Char, (d == '-' || d.isDigit) = false → c ≠ d := by
    rintro d hd rfl
    rw [hc] at hd
    cases hd
  have hblank : isBlank c = false := by simp [isBlank, hne]
  refine ⟨⟨c, cs, htext, hblank, hne _ rfl, hne _ rfl⟩, fun rest hrest => ?_⟩
  have hread := Numeral.read_append h hrest
  change readValue levels (n.text ++ rest) = _
  rw [htext, List.cons_append, readValue_eq_readScalar hblank (hne _ rfl) (hne _ rfl), readScalar]
  · rw [← List.cons_append, ← htext, hread]
    rfl
  all_goals simp [hne]

theorem spells_field {name : String} (hpad : Blanks pad) (h : Spells (readValue levels) text j) :
    Spells (readField (readValue levels)) (Quoted.encode name.toList ++ ':' :: (pad ++ text)) (name, j) := by
  refine ⟨⟨'"', _, rfl, by decide⟩, fun rest hrest => ?_⟩
  have hvalue : readValue levels (pad ++ (text ++ rest)) = some (j, rest) := by rw [readValue_blanks hpad, h.read rest hrest]
  simp only [readField, List.append_assoc, Quoted.encode_append, List.cons_append, expect_cons (c := '"') rfl,
    Quoted.decode_flatMap, expect_cons (c := ':') rfl, hvalue, Option.bind_eq_bind, Option.bind_some]
  simp

theorem spells_array (hpad : Blanks pad) (hback : Blanks back)
    (h : List.Forall₂ (Spells (readValue levels)) texts items) :
    Spells (readValue (levels + 1)) ('[' :: (commaSeparated (texts.map (pad ++ ·)) ++ (back ++ [']']))) (array items) := by
  refine ⟨⟨'[', _, rfl, by decide⟩, fun rest hrest => ?_⟩
  have hparts := readParts_append hback (Or.inl rfl) h (readValue_blanks hpad levels) hpad rest
  simp [readValue, skipBlanks_cons (c := '[') rfl, hparts]

theorem spells_object (hpad : Blanks pad) (hback : Blanks back) (hsorted : fields.Sorted)
    (h : List.Forall₂ (Spells (readField (readValue levels))) texts fields) :
    Spells (readValue (levels + 1)) ('\x7b' :: (commaSeparated (texts.map (pad ++ ·)) ++ (back ++ ['\x7d'])))
      (object fields) := by
  refine ⟨⟨'\x7b', _, rfl, by decide⟩, fun rest hrest => ?_⟩
  have hparts := readParts_append hback (Or.inr rfl) h (readField_blanks hpad _) hpad rest
  simp [readValue, skipBlanks_cons (c := '\x7b') rfl, hparts, Fields.ofList_of_sorted hsorted]

/-! ### Trees -/

/-- A tree that is nested at most this many levels deep, with its fields in order and its numbers as the format spells
    them. -/
inductive Readable : Nat → Json → Prop where
  | null {levels : Nat} : Readable levels null
  | bool {levels : Nat} (b : Bool) : Readable levels (bool b)
  | str {levels : Nat} (s : String) : Readable levels (str s)
  | number {levels : Nat} {n : Numeral} (h : n.WellFormed) : Readable levels (number n)
  | array {levels : Nat} {items : List Json} (h : ∀ j ∈ items, Readable levels j) : Readable (levels + 1) (array items)
  | object {levels : Nat} {fields : Fields Json} (hsorted : fields.Sorted) (h : ∀ p ∈ fields, Readable levels p.2) :
    Readable (levels + 1) (object fields)

theorem compactItems_eq (items : List Json) : compactItems items = items.map compact := by
  induction items with
  | nil => rfl
  | cons j items ih => rw [compactItems, ih, List.map_cons]

theorem compactFields_eq (fields : Fields Json) :
    compactFields fields = fields.map fun p => Quoted.encode p.1.toList ++ ':' :: compact p.2 := by
  induction fields with
  | nil => rfl
  | cons p fields ih => rw [compactFields, ih, List.map_cons]

theorem indentedItems_eq (depth : Nat) (items : List Json) : indentedItems depth items = items.map (indented depth) := by
  induction items with
  | nil => rfl
  | cons j items ih => rw [indentedItems, ih, List.map_cons]

theorem indentedFields_eq (depth : Nat) (fields : Fields Json) :
    indentedFields depth fields = fields.map fun p => Quoted.encode p.1.toList ++ ':' :: ' ' :: indented depth p.2 := by
  induction fields with
  | nil => rfl
  | cons p fields ih => rw [indentedFields, ih, List.map_cons]

/-- A container on lines of its own differs in blanks. -/
theorem block_eq (opening closing : Char) (depth : Nat) (texts : List (List Char)) : ∃ back, Blanks back ∧
    block opening closing depth texts =
      opening :: (commaSeparated (texts.map (lineBreak (depth + 1) ++ ·)) ++ (back ++ [closing])) := by
  cases texts with
  | nil => exact ⟨[], blanks_nil, rfl⟩
  | cons text texts => exact ⟨lineBreak depth, blanks_lineBreak depth, by simp [block]⟩

theorem Readable.spells_compact (h : Readable levels j) : Spells (readValue levels) j.compact j := by
  induction h with
  | null => exact spells_null
  | bool b => exact spells_bool b
  | str s => exact spells_str s
  | number h => exact spells_number h
  | @array levels items h ih =>
    have hparts : List.Forall₂ (Spells (readValue levels)) (compactItems items) items := by
      rw [compactItems_eq]
      exact List.forall₂_map_left_iff.mpr (List.forall₂_same.mpr ih)
    have harray := spells_array blanks_nil blanks_nil hparts
    rwa [List.map_id'' List.nil_append] at harray
  | @object levels fields hsorted h ih =>
    have hparts : List.Forall₂ (Spells (readField (readValue levels))) (compactFields fields) fields := by
      rw [compactFields_eq]
      exact List.forall₂_map_left_iff.mpr (List.forall₂_same.mpr fun p hp => spells_field blanks_nil (ih p hp))
    have hobject := spells_object blanks_nil blanks_nil hsorted hparts
    rwa [List.map_id'' List.nil_append] at hobject

theorem Readable.spells_indented (h : Readable levels j) (depth : Nat) :
    Spells (readValue levels) (j.indented depth) j := by
  induction h generalizing depth with
  | null => exact spells_null
  | bool b => exact spells_bool b
  | str s => exact spells_str s
  | number h => exact spells_number h
  | @array levels items h ih =>
    have hparts : List.Forall₂ (Spells (readValue levels)) (indentedItems (depth + 1) items) items := by
      rw [indentedItems_eq]
      exact List.forall₂_map_left_iff.mpr (List.forall₂_same.mpr fun j hj => ih j hj (depth + 1))
    obtain ⟨back, hback, hblock⟩ := block_eq '[' ']' depth (indentedItems (depth + 1) items)
    rw [indented, hblock]
    exact spells_array (blanks_lineBreak (depth + 1)) hback hparts
  | @object levels fields hsorted h ih =>
    have hparts : List.Forall₂ (Spells (readField (readValue levels))) (indentedFields (depth + 1) fields) fields := by
      rw [indentedFields_eq]
      exact List.forall₂_map_left_iff.mpr
        (List.forall₂_same.mpr fun p hp => spells_field blanks_space (ih p hp (depth + 1)))
    obtain ⟨back, hback, hblock⟩ := block_eq '\x7b' '\x7d' depth (indentedFields (depth + 1) fields)
    rw [indented, hblock]
    exact spells_object (blanks_lineBreak (depth + 1)) hback hsorted hparts

theorem Spells.ofChars? (h : Spells (readValue (maxNesting - 1)) text j) : Json.ofChars? text = some j := by
  have hread := h.read [] nofun
  rw [List.append_nil] at hread
  simp [Json.ofChars?, hread, skipBlanks]

/-- The compact form of a tree within the limit of nesting is read as that tree. -/
theorem ofChars?_compact (h : Readable (maxNesting - 1) j) : ofChars? j.compact = some j := h.spells_compact.ofChars?

/-- The indented form of a tree within the limit of nesting is read as that tree. -/
theorem ofChars?_indented (h : Readable (maxNesting - 1) j) : ofChars? (j.indented 0) = some j :=
  (h.spells_indented 0).ofChars?

end TreeQuery.Json
