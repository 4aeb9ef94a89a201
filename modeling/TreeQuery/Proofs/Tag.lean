import TreeQuery.Tag.Parse

/-! # Each tag has one text

The text of a valid tag is the name of its kind with the suffixes of its modifiers behind it. A text is read from its
end: one `?` is taken off, then one `[]`, and the rest has to be a name. No name ends in a suffix and no two kinds have
the same name, so what is read is the tag whose text this is, and every other text is refused (`parse_exact`). -/

namespace TreeQuery.Tag

variable {suffix front : List Char} {p : Tag × List Char} {t : Tag} {s : String}

/-! ### Suffixes -/

theorem dropSuffix_append (suffix front : List Char) : dropSuffix suffix (front ++ suffix) = (true, front) := by
  have hsuffix : suffix.isSuffixOf (front ++ suffix) = true := List.isSuffixOf_iff_suffix.mpr (List.suffix_append _ _)
  rw [dropSuffix, if_pos hsuffix, List.length_append, Nat.add_sub_cancel, List.take_left]

/-- A suffix that may be there is taken off a text that does not end in it by itself. -/
theorem dropSuffix_ite (h : dropSuffix suffix front = (false, front)) (present : Bool) :
    dropSuffix suffix (front ++ if present then suffix else []) = (present, front) := by
  cases present with
  | false => rw [if_neg Bool.false_ne_true, List.append_nil, h]
  | true => rw [if_pos rfl, dropSuffix_append]

/-- What is taken off a text stood at its end. -/
theorem dropSuffix_spec (suffix text : List Char) :
    text = (dropSuffix suffix text).2 ++ if (dropSuffix suffix text).1 then suffix else [] := by
  unfold dropSuffix
  split
  · rename_i hsuffix
    obtain ⟨front, rfl⟩ := List.isSuffixOf_iff_suffix.mp hsuffix
    rw [if_pos rfl, List.length_append, Nat.add_sub_cancel, List.take_left]
  · rw [if_neg Bool.false_ne_true, List.append_nil]

/-! ### Kinds and their names -/

/-- No name ends in a suffix, and none does so with `[]` behind it. -/
theorem dropSuffix_name (hp : p ∈ names) (array : Bool) :
    dropSuffix ['[', ']'] p.2 = (false, p.2) ∧
      dropSuffix ['?'] (p.2 ++ if array then ['[', ']'] else []) =
        (false, p.2 ++ if array then ['[', ']'] else []) := by
  have hnames : ∀ p ∈ names, dropSuffix ['[', ']'] p.2 = (false, p.2) ∧ dropSuffix ['?'] p.2 = (false, p.2) ∧
      dropSuffix ['?'] (p.2 ++ ['[', ']']) = (false, p.2 ++ ['[', ']']) := by decide
  obtain ⟨hplain, hname, harray⟩ := hnames p hp
  cases array with
  | false => exact ⟨hplain, by rw [if_neg Bool.false_ne_true, List.append_nil, hname]⟩
  | true => exact ⟨hplain, harray⟩

/-- A kind is found by its name. -/
theorem find?_name (hp : p ∈ names) : names.find? (·.2 == p.2) = some p := by
  have hnames : ∀ p ∈ names, names.find? (·.2 == p.2) = some p := by decide
  exact hnames p hp

/-- A tag of some kind has the name of that kind and no other. -/
theorem kindName_eq (hp : p ∈ names) (h : t.primary = p.1) : t.kindName = p.2 := by
  have hnames : ∀ p ∈ names, names.find? (·.1 == p.1) = some p := by decide
  rw [kindName, h, hnames p hp]
  rfl

/-- The valid tags are those of some kind. -/
theorem isValid_iff : t.isValid = true ↔ ∃ p ∈ names, t.primary = p.1 := by
  obtain ⟨nil, array, object, int, float, bool, str⟩ := t
  cases object <;> cases int <;> cases float <;> cases bool <;> cases str <;>
    simp [isValid, primary, names, objectTag, intTag, floatTag, boolTag, strTag]

/-! ### Spellings -/

/-- A name with the suffixes of modifiers behind it. -/
def spelling (name : List Char) (array nil : Bool) : List Char :=
  (name ++ if array then ['[', ']'] else []) ++ if nil then ['?'] else []

theorem text_eq (hp : p ∈ names) (h : t.primary = p.1) : t.text = String.ofList (spelling p.2 t.array t.nil) := by
  rw [text, if_pos (isValid_iff.mpr ⟨p, hp, h⟩), kindName_eq hp h]
  rfl

theorem ofText?_spelling (hp : p ∈ names) (array nil : Bool) :
    ofText? (String.ofList (spelling p.2 array nil)) = some { p.1 with nil := nil, array := array } := by
  obtain ⟨hplain, harray⟩ := dropSuffix_name hp array
  rw [ofText?, String.toList_ofList, spelling, dropSuffix_ite harray]
  dsimp only
  rw [dropSuffix_ite hplain]
  dsimp only
  rw [find?_name hp, Option.map_some]

/-- What is read as a tag is a name with the suffixes of the modifiers of the tag. -/
theorem exists_spelling (h : ofText? s = some t) :
    ∃ p ∈ names, t = { p.1 with nil := t.nil, array := t.array } ∧ s = String.ofList (spelling p.2 t.array t.nil) := by
  have hnil := dropSuffix_spec ['?'] s.toList
  rcases hd : dropSuffix ['?'] s.toList with ⟨nil, rest⟩
  have harray := dropSuffix_spec ['[', ']'] rest
  rcases hr : dropSuffix ['[', ']'] rest with ⟨array, name⟩
  rw [hd] at hnil
  rw [hr] at harray
  simp only [ofText?, hd, hr] at h
  obtain ⟨p, hfind, rfl⟩ := Option.map_eq_some_iff.mp h
  have hname := List.find?_some hfind
  simp only [beq_iff_eq] at hname
  refine ⟨p, List.mem_of_find?_eq_some hfind, rfl, ?_⟩
  dsimp only at hnil harray ⊢
  rw [spelling, hname, ← harray, ← hnil, String.ofList_toList]

theorem ofText?_eq_some_iff : ofText? s = some t ↔ t.isValid = true ∧ t.text = s := by
  constructor
  · intro h
    obtain ⟨p, hp, ht, rfl⟩ := exists_spelling h
    have hkind : t.primary = p.1 := by
      have hnames : ∀ p ∈ names, p.1.primary = p.1 := by decide
      rw [ht]
      exact hnames p hp
    exact ⟨isValid_iff.mpr ⟨p, hp, hkind⟩, text_eq hp hkind⟩
  · rintro ⟨hvalid, rfl⟩
    obtain ⟨p, hp, hkind⟩ := isValid_iff.mp hvalid
    rw [text_eq hp hkind, ofText?_spelling hp, ← hkind]
    rfl

/-! ### Reading -/

theorem parse_ok_iff : parse s = .ok t ↔ ofText? s = some t := by
  unfold parse
  cases ofText? s <;> simp

theorem parse_error_iff {e : TagError} : parse s = .error e ↔ e = .unparseable s ∧ ofText? s = none := by
  unfold parse
  cases ofText? s <;> simp [eq_comm]

theorem ofText?_eq_none_iff : ofText? s = none ↔ ∀ t : Tag, t.isValid = true → t.text ≠ s := by
  rw [Option.eq_none_iff_forall_not_mem]
  refine forall_congr' fun t => ?_
  rw [Option.mem_def, ofText?_eq_some_iff, not_and]

/-- The tag that stands for an error is read from no text. -/
theorem ofText_eq_invalid_iff : ofText s = invalid ↔ ofText? s = none := by
  unfold ofText
  cases h : ofText? s with
  | none => exact iff_of_true rfl rfl
  | some t =>
    refine iff_of_false (fun ht => ?_) (Option.some_ne_none t)
    obtain rfl : t = invalid := ht
    cases (ofText?_eq_some_iff.mp h).1

/-- A text is read as a tag exactly if the tag is valid and this is its text. So no tag is read from two texts. Every
    text that is not that of a valid tag is refused with the text itself, and stands for the error. -/
theorem parse_exact (s : String) :
    (∀ t, parse s = .ok t ↔ t.isValid = true ∧ t.text = s) ∧
      (∀ other t, parse s = .ok t → parse other = .ok t → s = other) ∧
      (∀ e, parse s = .error e ↔ e = .unparseable s ∧ ∀ t : Tag, t.isValid = true → t.text ≠ s) ∧
      (ofText s = invalid ↔ ∀ t : Tag, t.isValid = true → t.text ≠ s) ∧ ∀ t, parse s = .ok t → ofText s = t := by
  refine ⟨fun t => parse_ok_iff.trans ofText?_eq_some_iff, fun other t hs hother => ?_, fun e => ?_, ?_, fun t h => ?_⟩
  · obtain ⟨-, rfl⟩ := ofText?_eq_some_iff.mp (parse_ok_iff.mp hs)
    exact (ofText?_eq_some_iff.mp (parse_ok_iff.mp hother)).2
  · rw [parse_error_iff, ofText?_eq_none_iff]
  · rw [ofText_eq_invalid_iff, ofText?_eq_none_iff]
  · rw [ofText, parse_ok_iff.mp h, Option.getD_some]

/-- Neither swapped nor repeated suffixes are read, nor the text of the error. -/
example : ["str?[]", "int??", "int[][]", "bool[", "?", "invalid"].map ofText? = List.replicate 6 none := by decide

end TreeQuery.Tag
