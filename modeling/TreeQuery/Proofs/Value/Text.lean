import TreeQuery.Proofs.Document.Lookup
import TreeQuery.Proofs.Json.Roundtrip
import TreeQuery.Proofs.Number.Layout
import TreeQuery.Proofs.Value.Reading
import TreeQuery.Proofs.Value.Same

/-! # Values are read back from their texts

A value that is nested no deeper than JSON may be is read back from its compact and from its indented text
(`ofText_text`). What is read back (`written`) differs from the value in the digits and scales of decimals only, and
these denote the same numbers and are written in the same way. -/

namespace TreeQuery.Value

variable {v : Value} {items : List Value} {fields : Fields Value} {levels : Nat}

mutual

/-- How deep arrays and objects are nested in a value. -/
def depth : Value → Nat
  | array items => depthOfItems items + 1
  | object fields => depthOfFields fields + 1
  | _ => 0

def depthOfItems : List Value → Nat
  | [] => 0
  | v :: rest => max (depth v) (depthOfItems rest)

def depthOfFields : List (String × Value) → Nat
  | [] => 0
  | (_, v) :: rest => max (depth v) (depthOfFields rest)

end

/-- Whether the scale of every decimal in a value has 64 bits. -/
inductive Scaled : Value → Prop
  | null : Scaled null
  | bool (b : Bool) : Scaled (bool b)
  | int (i : Int) : Scaled (int i)
  | decimal {d : Decimal} (h : d.InRange) : Scaled (decimal d)
  | str (s : String) : Scaled (str s)
  | array {items : List Value} (h : ∀ v ∈ items, Scaled v) : Scaled (array items)
  | object {fields : List (String × Value)} (h : ∀ p ∈ fields, Scaled p.2) : Scaled (object fields)

mutual

/-- The value that the text of a value spells. -/
def written : Value → Value
  | decimal d => decimal d.written
  | array items => array (writtenItems items)
  | object fields => object (writtenFields fields)
  | v => v

def writtenItems : List Value → List Value
  | [] => []
  | v :: rest => written v :: writtenItems rest

def writtenFields : List (String × Value) → List (String × Value)
  | [] => []
  | (name, v) :: rest => (name, written v) :: writtenFields rest

end

/-! ### Scales -/

theorem ofNumeral_scaled {n : Numeral} (h : ofNumeral n = .ok v) : v.Scaled := by
  unfold ofNumeral at h
  split at h
  · cases h
    exact .int _
  · split at h
    · rename_i d hd
      cases h
      exact .decimal (Decimal.inRange_of_ofNumeral hd)
    · cases h

theorem ofJson_scaled {j : Json} (hj : j.Ordered) (h : ofJson j = .ok v) : v.Scaled := by
  induction hj generalizing v with
  | null =>
    cases h
    exact .null
  | bool b =>
    cases h
    exact .bool b
  | str s =>
    cases h
    exact .str s
  | number => exact ofNumeral_scaled h
  | array _ ih =>
    obtain ⟨vs, hvs, rfl⟩ := Outcome.map_ok_iff.mp h
    rw [ofJsonItems_eq_mapM] at hvs
    refine .array fun v hv => ?_
    obtain ⟨j, hj, hjv⟩ := Outcome.exists_of_mapM hvs hv
    exact ih j hj hjv
  | object _ _ ih =>
    obtain ⟨out, hout, rfl⟩ := Outcome.map_ok_iff.mp h
    rw [ofJsonFields_eq_mapM] at hout
    refine .object fun q hq => ?_
    obtain ⟨p, hp, hq⟩ := Outcome.exists_of_mapM hout hq
    obtain ⟨v, hv, rfl⟩ := Outcome.map_ok_iff.mp hq
    exact ih p hp hv

/-- All decimals read from a text have scales of 64 bits. -/
theorem ofText_scaled {text : String} (h : ofText text = .ok v) : v.Scaled := by
  unfold ofText at h
  split at h
  · rename_i hj
    exact ofJson_scaled (Json.ofText?_ordered hj) h
  · cases h

/-! ### The tree of JSON -/

theorem depthOfItems_le_iff : depthOfItems items ≤ levels ↔ ∀ v ∈ items, v.depth ≤ levels := by
  induction items with
  | nil => exact iff_of_true (Nat.zero_le _) nofun
  | cons v items ih => rw [depthOfItems, Nat.max_le, ih, List.forall_mem_cons]

theorem depthOfFields_le_iff : depthOfFields fields ≤ levels ↔ ∀ p ∈ fields, p.2.depth ≤ levels := by
  induction fields with
  | nil => exact iff_of_true (Nat.zero_le _) nofun
  | cons p fields ih => rw [depthOfFields, Nat.max_le, ih, List.forall_mem_cons]

theorem toJsonItems_eq (items : List Value) : toJsonItems items = items.map toJson := by
  induction items with
  | nil => rfl
  | cons v items ih => rw [toJsonItems, ih, List.map_cons]

theorem toJsonFields_eq (fields : Fields Value) : toJsonFields fields = fields.map fun p => (p.1, p.2.toJson) := by
  induction fields with
  | nil => rfl
  | cons p fields ih => rw [toJsonFields, ih, List.map_cons]

theorem serializeItems_eq {α : Type} (s : Json.Serializer α) (items : List Value) :
    serializeItems s items = items.map (serialize s) := by
  induction items with
  | nil => rfl
  | cons v items ih => rw [serializeItems, ih, List.map_cons]

theorem serializeFields_eq {α : Type} (s : Json.Serializer α) (fields : Fields Value) :
    serializeFields s fields = fields.map fun p => (p.1, p.2.serialize s) := by
  induction fields with
  | nil => rfl
  | cons p fields ih => rw [serializeFields, ih, List.map_cons]

/-- The compact text of a value is that of its tree of JSON. -/
theorem serialize_compact (v : Value) : v.serialize .compact = v.toJson.compact := by
  induction v using Value.induction with
  | null | int | decimal | str => rfl
  | bool b => cases b <;> rfl
  | array items ih =>
    have hitems : serializeItems .compact items = Json.compactItems (toJsonItems items) := by
      rw [serializeItems_eq, toJsonItems_eq, Json.compactItems_eq, List.map_map]
      exact List.map_congr_left ih
    rw [serialize, hitems]
    rfl
  | object fields ih =>
    have hfields : (serializeFields .compact fields).map (fun p => Quoted.encode p.1.toList ++ ':' :: p.2) =
        Json.compactFields (toJsonFields fields) := by
      rw [serializeFields_eq, toJsonFields_eq, Json.compactFields_eq, List.map_map, List.map_map]
      exact List.map_congr_left fun p hp => congrArg (Quoted.encode p.1.toList ++ ':' :: ·) (ih p hp)
    rw [serialize, toJson, Json.compact, ← hfields]
    rfl

/-- The indented text of a value is that of its tree of JSON. -/
theorem serialize_indented (v : Value) : v.serialize .indented = fun depth => v.toJson.indented depth := by
  induction v using Value.induction with
  | null | int | decimal | str => rfl
  | bool b => cases b <;> rfl
  | array items ih =>
    funext depth
    have hitems : (serializeItems .indented items).map (fun item => item (depth + 1)) =
        Json.indentedItems (depth + 1) (toJsonItems items) := by
      rw [serializeItems_eq, toJsonItems_eq, Json.indentedItems_eq, List.map_map, List.map_map]
      exact List.map_congr_left fun v hv => congrFun (ih v hv) (depth + 1)
    rw [serialize, toJson, Json.indented, ← hitems]
    rfl
  | object fields ih =>
    funext depth
    have hfields : (serializeFields .indented fields).map
        (fun p => Quoted.encode p.1.toList ++ ':' :: ' ' :: p.2 (depth + 1)) =
          Json.indentedFields (depth + 1) (toJsonFields fields) := by
      rw [serializeFields_eq, toJsonFields_eq, Json.indentedFields_eq, List.map_map, List.map_map]
      exact List.map_congr_left fun p hp =>
        congrArg (Quoted.encode p.1.toList ++ ':' :: ' ' :: ·) (congrFun (ih p hp) (depth + 1))
    rw [serialize, toJson, Json.indented, ← hfields]
    rfl

/-- The tree of JSON of a value is one that can be read. -/
theorem readable_toJson (hv : v.Ordered) (hdepth : v.depth ≤ levels) : Json.Readable levels v.toJson := by
  induction v using Value.induction generalizing levels with
  | null => exact .null
  | bool b => exact .bool b
  | int i => exact .number (Numeral.ofInt_wellFormed i)
  | decimal d => exact .number d.numeral_wellFormed
  | str s => exact .str s
  | array items ih =>
    obtain _ | levels := levels
    · exact absurd hdepth (Nat.not_succ_le_zero _)
    have hdepths := depthOfItems_le_iff.mp (Nat.le_of_succ_le_succ hdepth)
    rw [toJson, toJsonItems_eq]
    refine .array (List.forall_mem_map.mpr fun v hmem => ?_)
    exact ih v hmem (ordered_array_iff.mp hv v hmem) (hdepths v hmem)
  | object fields ih =>
    obtain _ | levels := levels
    · exact absurd hdepth (Nat.not_succ_le_zero _)
    obtain ⟨hsorted, hordered⟩ := ordered_object_iff.mp hv
    have hdepths := depthOfFields_le_iff.mp (Nat.le_of_succ_le_succ hdepth)
    rw [toJson, toJsonFields_eq]
    refine .object (List.pairwise_map.mpr hsorted) (List.forall_mem_map.mpr fun p hmem => ?_)
    exact ih p hmem (hordered p hmem) (hdepths p hmem)

/-! ### What is read back -/

theorem wholeValue_ofInt (i : Int) : (Numeral.ofInt i).wholeValue = i := by
  simp only [Numeral.wholeValue, Numeral.ofInt, Digits.value_ofNat, decide_eq_true_eq]
  split <;> omega

theorem writtenItems_eq (items : List Value) : writtenItems items = items.map written := by
  induction items with
  | nil => rfl
  | cons v items ih => rw [writtenItems, ih, List.map_cons]

theorem writtenFields_eq (fields : Fields Value) : writtenFields fields = fields.map fun p => (p.1, p.2.written) := by
  induction fields with
  | nil => rfl
  | cons p fields ih => rw [writtenFields, ih, List.map_cons]

theorem ofJson_toJson (hs : v.Scaled) : ofJson v.toJson = .ok v.written := by
  induction hs with
  | null | bool | str => rfl
  | int i => exact congrArg (fun i => Except.ok (int i)) (wholeValue_ofInt i)
  | @decimal d h =>
    rw [toJson, ofJson, ofNumeral, d.laid_numeral.isInteger, d.ofNumeral_numeral h]
    rfl
  | @array items h ih =>
    have hitems : ofJsonItems (toJsonItems items) = .ok (writtenItems items) := by
      clear h
      induction items with
      | nil => rfl
      | cons v items ihs =>
        rw [List.forall_mem_cons] at ih
        rw [toJsonItems, ofJsonItems, ih.1, ihs ih.2]
        rfl
    rw [toJson, ofJson, hitems]
    rfl
  | @object fields h ih =>
    have hfields : ofJsonFields (toJsonFields fields) = .ok (writtenFields fields) := by
      clear h
      induction fields with
      | nil => rfl
      | cons p fields ihs =>
        rw [List.forall_mem_cons] at ih
        rw [toJsonFields, ofJsonFields, ih.1, ihs ih.2]
        rfl
    rw [toJson, ofJson, hfields]
    rfl

theorem same_written (v : Value) : v.written.same v = true := by
  induction v using Value.induction with
  | null | bool | int | str => exact same_refl _
  | decimal d => exact Decimal.same_iff.mpr d.value_written
  | array items ih =>
    refine array_same_iff.mpr ⟨items, rfl, ?_⟩
    induction items with
    | nil => rfl
    | cons v items ihs =>
      rw [List.forall_mem_cons] at ih
      exact cons_sameItems_iff.mpr ⟨v, items, rfl, ih.1, ihs ih.2⟩
  | object fields ih =>
    refine object_same_iff.mpr ⟨fields, rfl, ?_⟩
    induction fields with
    | nil => rfl
    | cons p fields ihs =>
      rw [List.forall_mem_cons] at ih
      exact cons_sameFields_iff.mpr ⟨p.2, fields, rfl, ih.1, ihs ih.2⟩

theorem toJson_written (v : Value) : v.written.toJson = v.toJson := by
  induction v using Value.induction with
  | null | bool | int | str => rfl
  | decimal d => exact congrArg Json.number d.numeral_written
  | array items ih =>
    have hitems : toJsonItems (writtenItems items) = toJsonItems items := by
      rw [writtenItems_eq, toJsonItems_eq, toJsonItems_eq, List.map_map]
      exact List.map_congr_left ih
    exact congrArg Json.array hitems
  | object fields ih =>
    have hfields : toJsonFields (writtenFields fields) = toJsonFields fields := by
      rw [writtenFields_eq, toJsonFields_eq, toJsonFields_eq, List.map_map]
      exact List.map_congr_left fun p hp => congrArg (Prod.mk p.1) (ih p hp)
    exact congrArg Json.object hfields

theorem get?_writtenFields (name : String) (fields : Fields Value) :
    Fields.get? name (writtenFields fields) = (Fields.get? name fields).map written := by
  induction fields with
  | nil => rfl
  | cons p fields ih =>
    rw [writtenFields, Fields.get?, Fields.get?, ih]
    split <;> rfl

theorem child?_written (k : Key) (v : Value) : v.written.child? k = (v.child? k).map written := by
  cases v with
  | object fields =>
    cases k with
    | name name => exact get?_writtenFields name fields
    | current | index | append => rfl
  | array items =>
    cases k with
    | index i =>
      rw [written, child?_array, child?_array, writtenItems_eq]
      exact List.getElem?_map
    | current | name | append => rfl
  | null | bool | int | decimal | str => cases k <;> rfl

/-- What is read back has the same places, and the same value at each of them up to decimals. -/
theorem lookup_written (keys : List Key) (v : Value) : v.written.lookup keys = (v.lookup keys).map written := by
  induction keys generalizing v with
  | nil => rfl
  | cons k keys ih =>
    rw [lookup_cons, lookup_cons, child?_written]
    cases v.child? k with
    | none => rfl
    | some w => exact ih w

/-- A value nested fewer levels deep than JSON may be is read back from its compact and from its indented text, and from
    its tree of JSON. What is read back is equal to it, has values of the same types at the same places, and has the
    same text. -/
theorem ofText_text (hv : v.Ordered) (hs : v.Scaled) (hdepth : v.depth < Json.maxNesting) :
    ∃ w, ofText v.text = .ok w ∧ ofText v.pretty = .ok w ∧ ofJson v.toJson = .ok w ∧ w.same v = true ∧
      (∀ keys, (w.lookup keys).map tag = (v.lookup keys).map tag) ∧ w.text = v.text ∧
      String.ofList v.toJson.compact = v.text := by
  have hreadable := readable_toJson hv (Nat.le_pred_of_lt hdepth)
  have hread := ofJson_toJson hs
  refine ⟨v.written, ?_, ?_, hread, v.same_written, fun keys => ?_, ?_, ?_⟩
  · rw [ofText, text, serialize_compact, Json.ofText?, String.toList_ofList, Json.ofChars?_compact hreadable]
    exact hread
  · rw [ofText, pretty, serialize_indented, Json.ofText?, String.toList_ofList, Json.ofChars?_indented hreadable]
    exact hread
  · rw [lookup_written, Option.map_map]
    exact congrArg (Option.map · _) (funext fun w => same_tag w.same_written)
  · rw [text, serialize_compact, toJson_written, text, serialize_compact]
  · rw [text, serialize_compact]

/-- A decimal without digits behind the point is read back as a decimal, behind a name with an escape in it. -/
theorem ofText_text_escaped :
    ∃ w, ofText "\x7b\"a\\n\":[-1,20.0,[]]\x7d" = .ok w ∧
      ofText "\x7b\n  \"a\\n\": [\n    -1,\n    20.0,\n    []\n  ]\n\x7d" = .ok w ∧
      w.same (object [("a\n", array [int (-1), decimal ⟨2, -1⟩, array []])]) = true := by
  have hordered : (object [("a\n", array [int (-1), decimal ⟨2, -1⟩, array []])]).Ordered :=
    ordered_empty.insert (v := array [int (-1), decimal ⟨2, -1⟩, array []]) ⟨trivial, trivial, trivial, trivial⟩ "a\n"
  have hscaled : (object [("a\n", array [int (-1), decimal ⟨2, -1⟩, array []])]).Scaled := by
    refine .object (List.forall_mem_singleton.mpr (.array ?_))
    simp only [List.forall_mem_cons]
    exact ⟨.int _, .decimal ⟨by decide, by decide⟩, .array nofun, nofun⟩
  obtain ⟨w, htext, hpretty, -, hsame, -⟩ := ofText_text hordered hscaled (by decide)
  exact ⟨w, htext, hpretty, hsame⟩

end TreeQuery.Value
