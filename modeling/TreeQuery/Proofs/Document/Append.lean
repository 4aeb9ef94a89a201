import TreeQuery.Proofs.Document.Set

/-! # Appending

The first `+` of a path adds one element behind those of the array that the segments before it lead to, and what the
segments behind it write is in that element (`concat_of_assign`). An array that is not there yet has no elements, so any
further `+` stands for index zero, and the value is read back with these indices in the places of the `+`. Where the `+`
is the last segment, one write after another adds one value after another (`concat_of_sets`). -/

namespace TreeQuery

variable {σ : Type} {Inner : List Char → σ → Prop} {key : Body σ → Except ReadError Key} {before behind : Path σ}
  {s : Segment σ} {v v' new d d₂ : Value} {ks : List Key} {make overwrite : Bool} {place : String} {n : Nat} {q : Query}

/-! ### Elements at a place -/

/-- What is at a place has these elements: an array has its own, and null or nothing has none. -/
inductive Value.Elements : Option Value → List Value → Prop
  | array (items : List Value) : Elements (some (array items)) items
  | null : Elements (some null) []
  | missing : Elements none []

namespace Value

theorem elements_of_writableItems {items : List Value} (h : writableItems true v = .ok items) :
    Elements (some v) items := by
  rcases writableItems_cases h with rfl | ⟨rfl, rfl⟩
  · exact .array items
  · exact .null

/-- A container just created has no elements, as if nothing were there. -/
theorem Entered.elements {found : Option Value} {part : Value} {items : List Value} (h : Entered found part)
    (he : Elements (part.lookup ks) items) : Elements (found.bind (Value.lookup ks)) items := by
  rcases h with rfl | ⟨rfl, k, rfl⟩
  · exact he
  cases ks with
  | nil =>
    cases k with
    | name => cases he
    | current | index | append =>
      cases he
      exact .missing
  | cons x ks =>
    rw [lookup_cons, child?_blankFor] at he
    exact he

end Value

/-! ### The first `+` of a path -/

/-- The first `+` adds an element, and the segments behind it write into that element. -/
theorem concat_of_assign (hbefore : ∀ t ∈ before, key t.body ≠ .ok .append) (hs : key s.body = .ok .append)
    (h : assign key overwrite place new make (before ++ s :: behind) v = .ok v') :
    ∃ items x, Value.Elements (v.lookup (Path.keys key before)) items ∧
      v'.lookup (Path.keys key before) = some (.array (items ++ [x])) ∧
      x.lookup (Key.resolve none (Path.keys key behind)) = some new := by
  induction before generalizing make v v' with
  | nil =>
    obtain ⟨k, hk, hstep⟩ := assign_cons h
    obtain rfl := Except.ok.inj (hs.symm.trans hk)
    obtain ⟨-, f, part, c, hslot, hpart, hrest, rfl, -⟩ := hstep.resolve_left fun hcurrent => nomatch hcurrent.1
    cases hslot with
    | @append items hitems =>
      rw [Value.child?_within_append] at hpart
      refine ⟨items, c, Value.elements_of_writableItems hitems, rfl, ?_⟩
      rw [hpart.resolve]
      exact lookup_assign hrest
  | cons t before ih =>
    obtain ⟨ht, hbefore⟩ := List.forall_mem_cons.mp hbefore
    obtain ⟨k, hk, ⟨rfl, hrest⟩ | ⟨hc, f, part, c, hslot, hpart, hrest, rfl, -⟩⟩ := assign_cons h
    · rw [Path.keys_cons_current hk]
      exact ih hbefore hrest
    · have ha : k ≠ .append := fun ha => ht (ha ▸ hk)
      have hreplaced := (hslot.replaces c).part
      rw [Key.within_of_ne ha] at hpart hreplaced
      obtain ⟨items, x, helements, harray, hx⟩ := ih hbefore hrest
      rw [Path.keys_cons hk hc, Value.lookup_cons, Value.lookup_cons, hreplaced]
      exact ⟨items, x, hpart.elements helements, harray, hx⟩

/-! ### Indices in the places of `+` -/

/-- The segment with an index in the place of its `+`. -/
def Segment.indexed (i : Nat) (s : Segment σ) : Segment σ :=
  if s.commands.append then { s with commands := s.commands.erase .append, body := .index (Digits.ofNat i) } else s

theorem Segment.indexed_of_append (hs : s.commands.append = true) :
    s.indexed n = { s with commands := s.commands.erase .append, body := .index (Digits.ofNat n) } := if_pos hs

theorem Segment.indexed_of_not_append (hs : s.commands.append = false) : s.indexed n = s :=
  if_neg (Bool.not_eq_true _ ▸ hs)

theorem Segment.marker_indexed (n : Nat) (s : Segment σ) : (s.indexed n).marker = s.marker := by
  unfold indexed
  split <;> rfl

theorem Segment.commands_indexed (n : Nat) (s : Segment σ) : (s.indexed n).commands = s.commands.erase .append := by
  unfold indexed
  split
  · rfl
  · rename_i ha
    exact congrArg (fun a => { s.commands with append := a }) (Bool.not_eq_true _ ▸ ha)

theorem Path.moves_indexed (n : Nat) (p : Path σ) : Path.moves (p.map (Segment.indexed n)) = Path.moves p := by
  rw [Path.moves, List.any_map]
  exact congrArg (List.any p) (funext (Segment.marker_indexed n))

theorem Segment.Lawful.indexed (h : s.Lawful Inner) (hn : n < 2 ^ 32) : (s.indexed n).Lawful Inner := by
  cases ha : s.commands.append with
  | false =>
    rw [Segment.indexed_of_not_append ha]
    exact h
  | true =>
    rw [Segment.indexed_of_append ha]
    refine ⟨⟨Digits.ofNat_ne_nil n, Digits.isDigits_ofNat n, ?_⟩, ⟨nofun, iff_of_false nofun nofun⟩,
      h.compatible.mono fun c => Commands.has_of_has_erase, h.marker⟩
    rwa [Digits.value_ofNat]

theorem Path.map_indexed {p : Path σ} (h : ∀ t ∈ p, t.commands.append = false) : p.map (Segment.indexed n) = p := by
  rw [List.map_congr_left fun t ht => Segment.indexed_of_not_append (h t ht), List.map_id']

/-- A path keeps the rules with an index in the place of every `+`. -/
theorem Path.WellFormed.indexed {p : Path σ} (h : Path.WellFormed Inner p) (hn : n < 2 ^ 32) :
    Path.WellFormed Inner (p.map (Segment.indexed n)) :=
  h.map (fun _ ht => (h.lawful ht).indexed hn)
    (fun t _ hc => Commands.has_of_has_erase (Segment.commands_indexed n t ▸ hc)) (Segment.marker_indexed n)

/-- The query with an index in the place of every `+`. -/
def Query.indexed (n : Nat) (q : Query) : Query :=
  ⟨q.path.map (Segment.indexed n), q.seq, by rw [List.length_map]; exact q.seq_lt⟩

theorem Query.indexed_parsed (hq : q.Parsed) (hn : n < 2 ^ 32) : (q.indexed n).Parsed :=
  Query.parsed_iff.mpr ((Query.parsed_iff.mp hq).indexed hn)

/-- The query that reads what a path with these segments before its first `+`, which is that of `s`, and these segments
    behind it has put at the index `n`. -/
def Query.appended (before : Path PlainPath) (s : Segment PlainPath) (behind : Path PlainPath) (n : Nat) : Query :=
  Query.forReading ⟨before ++ s.indexed n :: behind.map (Segment.indexed 0), 0, List.length_pos_iff.mpr (by simp)⟩

section
variable {before behind : Path PlainPath} {s : Segment PlainPath}

theorem keyIn_indexed {s : Segment PlainPath} (hs : s.commands.append = true) (d : Value) :
    keyIn d (s.indexed n).body = .ok (.index n) := by
  rw [Segment.indexed_of_append hs]
  exact congrArg (fun i => Except.ok (Key.index i)) (Digits.value_ofNat n)

/-- Behind a `+` there is nothing yet, so any further `+` is read at index zero. -/
theorem Path.keys_indexed
    (h : ∀ t ∈ behind, ∃ k, keyIn d t.body = .ok k ∧ (k = .append ↔ t.commands.append = true)) :
    Path.keys (keyIn d) (behind.map (Segment.indexed 0)) = Key.resolve none (Path.keys (keyIn d) behind) := by
  induction behind with
  | nil => rfl
  | cons t behind ih =>
    obtain ⟨⟨k, hk, happend⟩, h⟩ := List.forall_mem_cons.mp h
    rw [List.map_cons]
    cases ha : t.commands.append with
    | true =>
      obtain rfl := happend.mpr ha
      rw [Path.keys_cons (keyIn_indexed ha d) nofun, Path.keys_cons hk nofun, Key.resolve_cons, ih h]
      rfl
    | false =>
      have hka : k ≠ .append := fun hka => Bool.false_ne_true (ha.symm.trans (happend.mp hka))
      rw [Segment.indexed_of_not_append ha]
      by_cases hc : k = .current
      · subst hc
        rw [Path.keys_cons_current hk, Path.keys_cons_current hk, ih h]
      · rw [Path.keys_cons hk hc, Path.keys_cons hk hc, Key.resolve_cons, Key.within_of_ne hka, ih h]
        rfl

namespace Query

variable (hpath : q.path = before ++ s :: behind) (hbefore : ∀ t ∈ before, t.commands.append = false)
  (hs : s.commands.append = true) (hq : q.Parsed)
include hpath

include hbefore in
theorem exists_of_mem_appended {t : Segment PlainPath}
    (ht : t ∈ before ++ s.indexed n :: behind.map (Segment.indexed 0)) : ∃ u ∈ q.path, ∃ i, t = u.indexed i := by
  rw [hpath]
  rcases List.mem_append.mp ht with ht | ht
  · exact ⟨t, List.mem_append_left _ ht, 0, (Segment.indexed_of_not_append (hbefore t ht)).symm⟩
  rcases List.mem_cons.mp ht with rfl | ht
  · exact ⟨s, by simp, n, rfl⟩
  · obtain ⟨u, hu, rfl⟩ := List.mem_map.mp ht
    exact ⟨u, by simp [hu], 0, rfl⟩

include hbefore in
theorem appended_readonly (hd : Path.deletes q.path = false) (hm : Path.moves q.path = false) :
    (appended before s behind n).checkReadonly = .ok () := by
  refine forReading_readonly ?_ ?_ ?_ <;> refine Path.any_eq_false_iff.mpr fun t ht => ?_ <;>
    obtain ⟨u, hu, i, rfl⟩ := exists_of_mem_appended hpath hbefore ht
  · rw [Segment.commands_indexed]
    exact Path.any_eq_false_iff.mp hd u hu
  · rw [Segment.marker_indexed]
    exact Path.any_eq_false_iff.mp hm u hu
  · rw [Segment.commands_indexed]
    rfl

include hbefore hq in
theorem appended_readable (hb : q.BracketFree) (d : Value) :
    Readable (keyIn d) (appended before s behind n).remaining := by
  intro t ht
  obtain ⟨r, hr, rfl⟩ := List.mem_map.mp ht
  obtain ⟨u, hu, i, rfl⟩ := exists_of_mem_appended hpath hbefore hr
  cases ha : u.commands.append with
  | true =>
    rw [Segment.indexed_of_append ha]
    exact ⟨.index (Digits.value (Digits.ofNat i)), rfl, nofun⟩
  | false =>
    obtain ⟨k, hk, happend⟩ := exists_key hq hb hu d
    rw [Segment.indexed_of_not_append ha]
    exact ⟨k, hk, fun hka => Bool.false_ne_true (ha.symm.trans (happend.mp hka))⟩

include hbefore hs hq in
theorem appended_parsed (hn : n < 2 ^ 32) : (appended before s behind n).Parsed := by
  have hw := parsed_iff.mp hq
  -- With index zero in the place of every `+`, only the body of the first one differs.
  have hzero := hw.indexed (n := 0) (by decide)
  rw [hpath, List.map_append, List.map_cons, Path.map_indexed hbefore, Segment.indexed_of_append hs] at hzero
  have hlawful := (hw.lawful (s := s) (by simp [hpath])).indexed hn
  rw [Segment.indexed_of_append hs] at hlawful
  have happended : Path.WellFormed Bracketed (before ++ s.indexed n :: behind.map (Segment.indexed 0)) := by
    rw [Segment.indexed_of_append hs]
    exact hzero.withBody hlawful
  exact forReading_parsed (parsed_iff.mpr happended)

include hs hq in
theorem appended_keys (hb : q.BracketFree) (d : Value) :
    (appended before s behind n).keys d =
      Path.keys (keyIn d) before ++ .index n :: Key.resolve none (Path.keys (keyIn d) behind) := by
  rw [appended, forReading_keys, keys, remaining, List.drop_zero, Path.keys_append,
    Path.keys_cons (keyIn_indexed hs d) (by simp), Path.keys_indexed]
  exact fun t ht => exists_key hq hb (by simp [hpath, ht]) d

end Query

/-! ### Writes at a `+` -/

variable (hq : q.Parsed) (hroot : q.seq = 0) (hb : q.BracketFree) (hpath : q.path = before ++ s :: behind)
  (hbefore : ∀ t ∈ before, t.commands.append = false) (hs : s.commands.append = true)
include hq hroot hb hpath hbefore hs

/-- One write adds one element to those of the array that the segments before the `+` lead to. -/
theorem concat_of_set (h : d.set q new = .ok d₂) :
    ∃ items x, Value.Elements (d.lookup (Path.keys (keyIn d) before)) items ∧
      d₂.lookup (Path.keys (keyIn d) before) = some (.array (items ++ [x])) ∧
      x.lookup (Key.resolve none (Path.keys (keyIn d) behind)) = some new := by
  obtain ⟨-, -, _, _, _, hassign⟩ := set_ok h
  rw [Query.remaining, hroot, List.drop_zero, hpath] at hassign
  refine concat_of_assign (fun t ht hkey => ?_) ?_ hassign
  · obtain ⟨k, hk, happend⟩ := Query.exists_key hq hb (s := t) (by simp [hpath, ht]) d
    obtain rfl := Except.ok.inj (hk.symm.trans hkey)
    exact Bool.false_ne_true ((hbefore t ht).symm.trans (happend.mp rfl))
  · obtain ⟨k, hk, happend⟩ := Query.exists_key hq hb (s := s) (by simp [hpath]) d
    rw [hk, happend.mpr hs]

/-- Where the `+` is the last segment, one write after another adds one value after another. -/
theorem concat_of_sets {values : List Value} (hbehind : behind = [])
    (h : values.foldlM (fun d v => d.set q v) d = .ok d₂) :
    values = [] ∧ d₂ = d ∨ ∃ items, Value.Elements (d.lookup (Path.keys (keyIn d) before)) items ∧
      d₂.lookup (Path.keys (keyIn d) before) = some (.array (items ++ values)) := by
  subst hbehind
  induction values generalizing d with
  | nil => exact Or.inl ⟨rfl, (Except.ok.inj h).symm⟩
  | cons v values ih =>
    rw [List.foldlM_cons] at h
    obtain ⟨d₁, hset, hrest⟩ := Outcome.bind_ok_iff.mp h
    obtain ⟨items, x, helements, harray, hx⟩ := concat_of_set hq hroot hb hpath hbefore hs hset
    obtain rfl : x = v := Option.some.inj hx
    have hkeys : Path.keys (keyIn d₁) before = Path.keys (keyIn d) before :=
      Path.keys_congr fun t ht => keyIn_eq (hb t (by simp [hpath, ht])) d₁ d
    refine Or.inr ⟨items, helements, ?_⟩
    rcases ih hrest with ⟨rfl, rfl⟩ | ⟨items', helements', harray'⟩
    · exact harray
    · rw [hkeys] at helements' harray'
      rw [harray] at helements'
      cases helements'
      rw [harray', List.append_assoc, List.cons_append, List.nil_append]

end

/-- A write at a path whose first `+` is that of `s` adds one element to the array before it, or to an array that is
    created there, and the value is read back at the index of that element. Where `s` is the last segment, a list of
    values written one after another stands behind the elements of the array. -/
theorem set_append {before behind : Path PlainPath} {s : Segment PlainPath} (hq : q.Parsed) (hroot : q.seq = 0)
    (hb : q.BracketFree) (hpath : q.path = before ++ s :: behind) (hbefore : ∀ t ∈ before, t.commands.append = false)
    (hs : s.commands.append = true) :
    (∀ d v d₂ : Value, d.set q v = .ok d₂ →
      ∃ items x, Value.Elements (d.lookup (Path.keys (keyIn d) before)) items ∧
        d₂.lookup (Path.keys (keyIn d) before) = some (.array (items ++ [x])) ∧
        d₂.get (Query.appended before s behind items.length) = .ok v ∧
        (items.length < 2 ^ 32 → (Query.appended before s behind items.length).Parsed)) ∧
      (behind = [] → ∀ (d d₂ : Value) (values : List Value), values.foldlM (fun d v => d.set q v) d = .ok d₂ →
        values = [] ∧ d₂ = d ∨ ∃ items, Value.Elements (d.lookup (Path.keys (keyIn d) before)) items ∧
          d₂.lookup (Path.keys (keyIn d) before) = some (.array (items ++ values))) := by
  refine ⟨fun d v d₂ h => ?_, fun hbehind d d₂ values h => concat_of_sets hq hroot hb hpath hbefore hs hbehind h⟩
  obtain ⟨items, x, helements, harray, hx⟩ := concat_of_set hq hroot hb hpath hbefore hs h
  refine ⟨items, x, helements, harray, ?_, Query.appended_parsed hpath hbefore hs hq⟩
  obtain ⟨hd, hm, -⟩ := set_ok h
  refine get_of_lookup (Query.appended_readonly hpath hbefore hd hm) (Query.appended_readable hpath hbefore hq hb d₂) ?_
  have hkeys : ∀ t ∈ q.path, keyIn d₂ t.body = keyIn d t.body := fun t ht => keyIn_eq (hb t ht) d₂ d
  have hbehind : Path.keys (keyIn d₂) behind = Path.keys (keyIn d) behind :=
    Path.keys_congr fun t ht => hkeys t (by simp [hpath, ht])
  have hfront : Path.keys (keyIn d₂) before = Path.keys (keyIn d) before :=
    Path.keys_congr fun t ht => hkeys t (by simp [hpath, ht])
  rw [Query.appended_keys hpath hs hq hb, hbehind, hfront, Value.lookup_append, harray, Option.bind_some,
    Value.lookup_cons, Value.child?_array, List.getElem?_concat_length]
  exact hx

/-- `a.+.$b.+` puts a value into a second element that it creates, and `a.+` puts two values behind the first one. -/
theorem set_append_nested :
    (Value.object [("a", .array [.int 1, .object [("b", .array [.int 2])]])]).get
        (Query.appended [⟨{}, .field "a", false⟩] ⟨{ append := true }, .append, false⟩
          [⟨{ make := true }, .field "b", false⟩, ⟨{ append := true }, .append, false⟩] 1) = .ok (.int 2) ∧
      (Value.object [("a", .array [.int 1, .int 2, .int 3])]).lookup [.name "a"] =
        some (.array ([.int 1] ++ [.int 2, .int 3])) := by
  have hread : Query.parse "a.+.$b.+" =
      .ok ⟨[⟨{}, .field "a", false⟩, ⟨{ append := true }, .append, false⟩, ⟨{ make := true }, .field "b", false⟩,
        ⟨{ append := true }, .append, false⟩], 0, by decide⟩ := rfl
  have hset : (Value.object [("a", .array [.int 1])]).set
      ⟨[⟨{}, .field "a", false⟩, ⟨{ append := true }, .append, false⟩, ⟨{ make := true }, .field "b", false⟩,
        ⟨{ append := true }, .append, false⟩], 0, by decide⟩ (.int 2) =
      .ok (.object [("a", .array [.int 1, .object [("b", .array [.int 2])]])]) := rfl
  have hread' : Query.parse "a.+" =
      .ok ⟨[⟨{}, .field "a", false⟩, ⟨{ append := true }, .append, false⟩], 0, by decide⟩ := rfl
  have hsets : [Value.int 2, .int 3].foldlM (fun d v => d.set
      ⟨[⟨{}, .field "a", false⟩, ⟨{ append := true }, .append, false⟩], 0, by decide⟩ v)
      (Value.object [("a", .array [.int 1])]) = .ok (.object [("a", .array [.int 1, .int 2, .int 3])]) := rfl
  have hpath : [⟨{}, .field "a", false⟩, ⟨{ append := true }, .append, false⟩, ⟨{ make := true }, .field "b", false⟩,
      ⟨{ append := true }, .append, false⟩] = [⟨{}, .field "a", false⟩] ++ (⟨{ append := true }, .append, false⟩ :
      Segment PlainPath) :: [⟨{ make := true }, .field "b", false⟩, ⟨{ append := true }, .append, false⟩] := rfl
  have hpath' : [⟨{}, .field "a", false⟩, ⟨{ append := true }, .append, false⟩] =
      [⟨{}, .field "a", false⟩] ++ [(⟨{ append := true }, .append, false⟩ : Segment PlainPath)] := rfl
  obtain ⟨hone, -⟩ := set_append ⟨"a.+.$b.+", _, hread, rfl⟩ rfl (by simp [Query.BracketFree, Body.isBracket]) hpath
    (by simp) rfl
  obtain ⟨-, hmany⟩ := set_append ⟨"a.+", _, hread', rfl⟩ rfl (by simp [Query.BracketFree, Body.isBracket]) hpath'
    (by simp) rfl
  obtain ⟨items, x, helements, -, hget, -⟩ := hone _ _ _ hset
  obtain ⟨hnil, -⟩ | ⟨items', helements', harray⟩ := hmany rfl _ _ _ hsets
  · cases hnil
  · cases helements
    cases helements'
    exact ⟨hget, harray⟩

end TreeQuery
