import TreeQuery.Document.Read
import TreeQuery.Proofs.Outcome

/-! # Looking up by keys

What is at a place of a document, apart from how the place is written: a list of keys is looked up by one
field or element after another (`Value.lookup`), and a path is read as far as its keys are found
(`has_eq_isSome_lookup`). A `+` selects the element past the end of the array that it reaches, which is
known only together with the value that is written to (`Key.resolve`). -/

namespace TreeQuery

variable {σ : Type} {key : Body σ → Except ReadError Key} {p : Path σ} {v w : Value} {k x : Key}
  {ks ks' : List Key} {spec spec' : String}

/-! ### Keys of a value -/

namespace Value

/-- The field or the element of a value with a key. -/
def child? (k : Key) (v : Value) : Option Value :=
  match k, v with
  | .name name, object fields => Fields.get? name fields
  | .index i, array items => items[i]?
  | _, _ => none

/-- The part of a value that a list of keys leads to. -/
def lookup : List Key → Value → Option Value
  | [], v => some v
  | k :: rest, v => (v.child? k).bind (lookup rest)

theorem lookup_cons : lookup (k :: ks) v = (v.child? k).bind (lookup ks) := rfl

theorem lookup_append : lookup (ks ++ ks') v = (v.lookup ks).bind (lookup ks') := by
  induction ks generalizing v with
  | nil => rfl
  | cons k ks ih =>
    rw [List.cons_append, lookup_cons, lookup_cons, Option.bind_assoc]
    exact Option.bind_congr fun _ _ => ih

theorem child?_null : child? k null = none := by
  cases k <;> rfl

theorem child?_object {fields : Fields Value} {name : String} :
    child? (.name name) (object fields) = Fields.get? name fields := rfl

theorem child?_array {items : List Value} {i : Nat} : child? (.index i) (array items) = items[i]? := rfl

end Value

/-- How many elements an array has, and none if there is no array. -/
def Value.endIndex : Option Value → Nat
  | some (.array items) => items.length
  | _ => 0

/-- The key that is written to where `v` is reached: for `+` the index past the end. -/
def Key.within (v : Option Value) : Key → Key
  | .append => .index (Value.endIndex v)
  | k => k

/-- Past the end of an array there is nothing. -/
theorem Value.child?_within_append (v : Value) : v.child? (Key.append.within (some v)) = none := by
  cases v with
  | array items => exact List.getElem?_eq_none (Nat.le_refl items.length)
  | null | bool | int | decimal | str | object => rfl

/-- The keys that are written to from `v` on. Where nothing is, an array begins at index zero. -/
def Key.resolve : Option Value → List Key → List Key
  | _, [] => []
  | v, k :: rest => k.within v :: resolve (v.bind (Value.child? (k.within v))) rest

theorem Key.resolve_cons {o : Option Value} :
    Key.resolve o (k :: ks) = k.within o :: Key.resolve (o.bind (Value.child? (k.within o))) ks := rfl

theorem Key.within_of_ne {o : Option Value} (h : k ≠ .append) : k.within o = k := by
  cases k with
  | append => exact absurd rfl h
  | current | name | index => rfl

theorem Key.resolve_of_not_append {o : Option Value} (h : .append ∉ ks) : Key.resolve o ks = ks := by
  induction ks generalizing o with
  | nil => rfl
  | cons k ks ih =>
    obtain ⟨hk, hks⟩ : .append ≠ k ∧ .append ∉ ks := by simpa using h
    rw [Key.resolve_cons, Key.within_of_ne hk.symm, ih hks]

/-! ### Keys of a path -/

/-- The keys that a path selects, without the `#` that stay where they are. -/
def Path.keys (key : Body σ → Except ReadError Key) (p : Path σ) : List Key :=
  p.filterMap fun s =>
    match key s.body with
    | .ok .current => none
    | .ok k => some k
    | .error _ => none

/-- The keys that a query selects in a document. -/
def Query.keys (root : Value) (q : Query) : List Key := Path.keys (keyIn root) q.remaining

theorem Query.remaining_of_root {q : Query} (h : q.seq = 0) : q.remaining = q.path := by
  rw [remaining, h, List.drop_zero]

theorem Path.keys_cons_current {s : Segment σ} (h : key s.body = .ok .current) :
    Path.keys key (s :: p) = Path.keys key p := by
  simp [Path.keys, h]

theorem Path.keys_cons {s : Segment σ} (h : key s.body = .ok k) (hk : k ≠ .current) :
    Path.keys key (s :: p) = k :: Path.keys key p := by
  cases k with
  | current => exact absurd rfl hk
  | name | index | append => simp [Path.keys, h]

theorem Path.keys_append (p p' : Path σ) : Path.keys key (p ++ p') = Path.keys key p ++ Path.keys key p' :=
  List.filterMap_append

/-! ### Reading -/

/-- That nothing was found. -/
def Absent (found : Except ReadError (Option Value)) : Prop :=
  found = .ok none ∨ ∃ e, found = .error e ∧ Value.isAbsence e = true

theorem absent_ite {m : Bool} {e : ReadError} (he : Value.isAbsence e = true) :
    Absent (if m then .ok none else .error e) := by
  cases m with
  | false => exact Or.inr ⟨e, rfl, he⟩
  | true => exact Or.inl rfl

theorem Value.select_of_child? {m : Bool} (h : v.child? k = some w) : v.select spec m k = .ok (some w) := by
  cases k with
  | current => cases h
  | append => cases h
  | name name =>
    cases v with
    | object fields =>
      rw [Value.child?_object] at h
      simp [Value.select, h]
    | null | bool | int | decimal | str | array => cases h
  | index i =>
    cases v with
    | array items =>
      rw [Value.child?_array] at h
      simp [Value.select, h]
    | null | bool | int | decimal | str | object => cases h

theorem Value.absent_select {m : Bool} (hc : k ≠ .current) (ha : k ≠ .append) (h : v.child? k = none) :
    Absent (v.select spec m k) := by
  cases k with
  | current => exact absurd rfl hc
  | append => exact absurd rfl ha
  | name name =>
    cases v with
    | object fields =>
      rw [Value.child?_object] at h
      simp only [Value.select, h]
      exact absent_ite rfl
    | null => exact absent_ite rfl
    | bool | int | decimal | str | array => exact Or.inr ⟨_, rfl, rfl⟩
  | index i =>
    cases v with
    | array items =>
      rw [Value.child?_array] at h
      simp only [Value.select, h]
      exact absent_ite rfl
    | null => exact absent_ite rfl
    | bool | int | decimal | str | object => exact Or.inr ⟨_, rfl, rfl⟩

theorem Value.select_ne_none : v.select spec false k ≠ .ok none := by
  intro h
  cases k with
  | current | append => cases h
  | name name =>
    cases v with
    | object fields =>
      rw [Value.select] at h
      split at h <;> cases h
    | null | bool | int | decimal | str | array => cases h
  | index i =>
    cases v with
    | array items =>
      rw [Value.select] at h
      split at h <;> cases h
    | null | bool | int | decimal | str | object => cases h

theorem Value.key_ne_append : v.key ≠ .ok .append := by
  intro h
  cases v with
  | str => cases h
  | int i =>
    rw [Value.key] at h
    split at h <;> cases h
  | null | bool | decimal | array | object => cases h

theorem Body.key_ne_append {evaluate : σ → Except ReadError Value} {b : Body σ} (h : b ≠ .append) :
    b.key evaluate ≠ .ok .append := by
  intro hk
  cases b with
  | append => exact h rfl
  | here | field | index => cases hk
  | bracket raw inner =>
    obtain ⟨w, -, hw⟩ := Outcome.bind_ok_iff.mp hk
    exact Value.key_ne_append hw

/-- Whether every segment has a key that can be read. -/
def Readable (key : Body σ → Except ReadError Key) (p : Path σ) : Prop :=
  ∀ s ∈ p, ∃ k, key s.body = .ok k ∧ k ≠ .append

theorem walk_cons {s : Segment σ} (h : key s.body = .ok k) :
    walk spec key (s :: p) v = (v.select spec s.commands.maybe k).bind fun found =>
      found.elim (.ok none) (walk spec key p) := by
  simp only [walk, h, bind, Except.bind]
  cases v.select spec s.commands.maybe k with
  | error e => rfl
  | ok found => cases found <;> rfl

/-- Only a `+` is refused with the text of the query. -/
theorem walk_congr_spec (hp : ∀ s ∈ p, key s.body ≠ .ok .append) : walk spec key p v = walk spec' key p v := by
  induction p generalizing v with
  | nil => rfl
  | cons s p ih =>
    obtain ⟨hs, hp⟩ := List.forall_mem_cons.mp hp
    cases hk : key s.body with
    | error e => rw [walk, walk, hk]; rfl
    | ok k =>
      have hselect : v.select spec s.commands.maybe k = v.select spec' s.commands.maybe k := by
        cases k with
        | append => exact absurd hk hs
        | current | name | index => rfl
      rw [walk_cons hk, walk_cons hk, hselect, funext fun v => ih hp (v := v)]

/-- Only a `?` makes a path find nothing. -/
theorem walk_ne_none (hp : ∀ s ∈ p, s.commands.maybe = false) : walk spec key p v ≠ .ok none := by
  induction p generalizing v with
  | nil => exact nofun
  | cons s p ih =>
    obtain ⟨hs, hp⟩ := List.forall_mem_cons.mp hp
    intro h
    obtain ⟨k, -, h⟩ := Outcome.bind_ok_iff.mp h
    obtain ⟨found, hfound, h⟩ := Outcome.bind_ok_iff.mp h
    rw [hs] at hfound
    cases found with
    | none => exact Value.select_ne_none hfound
    | some c => exact ih hp h

/-- A path is followed to what its keys lead to, and if they lead nowhere that is what is found. -/
theorem walk_spec (hp : Readable key p) (v : Value) :
    (∀ w, v.lookup (Path.keys key p) = some w → walk spec key p v = .ok (some w)) ∧
      (v.lookup (Path.keys key p) = none → Absent (walk spec key p v)) := by
  induction p generalizing v with
  | nil => exact ⟨fun w h => congrArg Except.ok h, fun h => by cases h⟩
  | cons s p ih =>
    obtain ⟨k, hk, ha⟩ := hp s (by simp)
    have ih := ih fun t ht => hp t (by simp [ht])
    rw [walk_cons hk]
    by_cases hc : k = .current
    · subst hc
      rw [Path.keys_cons_current hk]
      exact ih v
    · rw [Path.keys_cons hk hc, Value.lookup_cons]
      cases hv : v.child? k with
      | some child =>
        rw [Value.select_of_child? hv]
        exact ih child
      | none =>
        refine ⟨fun w h => (by cases h), fun _ => ?_⟩
        rcases Value.absent_select (m := s.commands.maybe) hc ha hv with hn | ⟨e, he, habs⟩
        · rw [hn]
          exact Or.inl rfl
        · rw [he]
          exact Or.inr ⟨e, rfl, habs⟩

theorem Query.checkReadonly_ok_iff {q : Query} :
    q.checkReadonly = .ok () ↔ Path.writes q.path = false ∧ Path.moves q.path = false := by
  unfold Query.checkReadonly
  cases Path.writes q.path <;> cases Path.moves q.path <;> simp

theorem Path.writes_eq_false_iff : Path.writes p = false ↔
    Path.overwrites p = false ∧ Path.makes p = false ∧ Path.appends p = false ∧ Path.deletes p = false := by
  simp only [Path.writes, Path.overwrites, Path.makes, Path.appends, Path.deletes, List.any_eq_false, Commands.isWrite,
    ← forall_and, Bool.not_eq_true, Bool.or_eq_false_iff, and_assoc]

theorem Path.appends_of_not_writes (h : Path.writes p = false) : Path.appends p = false :=
  (Path.writes_eq_false_iff.mp h).2.2.1

/-- A query that only reads is answered by what its path finds. -/
theorem Value.get_eq_walk {root : Value} {q : Query} (hq : q.checkReadonly = .ok ()) :
    root.get q = (walk q.spec (keyIn root) q.remaining root).map (·.getD .null) := by
  obtain ⟨hw, hm⟩ := Query.checkReadonly_ok_iff.mp hq
  rw [Value.get, readFrom, Path.appends_of_not_writes hw, hw, hm]
  rfl

/-- What is read is what the path finds, and null if it finds nothing. -/
theorem Value.get_ok_iff {root : Value} {q : Query} : root.get q = .ok w ↔
    q.checkReadonly = .ok () ∧
      ∃ found, walk q.spec (keyIn root) q.remaining root = .ok found ∧ found.getD .null = w := by
  rw [← Outcome.map_ok_iff]
  constructor
  · intro h
    have hread : q.checkReadonly = .ok () := by
      rw [Value.get, readFrom] at h
      split at h
      · cases h
      split at h
      · cases h
      rename_i hread
      rw [Bool.not_eq_true, Bool.or_eq_false_iff] at hread
      exact Query.checkReadonly_ok_iff.mpr hread
    exact ⟨hread, Value.get_eq_walk hread ▸ h⟩
  · rintro ⟨hread, h⟩
    rw [Value.get_eq_walk hread]
    exact h

theorem Value.has_eq_walk {root : Value} {q : Query} (hq : q.checkReadonly = .ok ()) :
    root.has q = match walk q.spec (keyIn root) q.remaining root with
      | .ok found => .ok found.isSome
      | .error e => if isAbsence e then .ok false else .error e := by
  obtain ⟨hw, hm⟩ := Query.checkReadonly_ok_iff.mp hq
  rw [Value.has, hw, hm]
  rfl

section
variable {root : Value} {q : Query} (hq : q.checkReadonly = .ok ()) (hp : Readable (keyIn root) q.remaining)
include hq hp

theorem has_eq_isSome_lookup : root.has q = .ok (root.lookup (q.keys root)).isSome := by
  obtain ⟨hfound, habsent⟩ := walk_spec hp root
  rw [Value.has_eq_walk hq, Query.keys]
  cases hl : root.lookup (Path.keys (keyIn root) q.remaining) with
  | some w => rw [hfound w hl]
  | none =>
    rcases habsent hl with hn | ⟨e, he, habs⟩
    · rw [hn]
    · rw [he]
      simp [habs]

theorem get_of_lookup (h : root.lookup (q.keys root) = some w) : root.get q = .ok w :=
  Value.get_ok_iff.mpr ⟨hq, some w, (walk_spec hp root).1 w h, rfl⟩

end

/-! ### Diverging keys -/

/-- Lists of keys that part at some place: before it they agree, and there both have a key. -/
def Diverges (ks ks' : List Key) : Prop :=
  ∃ common x y rest rest', x ≠ y ∧ ks = common ++ x :: rest ∧ ks' = common ++ y :: rest'

theorem not_diverges_nil_right : ¬Diverges ks [] := by
  rintro ⟨common, x, y, rest, rest', -, -, h⟩
  cases common <;> cases h

theorem not_diverges_nil_left : ¬Diverges [] ks := by
  rintro ⟨common, x, y, rest, rest', -, h, -⟩
  cases common <;> cases h

theorem diverges_cons : Diverges (x :: ks) (k :: ks') ↔ x ≠ k ∨ x = k ∧ Diverges ks ks' := by
  constructor
  · rintro ⟨common, a, b, rest, rest', hne, hx, hk⟩
    cases common with
    | nil =>
      obtain ⟨rfl, -⟩ := List.cons.inj hx
      obtain ⟨rfl, -⟩ := List.cons.inj hk
      exact Or.inl hne
    | cons c common =>
      obtain ⟨hxc, hx⟩ := List.cons.inj hx
      obtain ⟨hkc, hk⟩ := List.cons.inj hk
      exact Or.inr ⟨hxc.trans hkc.symm, common, a, b, rest, rest', hne, hx, hk⟩
  · rintro (hne | ⟨rfl, common, a, b, rest, rest', hne, rfl, rfl⟩)
    · exact ⟨[], x, k, ks, ks', hne, rfl, rfl⟩
    · exact ⟨x :: common, a, b, rest, rest', hne, rfl, rfl⟩

end TreeQuery
