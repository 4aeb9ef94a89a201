import TreeQuery.Proofs.Document.Append
import TreeQuery.Proofs.Document.Overwrite

/-! # Documents made of one path

A path that begins with `$` creates all it goes through when it is written at in null. What is created for a segment is
shaped for the next one, and nothing is in it yet, so an index can only be zero (`assign_ok_iff_spine`). The document is
then a chain of containers with one part each, which the keys of the path lead through to the value
(`set_null_spine`). -/

namespace TreeQuery

variable {σ : Type} {key : Body σ → Except ReadError Key} {p : Path σ} {s : Segment σ} {v v' w c d new : Value}
  {k : Key} {ks front behind : List Key} {make overwrite : Bool} {place : String} {q : Query}

namespace Value

/-! ### Chains of containers -/

/-- The value with a container around it for every key, and nothing beside it. -/
def spine (v : Value) : List Key → Value
  | [] => v
  | .current :: ks => spine v ks
  | .name name :: ks => object [(name, spine v ks)]
  | .index _ :: ks | .append :: ks => array [spine v ks]

theorem spine_cons : spine v (k :: ks) = spine (spine v ks) [k] := by
  cases k <;> rfl

/-- Around a value there is one container for each segment, but none for `#`. -/
theorem spine_keys_cons (hk : key s.body = .ok k) :
    spine v (Path.keys key (s :: p)) = spine (spine v (Path.keys key p)) [k] := by
  by_cases hc : k = .current
  · subst hc
    rw [Path.keys_cons_current hk]
    rfl
  · rw [Path.keys_cons hk hc, spine_cons]

theorem spine_resolve (v : Value) (o : Option Value) (ks : List Key) : spine v (Key.resolve o ks) = spine v ks := by
  induction ks generalizing o with
  | nil => rfl
  | cons k ks ih =>
    rw [Key.resolve_cons, spine_cons, ih, @spine_cons _ _ ks]
    cases k <;> rfl

/-- A chain has one part at each key, and that is the rest of it. -/
theorem child?_spine (h : (spine v (k :: ks)).child? k = some c) : c = spine v ks ∧ (spine v (k :: ks)).length = 1 := by
  cases k with
  | current | append => cases h
  | name name =>
    rw [spine, child?_object] at h
    simpa [Fields.get?, spine, length, eq_comm] using h
  | index i =>
    rw [spine, child?_array] at h
    obtain ⟨hlt, rfl⟩ := List.getElem?_eq_some_iff.mp h
    obtain rfl : i = 0 := Nat.lt_one_iff.mp hlt
    exact ⟨rfl, rfl⟩

/-- On the way to the end of a chain, every value has one part. -/
theorem lookup_spine (h : (spine v (front ++ k :: behind)).lookup (front ++ k :: behind) = some w) :
    ∃ c, (spine v (front ++ k :: behind)).lookup front = some c ∧ c.length = 1 := by
  induction front with
  | nil =>
    obtain ⟨c, hc, -⟩ := Option.bind_eq_some_iff.mp h
    exact ⟨_, rfl, (child?_spine hc).2⟩
  | cons x front ih =>
    obtain ⟨c, hc, hrest⟩ := Option.bind_eq_some_iff.mp h
    obtain ⟨rfl, -⟩ := child?_spine hc
    rw [List.cons_append, lookup_cons, ← List.cons_append, hc]
    exact ih hrest

end Value

/-! ### One segment with `$` -/

/-- Whether a key can be the first one that is written to in a container. -/
def Key.Begins : Key → Prop
  | .index i => i = 0
  | .current | .name _ | .append => True

namespace Value

/-- Nothing is in a value yet, and a key may be written in it: it is null, or what is created for the key. -/
def Fresh (k : Key) (v : Value) : Prop := v = null ∨ v = blankFor k

theorem put_ok_iff_spine (hv : Fresh k v) :
    v.put true overwrite place new k = .ok v' ↔ k.Begins ∧ v' = spine new [k] := by
  cases k with
  | current =>
    rcases hv with rfl | rfl <;> simp [put, blankFor, isNull, Key.Begins, spine, eq_comm]
  | name name =>
    have hput : v.put true overwrite place new (.name name) = .ok (object [(name, new)]) := by
      rcases hv with rfl | rfl <;> rfl
    simp [hput, Key.Begins, spine, eq_comm]
  | append =>
    have hput : v.put true overwrite place new .append = .ok (array [new]) := by
      rcases hv with rfl | rfl <;> rfl
    simp [hput, Key.Begins, spine, eq_comm]
  | index i =>
    have hblank : v.isBlank = true := by rcases hv with rfl | rfl <;> rfl
    have hitems : v.writableItems true = .ok [] := by rcases hv with rfl | rfl <;> rfl
    by_cases hi : i = 0
    · rw [put, if_pos ⟨hi, hblank⟩]
      simp [hi, Key.Begins, spine, eq_comm]
    · rw [put, if_neg fun h => hi h.1, hitems, Outcome.ok_bind]
      simp [hi, Key.Begins]

/-- What is created for the next segment is edited, and is then the only part. -/
theorem enter_ok_iff_spine {blank : Except Error Value} {edit : Value → Except Error Value} (hv : Fresh k v)
    (hc : k ≠ .current) : v.enter true blank edit k = .ok v' ↔
      k.Begins ∧ ∃ part, blank = .ok part ∧ ∃ c, edit part = .ok c ∧ spine c [k] = v' := by
  have hstep : (blank >>= fun part => edit part >>= fun c => pure (spine c [k])) = .ok v' ↔
      ∃ part, blank = .ok part ∧ ∃ c, edit part = .ok c ∧ spine c [k] = v' := by
    simp only [Outcome.bind_ok_iff, Outcome.pure_ok_iff]
  rw [← hstep]
  cases k with
  | current => exact absurd rfl hc
  | name name =>
    have hbegins : (Key.name name).Begins := trivial
    rw [and_iff_right hbegins, enter_name]
    rcases hv with rfl | rfl <;> rfl
  | append =>
    have hbegins : Key.append.Begins := trivial
    rw [and_iff_right hbegins]
    rcases hv with rfl | rfl <;> rfl
  | index i =>
    have hblank : v.isBlank = true := by rcases hv with rfl | rfl <;> rfl
    have hitems : v.writableItems true = .ok [] := by rcases hv with rfl | rfl <;> rfl
    by_cases hi : i = 0
    · have hbegins : (Key.index i).Begins := hi
      rw [and_iff_right hbegins, enter, if_pos ⟨hi, hblank, rfl⟩]
      rfl
    · have herror : v.enter true blank edit (.index i) = .error (.write (.missingKey (toString i))) := by
        rw [enter, if_neg fun h => hi h.1, hitems]
        rfl
      rw [herror]
      exact iff_of_false (by simp) fun h => hi h.1

end Value

/-! ### A path that begins with `$` -/

theorem Path.mem_keys : k ∈ Path.keys key p ↔ k ≠ .current ∧ ∃ s ∈ p, key s.body = .ok k := by
  rw [Path.keys, List.mem_filterMap]
  constructor
  · rintro ⟨s, hs, h⟩
    split at h
    · cases h
    · rename_i x hc hx
      cases h
      exact ⟨hc, s, hs, hx⟩
    · cases h
  · rintro ⟨hc, s, hs, hk⟩
    refine ⟨s, hs, ?_⟩
    cases k with
    | current => exact absurd rfl hc
    | name | index | append => simp [hk]

theorem Path.begins_cons (hk : key s.body = .ok k) : (∀ x ∈ Path.keys key (s :: p), x.Begins) ↔
    k.Begins ∧ ∀ x ∈ Path.keys key p, x.Begins := by
  by_cases hc : k = .current
  · subst hc
    rw [Path.keys_cons_current hk]
    exact (and_iff_right trivial).symm
  · rw [Path.keys_cons hk hc, List.forall_mem_cons]

/-- Where nothing is, a path with `$` creates the containers that its segments go through, one around another. Each is
    shaped for the segment that goes through it, so what is there is fresh for that segment. -/
theorem assign_ok_iff_spine (hs : (make || s.commands.make) = true) (hk : key s.body = .ok k) (hv : Value.Fresh k v)
    (hp : ∀ t ∈ p, ∃ k, key t.body = .ok k) : assign key overwrite place new make (s :: p) v = .ok v' ↔
      (∀ x ∈ Path.keys key (s :: p), x.Begins) ∧ v' = Value.spine new (Path.keys key (s :: p)) := by
  rw [Path.begins_cons hk, Value.spine_keys_cons hk]
  induction p generalizing s make k v v' with
  | nil =>
    rw [assign_single hk, hs, Outcome.mapError_ok_iff, Value.put_ok_iff_spine hv]
    simp [Path.keys, Value.spine]
  | cons t p ih =>
    obtain ⟨⟨k', hk'⟩, hp⟩ := List.forall_mem_cons.mp hp
    have hblank : ((key t.body).map Value.blankFor).mapError Error.read = .ok (Value.blankFor k') := by
      rw [hk']
      rfl
    have ih : ∀ {w w' : Value}, Value.Fresh k' w → (assign key overwrite place new true (t :: p) w = .ok w' ↔
        (∀ x ∈ Path.keys key (t :: p), x.Begins) ∧ w' = Value.spine new (Path.keys key (t :: p))) := fun hw => by
      rw [Path.begins_cons hk', Value.spine_keys_cons hk']
      exact ih rfl hk' hw hp
    rw [assign_cons_cons hk, hs, hblank]
    by_cases hc : k = .current
    · -- `#` leaves null to the next segment, which is as fresh for it as what is created for it.
      subst hc
      obtain rfl : v = .null := or_self_iff.mp hv
      rw [and_iff_right (show Key.current.Begins from trivial)]
      exact ih (Or.inl rfl)
    · rw [Value.enter_ok_iff_spine hv hc]
      constructor
      · rintro ⟨hbegins, part, hpart, c, hrest, rfl⟩
        obtain rfl := Except.ok.inj hpart
        obtain ⟨hp, rfl⟩ := (ih (Or.inr rfl)).mp hrest
        exact ⟨⟨hbegins, hp⟩, rfl⟩
      · rintro ⟨⟨hbegins, hp⟩, rfl⟩
        exact ⟨hbegins, _, rfl, _, (ih (Or.inr rfl)).mpr ⟨hp, rfl⟩, rfl⟩

/-! ### Queries -/

/-- The query without `=` and `$`, and with index zero in the place of every `+`. -/
def Query.settled (q : Query) : Query := (q.indexed 0).forReading

namespace Query

theorem settled_parsed (hq : q.Parsed) : q.settled.Parsed := forReading_parsed (indexed_parsed hq (by decide))

theorem settled_readonly (hd : Path.deletes q.path = false) (hm : Path.moves q.path = false) :
    q.settled.checkReadonly = .ok () := by
  refine forReading_readonly ?_ ((Path.moves_indexed 0 q.path).trans hm) ?_ <;>
    refine Path.any_eq_false_iff.mpr fun t ht => ?_ <;> obtain ⟨s, hs, rfl⟩ := List.mem_map.mp ht <;>
    rw [Segment.commands_indexed]
  · exact Path.any_eq_false_iff.mp hd s hs
  · rfl

theorem settled_keys (hq : q.Parsed) (hb : q.BracketFree) (d : Value) :
    q.settled.keys d = Key.resolve none (q.keys d) := by
  rw [settled, forReading_keys, keys, remaining, indexed, ← List.map_drop]
  exact Path.keys_indexed fun t ht => exists_key hq hb (List.mem_of_mem_drop ht) d

theorem settled_bracketFree (hb : q.BracketFree) : q.settled.BracketFree := by
  intro s hs
  obtain ⟨t, ht, rfl⟩ := List.mem_map.mp hs
  obtain ⟨u, hu, rfl⟩ := List.mem_map.mp ht
  have hbody : (u.indexed 0).body.isBracket = false := by
    unfold Segment.indexed
    split
    · rfl
    · exact hb u hu
  exact hbody

/-- Without brackets, only an index that is written may not begin a container. -/
theorem begins_iff (hroot : q.seq = 0) (hb : q.BracketFree) (d : Value) : (∀ k ∈ q.keys d, k.Begins) ↔
    ∀ s ∈ q.path, ∀ digits, s.body = .index digits → Digits.value digits = 0 := by
  rw [keys, remaining_of_root hroot]
  constructor
  · intro h s hs digits hbody
    have hk : keyIn d s.body = .ok (.index (Digits.value digits)) := by rw [hbody]; rfl
    exact h (.index (Digits.value digits)) (Path.mem_keys.mpr ⟨by simp, s, hs, hk⟩)
  · intro h k hk
    obtain ⟨-, s, hs, hk⟩ := Path.mem_keys.mp hk
    have hbracket := hb s hs
    cases hbody : s.body with
    | index digits =>
      rw [hbody] at hk
      cases hk
      exact h s hs digits hbody
    | field | here | append =>
      rw [hbody] at hk
      cases hk
      trivial
    | bracket =>
      rw [hbody] at hbracket
      cases hbracket

end Query

/-- A path without brackets that begins with `$` can be written at in null exactly if no index in it is other than zero.
    The document is then read as the value at the same place, where an array is at index zero what `+` put there, and
    every value on the way has one part. -/
theorem set_null_spine (hq : q.Parsed) (hroot : q.seq = 0) (hb : q.BracketFree) (hm : Path.moves q.path = false)
    (hmake : ∃ s ∈ q.path.head?, s.commands.make = true) (v : Value) :
    ((∃ d, Value.null.set q v = .ok d) ↔
        ∀ s ∈ q.path, ∀ digits, s.body = .index digits → Digits.value digits = 0) ∧
      q.settled.Parsed ∧
      ∀ d, Value.null.set q v = .ok d → d.get q.settled = .ok v ∧ d.has q.settled = .ok true ∧
        ∀ front k behind, q.settled.keys d = front ++ k :: behind → ∃ w, d.lookup front = some w ∧ w.length = 1 := by
  obtain ⟨s, hs, hmake⟩ := hmake
  obtain ⟨rest, hpath⟩ := List.head?_eq_some_iff.mp hs
  have hw := Query.parsed_iff.mp hq
  have hmem : s ∈ q.path := List.mem_of_mem_head? hs
  have hd : Path.deletes q.path = false := Path.any_eq_false_iff.mpr fun t ht =>
    hw.not_delete ht ⟨s, hmem, Or.inr (Or.inr (Or.inl hmake))⟩
  have hkey : ∀ t ∈ q.path, ∃ k, keyIn .null t.body = .ok k := fun t ht => by
    obtain ⟨k, hk, -⟩ := Query.exists_key hq hb ht .null
    exact ⟨k, hk⟩
  obtain ⟨k, hk⟩ := hkey s hmem
  have hset : ∀ d, Value.null.set q v = .ok d ↔
      (∀ x ∈ q.keys .null, x.Begins) ∧ d = Value.spine v (q.keys .null) := fun d => by
    rw [set_eq_assign hd hm, Query.keys, Query.remaining_of_root hroot, hpath]
    rw [hpath] at hkey
    exact assign_ok_iff_spine (by rw [hmake, Bool.or_true]) hk (Or.inl rfl) (List.forall_mem_cons.mp hkey).2
  refine ⟨?_, Query.settled_parsed hq, fun d h => ?_⟩
  · rw [← Query.begins_iff hroot hb .null]
    refine ⟨?_, fun h => ⟨_, (hset _).mpr ⟨h, rfl⟩⟩⟩
    rintro ⟨d, h⟩
    exact ((hset d).mp h).1
  have hread := Query.settled_readonly hd hm
  have hreadable : Readable (keyIn d) q.settled.remaining :=
    Query.readable (Query.settled_parsed hq) (Path.appends_of_not_writes (Query.checkReadonly_ok_iff.mp hread).1)
      (Query.settled_bracketFree hb)
  have hkeys : q.settled.keys d = Key.resolve none (q.keys .null) := by
    rw [Query.settled_keys hq hb, Query.keys_eq hb d .null]
  have hlookup : d.lookup (q.settled.keys d) = some v := by
    obtain ⟨-, -, _, _, _, hassign⟩ := set_ok h
    rw [hkeys, ← Key.resolve_blankFor (k := .current)]
    exact lookup_assign hassign
  refine ⟨get_of_lookup hread hreadable hlookup, ?_, fun front k behind hsplit => ?_⟩
  · rw [has_eq_isSome_lookup hread hreadable, hlookup]
    rfl
  · have hspine : d = Value.spine v (front ++ k :: behind) := by
      rw [← hsplit, hkeys, Value.spine_resolve]
      exact ((hset d).mp h).2
    rw [hsplit, hspine] at hlookup
    rw [hspine]
    exact Value.lookup_spine hlookup

/-- `$a.00.+.#.b` makes an object, two arrays and an object out of null, and the value is read at `a.00.0.#.b`. -/
theorem set_null_spine_nested :
    (Value.object [("a", .array [.array [.object [("b", .bool true)]]])]).get
        ⟨[⟨{}, .field "a", false⟩, ⟨{}, .index ['0', '0'], false⟩, ⟨{}, .index ['0'], false⟩, ⟨{}, .here, false⟩,
          ⟨{}, .field "b", false⟩], 0, by decide⟩ = .ok (.bool true) ∧
      ∃ w, (Value.object [("a", .array [.array [.object [("b", .bool true)]]])]).lookup [.name "a", .index 0] = some w ∧
        w.length = 1 := by
  have hread : Query.parse "$a.00.+.#.b" =
      .ok ⟨[⟨{ make := true }, .field "a", false⟩, ⟨{}, .index ['0', '0'], false⟩, ⟨{ append := true }, .append, false⟩,
        ⟨{}, .here, false⟩, ⟨{}, .field "b", false⟩], 0, by decide⟩ := rfl
  obtain ⟨hwritten, -, hspine⟩ := set_null_spine ⟨"$a.00.+.#.b", _, hread, rfl⟩ rfl
    (by simp [Query.BracketFree, Body.isBracket]) rfl ⟨_, rfl, rfl⟩ (.bool true)
  have hzero : Digits.value ['0', '0'] = 0 := rfl
  obtain ⟨d, hd⟩ := hwritten.mpr (by simp [hzero])
  obtain ⟨hget, -, hone⟩ := hspine d hd
  cases hd
  exact ⟨hget, hone [.name "a", .index 0] (.index 0) [.name "b"] rfl⟩

end TreeQuery
