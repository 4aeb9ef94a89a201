import TreeQuery.Proofs.Document.Concat
import TreeQuery.Proofs.Document.Keep

/-! # When a write succeeds

Without `$` and `+` a write creates nothing on its way, so it goes exactly where a read goes: it succeeds if the read of
all nodes but the last one finds a value, and if that value takes what is put there (`Value.Accepts`). Whether it does
depends on the last key alone, and on `=`. A write is refused for the sake of what is there (`Value.Occupied`) only at
the last node too; what goes wrong before it is a failure of another kind (`Blocked`). -/

namespace TreeQuery

variable {σ : Type} {key : Body σ → Except ReadError Key} {p behind : Path σ} {s : Segment σ} {v v' w d new : Value}
  {k : Key} {overwrite : Bool} {place text : String} {q r : Query} {spec : String}

/-! ### The last node -/

namespace Value

/-- Whether a value takes what is put at a key, without `$`. -/
def Accepts (overwrite : Bool) (v : Value) : Key → Prop
  | .current => v = null ∨ overwrite = true
  | .name name => ∃ fields, v = object fields ∧ (Fields.get? name fields = none ∨ overwrite = true)
  | .index i => (∃ items, v = array items ∧ i < items.length) ∨ i = 0 ∧ (v = null ∨ v = array [])
  | .append => v = null ∨ ∃ items, v = array items

/-- Whether something would be replaced at a key that only `=` may replace. An element of an array always may. -/
def Occupied (v : Value) : Key → Prop
  | .current => v ≠ null
  | .name name => ∃ fields, v = object fields ∧ (Fields.get? name fields).isSome = true
  | .index _ | .append => False

theorem isBlank_iff : v.isBlank = true ↔ v = null ∨ v = array [] := by
  constructor
  · exact isBlank_cases
  · rintro (rfl | rfl) <;> rfl

theorem put_object {fields : Fields Value} {name : String} :
    (object fields).put false overwrite place new (.name name) =
      if (Fields.get? name fields).isSome && !overwrite then .error (.implicitOverwrite place)
      else .ok (object (Fields.insert name new fields)) := rfl

theorem put_array {items : List Value} {i : Nat} (hblank : ¬(i = 0 ∧ (array items).isBlank = true)) :
    (array items).put false overwrite place new (.index i) =
      if i < items.length then .ok (array (items.set i new)) else .error (.missingKey (toString i)) := by
  rw [put, if_neg hblank]
  rfl

/-- A value is put at a key exactly if it takes it. -/
theorem put_ok_iff_accepts : (∃ v', v.put false overwrite place new k = .ok v') ↔ v.Accepts overwrite k := by
  cases k with
  | current => cases v <;> cases overwrite <;> simp [put, Accepts, isNull]
  | name name =>
    cases v with
    | object fields =>
      rw [put_object]
      cases hget : Fields.get? name fields <;> cases overwrite <;> simp [Accepts, hget]
    | null | bool | int | decimal | str | array => simp [put, Accepts, writableFields, bind, Except.bind]
  | index i =>
    rw [Accepts, ← isBlank_iff]
    by_cases hblank : i = 0 ∧ v.isBlank = true
    · rw [put, if_pos hblank]
      exact ⟨fun _ => Or.inr hblank, fun _ => ⟨_, rfl⟩⟩
    · rw [or_iff_left hblank]
      cases v with
      | array items =>
        rw [put_array hblank]
        by_cases hlt : i < items.length <;> simp [hlt]
      | null | bool | int | decimal | str | object =>
        rw [put, if_neg hblank]
        simp [writableItems, bind, Except.bind]
  | append => cases v <;> simp [put, Accepts, writableItems, bind, Except.bind, pure, Except.pure]

theorem put_refused_iff : v.put false overwrite place new k = .error (.implicitOverwrite text) ↔
    place = text ∧ overwrite = false ∧ v.Occupied k := by
  cases k with
  | current => cases v <;> cases overwrite <;> simp [put, Occupied, isNull]
  | name name =>
    cases v with
    | object fields =>
      rw [put_object]
      cases hget : Fields.get? name fields <;> cases overwrite <;> simp [Occupied, hget]
    | null | bool | int | decimal | str | array => simp [put, Occupied, writableFields, bind, Except.bind]
  | index i =>
    refine ⟨fun h => ?_, fun h => h.2.2.elim⟩
    by_cases hblank : i = 0 ∧ v.isBlank = true
    · rw [put, if_pos hblank] at h
      cases h
    · cases v with
      | array items =>
        rw [put_array hblank] at h
        split at h <;> cases h
      | null | bool | int | decimal | str | object =>
        rw [put, if_neg hblank] at h
        cases h
  | append => cases v <;> simp [put, Occupied, writableItems, bind, Except.bind, pure, Except.pure]

end Value

/-! ### The nodes before it -/

/-- Whether a write fails, and not for the sake of what it would replace. -/
def Blocked (result : Except Error Value) : Prop :=
  ∃ e, result = .error e ∧ ∀ text, e ≠ .write (.implicitOverwrite text)

theorem Blocked.map {result : Except Error Value} (h : Blocked result) (f : Value → Value) : Blocked (result.map f) := by
  obtain ⟨e, rfl, he⟩ := h
  exact ⟨e, rfl, he⟩

theorem Value.blocked_enter {blank : Except Error Value} {edit : Value → Except Error Value} (hc : k ≠ .current)
    (ha : k ≠ .append) (h : v.child? k = none) : Blocked (v.enter false blank edit k) := by
  obtain ⟨e, he, hwrite⟩ := enter_of_missing blank edit hc ha h
  refine ⟨.write e, he, fun text heq => ?_⟩
  injection heq with heq
  exact hwrite text heq

/-- Where a path without `$` leads to no value, no write goes on behind it. -/
theorem blocked_assign (hp : Readable key p) (hmake : ∀ s ∈ p, s.commands.make = false) (hbehind : behind ≠ [])
    (h : ∀ w, walk spec key p v ≠ .ok (some w)) : Blocked (assign key overwrite place new false (p ++ behind) v) := by
  induction p generalizing v with
  | nil => exact absurd rfl (h v)
  | cons s p ih =>
    obtain ⟨⟨k, hk, ha⟩, hp⟩ := List.forall_mem_cons.mp hp
    obtain ⟨hs, hmake⟩ := List.forall_mem_cons.mp hmake
    obtain ⟨next, rest, hnext⟩ := List.exists_cons_of_ne_nil (List.append_ne_nil_of_right_ne_nil p hbehind)
    -- The rest of the path is written at from the part that the read goes on with, so both end in the same way.
    have ih : ∀ {c : Value}, (∀ w, walk spec key p c ≠ .ok (some w)) →
        Blocked (assign key overwrite place new false (next :: rest) c) := fun hc => hnext ▸ ih hp hmake hc
    rw [List.cons_append, hnext, assign_cons_cons hk, hs, Bool.or_false]
    by_cases hc : k = .current
    · subst hc
      refine ih fun w hw => h w ?_
      rw [walk_cons hk]
      exact hw
    · cases hchild : v.child? k with
      | none => exact Value.blocked_enter hc ha hchild
      | some c =>
        rw [Value.enter_of_child? hchild]
        refine (ih fun w hw => h w ?_).map _
        rw [walk_cons hk, Value.select_of_child? hchild]
        exact hw

section
variable (hp : Readable key p) (hmake : ∀ t ∈ p, t.commands.make = false) (hs : s.commands.make = false)
  (hk : key s.body = .ok k)
include hp hmake hs hk

/-- A write goes as far as its path is read, and what it does there is up to the last node. -/
theorem assign_concat (spec : String) (overwrite : Bool) (place : String) (new v : Value) :
    (∃ w, walk spec key p v = .ok (some w) ∧ assign key overwrite place new false (p ++ [s]) v =
        ((w.put false overwrite place new k).mapError .write).map fun w' => Value.withPart (Path.keys key p) w' v) ∨
    (∀ w, walk spec key p v ≠ .ok (some w)) ∧ Blocked (assign key overwrite place new false (p ++ [s]) v) := by
  by_cases hwalk : ∃ w, walk spec key p v = .ok (some w)
  · obtain ⟨w, hw⟩ := hwalk
    refine Or.inl ⟨w, hw, ?_⟩
    rw [assign_append hmake (List.cons_ne_nil s []) hw, assign_single hk, hs, Bool.or_false]
  · rw [not_exists] at hwalk
    exact Or.inr ⟨hwalk, blocked_assign hp hmake (List.cons_ne_nil s []) hwalk⟩

theorem assign_ok_iff_accepts : (∃ v', assign key overwrite place new false (p ++ [s]) v = .ok v') ↔
    ∃ w, walk spec key p v = .ok (some w) ∧ w.Accepts overwrite k := by
  rcases assign_concat hp hmake hs hk spec overwrite place new v with ⟨w, hw, heq⟩ | ⟨hnone, e, he, -⟩
  · rw [heq, hw]
    simp only [Outcome.map_ok_iff, Outcome.mapError_ok_iff]
    constructor
    · rintro ⟨v', w', hput, -⟩
      exact ⟨w, rfl, Value.put_ok_iff_accepts.mp ⟨w', hput⟩⟩
    · rintro ⟨w₂, hw₂, haccepts⟩
      obtain rfl := Option.some.inj (Except.ok.inj hw₂)
      obtain ⟨w', hput⟩ := Value.put_ok_iff_accepts.mpr haccepts
      exact ⟨_, w', hput, rfl⟩
  · rw [he]
    exact ⟨nofun, fun ⟨w, hw, _⟩ => absurd hw (hnone w)⟩

theorem assign_refused_iff :
    assign key overwrite place new false (p ++ [s]) v = .error (.write (.implicitOverwrite text)) ↔
      place = text ∧ overwrite = false ∧ ∃ w, walk spec key p v = .ok (some w) ∧ w.Occupied k := by
  rcases assign_concat hp hmake hs hk spec overwrite place new v with ⟨w, hw, heq⟩ | ⟨hnone, e, he, hblocked⟩
  · rw [heq, hw, Outcome.map_error_iff, Outcome.mapError_error_iff]
    constructor
    · rintro ⟨e, hput, he⟩
      injection he with he
      subst he
      obtain ⟨hplace, hoverwrite, hoccupied⟩ := Value.put_refused_iff.mp hput
      exact ⟨hplace, hoverwrite, w, rfl, hoccupied⟩
    · rintro ⟨hplace, hoverwrite, w₂, hw₂, hoccupied⟩
      obtain rfl := Option.some.inj (Except.ok.inj hw₂)
      exact ⟨_, Value.put_refused_iff.mpr ⟨hplace, hoverwrite, hoccupied⟩, rfl⟩
  · rw [he]
    constructor
    · intro h
      exact absurd (Except.error.inj h) (hblocked text)
    · rintro ⟨-, -, w, hw, -⟩
      exact absurd hw (hnone w)

end

/-! ### Queries -/

namespace Query

/-- The query of all nodes but the last one, without `=`. A single node has no parent. -/
def parent? (q : Query) : Option Query := (ofPath? q.path.dropLast).map withoutOverwrite

/-- Whether `v` is the value in which the last node of a query is written. -/
def Parent (q : Query) (d v : Value) : Prop :=
  match q.parent? with
  | some r => d.has r = .ok true ∧ d.get r = .ok v
  | none => v = d

theorem parent?_eq_none_iff : q.parent? = none ↔ q.length = 1 := by
  have hlt := q.seq_lt
  have hlength : q.path.dropLast.length = q.path.length - 1 := List.length_dropLast
  rw [parent?, Option.map_eq_none_iff, ofPath?, length]
  by_cases h : 0 < q.path.dropLast.length
  · rw [dif_pos h]
    constructor
    · intro hnone
      cases hnone
    · intro hsingle
      omega
  · rw [dif_neg h]
    exact ⟨fun _ => by omega, fun _ => rfl⟩

theorem parent?_eq_some (h : q.parent? = some r) :
    ∃ front : Query, front.path = q.path.dropLast ∧ front.seq = 0 ∧ front.withoutOverwrite = r := by
  obtain ⟨front, hfront, rfl⟩ := Option.map_eq_some_iff.mp h
  obtain ⟨hpath, hseq⟩ := ofPath?_eq_some hfront
  exact ⟨front, hpath, hseq, rfl⟩

end Query

section
variable (hd : Path.deletes q.path = false) (hm : Path.moves q.path = false) (hmakes : Path.makes q.path = false)
  (ha : Path.appends q.path = false)
include hd hm hmakes ha

/-- The parent of a query that can be read is a query for reading. -/
theorem Query.parent?_readonly (hq : q.Parsed) (h : q.parent? = some r) : r.Parsed ∧ r.checkReadonly = .ok () := by
  obtain ⟨front, hpath, -, rfl⟩ := parent?_eq_some h
  have hnone : ∀ {f : Segment PlainPath → Bool}, q.path.any f = false → front.path.any f = false := by
    intro f hf
    rw [hpath, Path.any_eq_false_iff]
    intro s hs
    exact Path.any_eq_false_iff.mp hf s (q.path.dropLast_subset hs)
  have hcontinues := (parsed_iff.mp hq).continues.take (n := q.path.length - 1)
  rw [← List.dropLast_eq_take, ← hpath] at hcontinues
  have hparsed : front.Parsed := parsed_iff.mpr <| hcontinues.wellFormed front.path_ne_nil fun s hs =>
    Path.any_eq_false_iff.mp (hnone hm) s (List.mem_of_getLast? hs)
  rw [withoutOverwrite_eq (hnone hmakes)]
  exact ⟨forReading_parsed hparsed, forReading_readonly (hnone hd) (hnone hm) (hnone ha)⟩

theorem Query.parent_iff (hq : q.Parsed) : q.Parent d v ↔ walk q.spec (keyIn d) q.path.dropLast d = .ok (some v) := by
  rw [Parent]
  cases h : q.parent? with
  | none =>
    have hlength := parent?_eq_none_iff.mp h
    have hnil : q.path.dropLast = [] := by
      rw [← List.length_eq_zero_iff, List.length_dropLast]
      exact Nat.sub_eq_zero_of_le (Nat.le_of_eq hlength)
    rw [hnil]
    exact ⟨fun hv => by rw [hv]; rfl, fun hv => (Option.some.inj (Except.ok.inj hv)).symm⟩
  | some r =>
    have hreadonly := (parent?_readonly hd hm hmakes ha hq h).2
    obtain ⟨front, hpath, hseq, rfl⟩ := parent?_eq_some h
    dsimp only
    rw [found_iff hreadonly, walk_withoutOverwrite, remaining_of_root hseq, hpath, walk_ok_some_iff, walk_ok_some_iff]

end

/-- A query without brackets that creates nothing is written at exactly if the nodes before the last one lead to a value
    that takes what is put at the last one. The write is refused as an overwrite exactly if there is such a value, the
    last node is taken in it, and `=` is not written. -/
theorem set_ok_iff_accepts (hq : q.Parsed) (hroot : q.seq = 0) (hd : Path.deletes q.path = false)
    (hm : Path.moves q.path = false) (hmakes : Path.makes q.path = false) (ha : Path.appends q.path = false)
    (hb : q.BracketFree) (d new : Value) :
    (q.parent? = none ↔ q.length = 1) ∧ (∀ r, q.parent? = some r → r.Parsed ∧ r.checkReadonly = .ok ()) ∧
      ∃ k, keyIn d q.leaf.segment.body = .ok k ∧ k ≠ .append ∧
        ((∃ d₂, d.set q new = .ok d₂) ↔ ∃ v, q.Parent d v ∧ v.Accepts (Path.overwrites q.path) k) ∧
        ∀ text, d.set q new = .error (.write (.implicitOverwrite text)) ↔
          q.leaf.display = text ∧ Path.overwrites q.path = false ∧ ∃ v, q.Parent d v ∧ v.Occupied k := by
  have hremaining : q.remaining = q.path := Query.remaining_of_root hroot
  obtain ⟨front, s, hpath⟩ := q.exists_path_concat
  have hbody : s.body = q.leaf.segment.body := by
    refine Query.body_of_getLast? ?_
    rw [hremaining, hpath, List.getLast?_concat]
    rfl
  have hreadable : Readable (keyIn d) (front ++ [s]) := hpath ▸ hremaining ▸ Query.readable hq ha hb
  have hmake : ∀ t ∈ front ++ [s], t.commands.make = false := hpath ▸ Path.any_eq_false_iff.mp hmakes
  obtain ⟨hfront, hlast⟩ := List.forall_mem_append.mp hreadable
  obtain ⟨hfrontmake, hlastmake⟩ := List.forall_mem_append.mp hmake
  obtain ⟨k, hk, happend⟩ := hlast s List.mem_cons_self
  have hset : d.set q new =
      assign (keyIn d) (Path.overwrites q.path) q.leaf.display new false (front ++ [s]) d := by
    rw [set_eq_assign hd hm, hremaining, hroot, hpath]
    rfl
  refine ⟨Query.parent?_eq_none_iff, fun r => Query.parent?_readonly hd hm hmakes ha hq, k, hbody ▸ hk, happend, ?_⟩
  simp only [Query.parent_iff hd hm hmakes ha hq, hset, hpath, List.dropLast_concat]
  constructor
  · exact assign_ok_iff_accepts hfront hfrontmake (hlastmake s List.mem_cons_self) hk
  · intro text
    exact assign_refused_iff hfront hfrontmake (hlastmake s List.mem_cons_self) hk

/-- `a.b` is refused where `a` has a `b`, and written where `a` is an object without one. -/
theorem set_ok_iff_accepts_name :
    (Value.object [("a", .object [("b", .int 1)])]).set
        ⟨[⟨{}, .field "a", false⟩, ⟨{}, .field "b", false⟩], 0, by decide⟩ (.int 2) =
      .error (.write (.implicitOverwrite "a.@b")) ∧
      ∃ d₂, (Value.object [("a", .object [])]).set
        ⟨[⟨{}, .field "a", false⟩, ⟨{}, .field "b", false⟩], 0, by decide⟩ (.int 2) = .ok d₂ := by
  have hread : Query.parse "a.b" = .ok ⟨[⟨{}, .field "a", false⟩, ⟨{}, .field "b", false⟩], 0, by decide⟩ := rfl
  have hwrite := set_ok_iff_accepts ⟨"a.b", _, hread, rfl⟩ rfl rfl rfl rfl rfl (by simp [Query.BracketFree, Body.isBracket])
  obtain ⟨-, -, k, hk, -, -, hrefused⟩ := hwrite (.object [("a", .object [("b", .int 1)])]) (.int 2)
  obtain ⟨-, -, k', hk', -, haccepted, -⟩ := hwrite (.object [("a", .object [])]) (.int 2)
  cases hk
  cases hk'
  constructor
  · exact (hrefused _).mpr ⟨rfl, rfl, .object [("b", .int 1)], ⟨rfl, rfl⟩, _, rfl, rfl⟩
  · exact haccepted.mpr ⟨.object [], ⟨rfl, rfl⟩, _, rfl, Or.inl rfl⟩

end TreeQuery
