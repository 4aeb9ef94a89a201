import TreeQuery.Proofs.Document.Remove
import TreeQuery.Proofs.Query.Consistent

/-! # What a write keeps

Without `=`, a write puts its value where nothing or null is (`Value.put_fresh`), and on its way it makes containers of
null and fills empty arrays. None of these is a scalar, so every scalar that could be read before the write can be read
after it (`get_scalar_of_set`). Only an index at the end of a path replaces what is there. -/

namespace TreeQuery

variable {σ : Type} {key : Body σ → Except ReadError Key} {p : Path σ} {s : Segment σ} {v v' w d d₂ new : Value}
  {k : Key} {ks : List Key} {make : Bool} {place : String} {q r : Query}

/-! ### The last segment -/

/-- The body at the end of a query. -/
theorem Query.getLast?_path (q : Query) : (q.path.map Segment.body).getLast? = some q.leaf.segment.body := by
  have hlt := q.seq_lt
  obtain ⟨s, hs⟩ : ∃ s, q.path[q.path.length - 1]? = some s := ⟨_, List.getElem?_eq_getElem (by omega)⟩
  rw [List.getLast?_map, List.getLast?_eq_getElem?, hs, leaf, segment_moveTo hs]
  rfl

theorem Query.body_of_getLast? {s : Segment PlainPath} (hs : s ∈ q.remaining.getLast?) :
    s.body = q.leaf.segment.body := by
  have hlast : s ∈ q.path.getLast? := by
    rw [remaining, List.getLast?_drop, if_neg (Nat.not_le.mpr q.seq_lt)] at hs
    exact hs
  have hbody := q.getLast?_path
  rw [List.getLast?_map, hlast] at hbody
  exact Option.some.inj hbody

namespace Value

/-! ### One segment without `=` -/

/-- Whether a value is neither null nor a container. -/
def isScalar : Value → Bool
  | null | array _ | object _ => false
  | bool _ | int _ | decimal _ | str _ => true

theorem Slot.not_isScalar {f : Value → Value} (h : Slot make v k f) : v.isScalar = false := by
  cases h with
  | name h => rcases writableFields_cases h with rfl | ⟨rfl, -⟩ <;> rfl
  | first h => rcases isBlank_cases h with rfl | rfl <;> rfl
  | index h => rcases writableItems_cases h with rfl | ⟨rfl, -⟩ <;> rfl
  | append h => rcases writableItems_cases h with rfl | ⟨rfl, -⟩ <;> rfl

/-- A slot is in no scalar, so a scalar is kept if it is outside the slot, or if what is put there keeps it. -/
theorem Slot.lookup_scalar {f : Value → Value} (h : Slot make v k f) (c : Value) (hw : w.isScalar = true)
    (hpart : ∀ part rest, v.child? (k.within (some v)) = some part → part.lookup rest = some w → c.lookup rest = some w)
    (hlookup : v.lookup ks = some w) : (f c).lookup ks = some w := by
  have hreplaces := h.replaces c
  cases ks with
  | nil =>
    obtain rfl := Option.some.inj hlookup
    exact absurd hw (Bool.not_eq_true _ ▸ h.not_isScalar)
  | cons x ks =>
    rw [lookup_cons] at hlookup ⊢
    obtain ⟨part, hchild, hrest⟩ := Option.bind_eq_some_iff.mp hlookup
    by_cases hx : x = k.within (some v)
    · subst hx
      rw [hreplaces.part]
      exact hpart part ks hchild hrest
    · rw [hreplaces.others x hx, hchild]
      exact hrest

theorem not_lookup_null_scalar (hw : w.isScalar = true) : null.lookup ks ≠ some w := by
  intro h
  cases ks with
  | nil =>
    cases h
    cases hw
  | cons x ks =>
    rw [lookup_cons, child?_null] at h
    cases h

/-- Without `=`, a value is put in the place of null or where nothing is, unless it is put at an index. -/
theorem put_fresh (hk : ∀ i, k ≠ .index i) (h : v.put make false place new k = .ok v') :
    k = .current ∧ v = null ∧ v' = new ∨
      k ≠ .current ∧ ∃ f, Slot make v k f ∧ v' = f new ∧ v.child? (k.within (some v)) = none := by
  cases k with
  | index i => exact absurd rfl (hk i)
  | current =>
    cases v with
    | null => exact Or.inl ⟨rfl, rfl, put_current h⟩
    | bool | int | decimal | str | array | object => cases h
  | name name =>
    obtain ⟨fields, hfields, h⟩ := Outcome.bind_ok_iff.mp h
    cases hget : Fields.get? name fields with
    | some old =>
      rw [hget] at h
      cases h
    | none =>
      rw [hget] at h
      cases h
      refine Or.inr ⟨nofun, _, .name hfields name, rfl, ?_⟩
      rw [Key.within_of_ne (by simp), writableFields_ok hfields, child?_object, hget]
  | append =>
    obtain ⟨items, hitems, h⟩ := Outcome.bind_ok_iff.mp h
    cases h
    exact Or.inr ⟨nofun, _, .append hitems, rfl, child?_within_append v⟩

end Value

/-! ### A path without `=` -/

/-- A write without `=` keeps the scalars that keys lead to, unless the last key of its path is an index. -/
theorem lookup_scalar_of_assign (hp : p ≠ []) (hlast : ∀ s ∈ p.getLast?, ∀ i, key s.body ≠ .ok (.index i))
    (h : assign key false place new make p v = .ok v') (hw : w.isScalar = true) (hlookup : v.lookup ks = some w) :
    v'.lookup ks = some w := by
  induction p generalizing make v v' ks with
  | nil => exact absurd rfl hp
  | cons s p ih =>
    cases p with
    | nil =>
      obtain ⟨k, hk, h⟩ := Outcome.bind_ok_iff.mp h
      have hk := Outcome.mapError_ok_iff.mp hk
      have hindex : ∀ i, k ≠ .index i := fun i hi => hlast s rfl i (hi ▸ hk)
      rcases Value.put_fresh hindex (Outcome.mapError_ok_iff.mp h) with ⟨-, rfl, -⟩ | ⟨-, f, hslot, rfl, hnone⟩
      · exact absurd hlookup (Value.not_lookup_null_scalar hw)
      · refine hslot.lookup_scalar new hw (fun part rest hpart => ?_) hlookup
        rw [hnone] at hpart
        cases hpart
    | cons next rest =>
      have hnext : next :: rest ≠ [] := List.cons_ne_nil next rest
      obtain ⟨k, hk, ⟨-, hrest⟩ | ⟨-, f, part, c, hslot, hentered, hrest, rfl, -⟩⟩ := assign_cons h
      · exact ih hnext hlast hrest hlookup
      · refine hslot.lookup_scalar c hw (fun found ks hfound hscalar => ih hnext hlast hrest ?_) hlookup
        rcases hentered with hpart | ⟨hnone, -⟩
        · obtain rfl := Option.some.inj (hpart.symm.trans hfound)
          exact hscalar
        · rw [hnone] at hfound
          cases hfound

/-! ### Queries without `=` -/

/-- A write without `=` that ends with a name, `+` or `#` keeps every scalar that can be read. -/
theorem get_scalar_of_set (ho : Path.overwrites q.path = false) (hindex : ∀ digits, q.leaf.segment.body ≠ .index digits)
    (hbracket : q.leaf.segment.body.isBracket = false) (h : d.set q new = .ok d₂) (hb : r.BracketFree)
    (hw : w.isScalar = true) (hget : d.get r = .ok w) : d₂.get r = .ok w := by
  obtain ⟨hd, hm, -⟩ := set_ok h
  rw [set_eq_assign hd hm, ho] at h
  obtain ⟨hread, found, hwalk, rfl⟩ := Value.get_ok_iff.mp hget
  obtain ⟨w, rfl⟩ : ∃ w, found = some w := by
    cases found with
    | some w => exact ⟨w, rfl⟩
    | none => cases hw
  have hlast : ∀ s ∈ q.remaining.getLast?, ∀ i, keyIn d s.body ≠ .ok (.index i) := by
    intro s hs i
    rw [Query.body_of_getLast? hs]
    cases hbody : q.leaf.segment.body with
    | field | here | append => exact nofun
    | index digits => exact absurd hbody (hindex digits)
    | bracket raw inner =>
      rw [hbody] at hbracket
      cases hbracket
  have hkeys : ∀ s ∈ r.remaining, keyIn d s.body = keyIn d₂ s.body := fun s hs =>
    keyIn_eq (hb s (List.mem_of_mem_drop hs)) d d₂
  obtain ⟨hreadable, hlookup⟩ := walk_ok_some_iff.mp hwalk
  have hafter := lookup_scalar_of_assign q.remaining_ne_nil hlast h hw hlookup
  rw [Path.keys_congr hkeys] at hafter
  refine Value.get_ok_iff.mpr ⟨hread, some w, walk_ok_some_iff.mpr ⟨fun s hs => ?_, hafter⟩, rfl⟩
  rw [← hkeys s hs]
  exact hreadable s hs

/-- `$a.b` makes an object of the null at `a`, and what is beside it is kept. -/
theorem get_scalar_of_set_created :
    (Value.object [("a", .object [("b", .int 1)]), ("c", .str "x")]).get ⟨[⟨{}, .field "c", false⟩], 0, by decide⟩ =
      .ok (.str "x") := by
  have hset : (Value.object [("a", .null), ("c", .str "x")]).set
      ⟨[⟨{ make := true }, .field "a", false⟩, ⟨{}, .field "b", false⟩], 0, by decide⟩ (.int 1) =
      .ok (.object [("a", .object [("b", .int 1)]), ("c", .str "x")]) := rfl
  refine get_scalar_of_set rfl ?_ rfl hset (by simp [Query.BracketFree, Body.isBracket]) rfl rfl
  intro digits h
  cases h

end TreeQuery
