import Mathlib.Data.List.Forall2
import TreeQuery.Proofs.Document.Leaves

/-! # Documents built in any order

To plant a value at names is to write it there, below objects that are created where nothing stands on the way
(`Vacant.writesTo`). Values planted at names that part somewhere do not meet: the one leaves the names of the other
vacant (`Vacant.plant_of_apart`), and it does not matter which one comes first (`plant_comm`). A document built from
such pairs is thus the same in every order of them (`ofPairs_apart`), and a value is read from it as if it were the
last one planted. -/

namespace TreeQuery

/-! ### Lists that part -/

/-- Neither list is the beginning of the other one. -/
def Apart {α : Type} (xs ys : List α) : Prop := ¬xs <+: ys ∧ ¬ys <+: xs

section
variable {α : Type} {x y : α} {xs ys : List α}

theorem Apart.symm (h : Apart xs ys) : Apart ys xs := ⟨h.2, h.1⟩

theorem Apart.ne_nil (h : Apart xs ys) : xs ≠ [] := by
  rintro rfl
  exact h.1 List.nil_prefix

theorem Apart.ne (h : Apart xs ys) : xs ≠ ys := by
  rintro rfl
  exact h.1 List.prefix_rfl

theorem apart_cons : Apart (x :: xs) (y :: ys) ↔ (x = y → Apart xs ys) := by
  simp only [Apart, List.cons_prefix_cons, not_and, eq_comm (a := y)]
  exact ⟨fun h heq => ⟨h.1 heq, h.2 heq⟩, fun h => ⟨fun heq => (h heq).1, fun heq => (h heq).2⟩⟩

end

/-- A query at the root of a path that is made of names alone, without commands. -/
structure Query.OfNames (q : Query) : Prop where
  parsed : q.Parsed
  root : q.seq = 0
  segment : ∀ s ∈ q.path, ∃ name, s = ⟨{}, .field name, false⟩

/-- The names in a path. -/
def Query.names (q : Query) : List String := q.path.map (·.body.text)

namespace Query.OfNames
variable {q : Query} (h : q.OfNames)
include h

theorem path : q.path = q.names.map fun name => ⟨{}, .field name, false⟩ := by
  have hsame : ∀ s ∈ q.path, (⟨{}, .field s.body.text, false⟩ : Segment PlainPath) = s := by
    intro s hs
    obtain ⟨name, rfl⟩ := h.segment s hs
    rfl
  rw [names, List.map_map]
  exact ((List.map_congr_left hsame).trans q.path.map_id').symm

theorem leads : q.Leads false q.names := ⟨h.path.trans (Path.ofNames_eq_map _).symm, h.root⟩

theorem nameable : Nameable q.names := by
  have hwellFormed := parsed_iff.mp h.parsed
  refine ⟨fun hnil => ?_, fun hempty => ?_, ?_⟩
  · exact hwellFormed.nonempty (List.map_eq_nil_iff.mp hnil)
  · obtain ⟨s, hs, htext⟩ := List.mem_map.mp hempty
    obtain ⟨name, rfl⟩ := h.segment s hs
    exact hwellFormed.bodies _ hs htext
  · rw [names, List.length_map]
    exact hwellFormed.length_lt

end Query.OfNames

namespace Value

variable {v w c new new' : Value} {fields : Fields Value} {name k : String} {names names' ks rest : List String}
  {ps ps' : List (List String × Value)}

/-! ### Planting a value -/

/-- The value with `new` at names, below objects that are created where nothing is. -/
def plant (new : Value) : List String → Value → Value
  | [], _ => new
  | name :: rest, object fields =>
    object (Fields.insert name (plant new rest ((Fields.get? name fields).getD (object []))) fields)
  | _ :: _, v => v

/-- Nothing is at the names, and nothing but objects on the way to them. -/
inductive Vacant : List String → Value → Prop where
  | single {name : String} {fields : Fields Value} : Fields.get? name fields = none → Vacant [name] (object fields)
  | cons {name : String} {names : List String} {fields : Fields Value} : names ≠ [] →
    Vacant names ((Fields.get? name fields).getD (object [])) → Vacant (name :: names) (object fields)

theorem vacant_empty (hne : names ≠ []) : Vacant names (object []) := by
  induction names with
  | nil => exact absurd rfl hne
  | cons name rest ih =>
    by_cases hrest : rest = []
    · subst hrest
      exact .single rfl
    · exact .cons hrest (ih hrest)

theorem Vacant.ne_nil (h : Vacant names v) : names ≠ [] := by
  cases h <;> exact List.cons_ne_nil _ _

/-- Planting at vacant names is a write to them. -/
theorem Vacant.writesTo (h : Vacant names v) (new : Value) : WritesTo names new v (plant new names v) := by
  induction h with
  | single hfree => exact writesTo_single rfl hfree
  | cons hne _ ih => exact writesTo_cons rfl hne ih

/-- Names that part can be planted at in any order. -/
theorem plant_comm (h : Apart names names') :
    plant new names (plant new' names' v) = plant new' names' (plant new names v) := by
  induction names generalizing names' v with
  | nil => exact absurd rfl h.ne_nil
  | cons name rest ih =>
    obtain ⟨name', rest', rfl⟩ := List.exists_cons_of_ne_nil h.symm.ne_nil
    cases v with
    | null | bool | int | decimal | str | array => rfl
    | object fields =>
      rw [apart_cons] at h
      -- Either both go on in one field, or they set different ones.
      rw [plant, plant, plant, plant, Fields.get?_insert, Fields.get?_insert]
      by_cases heq : name = name'
      · subst heq
        rw [if_pos rfl, if_pos rfl, Option.getD_some, Option.getD_some, Fields.insert_insert, Fields.insert_insert,
          ih (h rfl)]
      · rw [if_neg (Ne.symm heq), if_neg heq, Fields.insert_comm (Ne.symm heq)]

/-- Planting leaves names vacant that part from its own. -/
theorem Vacant.plant_of_apart (h : Vacant names v) (ha : Apart names names') (new : Value) :
    Vacant names (plant new names' v) := by
  induction h generalizing names' with
  | @single name fields hfree =>
    obtain ⟨name', rest', rfl⟩ := List.exists_cons_of_ne_nil ha.symm.ne_nil
    have hname : name' ≠ name := fun heq => (apart_cons.mp ha heq.symm).ne_nil rfl
    refine .single ?_
    rw [Fields.get?_insert, if_neg hname, hfree]
  | @cons name names fields hne h ih =>
    obtain ⟨name', rest', rfl⟩ := List.exists_cons_of_ne_nil ha.symm.ne_nil
    refine .cons hne ?_
    rw [Fields.get?_insert]
    split
    · rename_i heq
      subst heq
      exact ih (apart_cons.mp ha rfl)
    · exact h

/-! ### What is planted -/

theorem place?_plant_cons : (plant new (name :: names) (object fields)).place? (name :: rest) =
    (plant new names ((Fields.get? name fields).getD (object []))).place? rest := by
  rw [plant, place?_object, Fields.get?_insert, if_pos rfl, Option.bind_some]

theorem place?_plant_of_ne (hne : name ≠ k) :
    (plant new (name :: names) (object fields)).place? (k :: rest) = (object fields).place? (k :: rest) := by
  rw [plant, place?_object, place?_object, Fields.get?_insert, if_neg hne]

theorem Vacant.place?_append (h : Vacant names v) (new : Value) (rest : List String) :
    (plant new names v).place? (names ++ rest) = new.place? rest := by
  induction h with
  | single => exact place?_plant_cons
  | cons _ _ ih => exact place?_plant_cons.trans ih

/-- The places that a value planted at names gives rise to: those on the way to it and those inside it. -/
def GivesRise (names : List String) (new : Value) (ks : List String) : Prop :=
  ks <+: names ∨ ∃ rest, ks = names ++ rest ∧ (new.place? rest).isSome

theorem givesRise_nil : GivesRise [] new ks ↔ (new.place? ks).isSome := by
  constructor
  · rintro (h | ⟨rest, rfl, h⟩)
    · rw [List.prefix_nil.mp h]
      rfl
    · exact h
  · exact fun h => Or.inr ⟨ks, rfl, h⟩

theorem givesRise_cons : GivesRise (name :: names) new (k :: ks) ↔ name = k ∧ GivesRise names new ks := by
  unfold GivesRise
  simp only [List.cons_prefix_cons, List.cons_append, List.cons.injEq, and_assoc, exists_and_left, ← and_or_left]
  exact and_congr_left' eq_comm

/-- Besides what it gives rise to, planting a value leaves the places that there are. -/
theorem Vacant.isSome_place? (h : Vacant names v) (new : Value) :
    ((plant new names v).place? ks).isSome ↔ (v.place? ks).isSome ∨ GivesRise names new ks := by
  induction h generalizing ks with
  | @single name fields hfree =>
    cases ks with
    | nil => exact iff_of_true rfl (Or.inl rfl)
    | cons k ks =>
      rw [givesRise_cons, givesRise_nil]
      by_cases heq : name = k
      · subst heq
        rw [place?_plant_cons, place?_object, hfree]
        simp [plant]
      · rw [place?_plant_of_ne heq, or_iff_left fun h => heq h.1]
  | @cons name names fields hne _ ih =>
    cases ks with
    | nil => exact iff_of_true rfl (Or.inl rfl)
    | cons k ks =>
      rw [givesRise_cons]
      by_cases heq : name = k
      · subst heq
        rw [place?_plant_cons, ih, and_iff_right rfl, place?_object]
        cases Fields.get? name fields with
        | some c => rfl
        | none =>
          -- An object that is created has no place but its own, and that one is on the way.
          have hrise : ((object []).place? ks).isSome → GivesRise names new ks := fun h =>
            Or.inl (isSome_place?_empty.mp h ▸ List.nil_prefix)
          exact (or_iff_right_of_imp hrise).trans (or_iff_right Bool.false_ne_true).symm
      · rw [place?_plant_of_ne heq, or_iff_left fun h => heq h.1]

/-! ### Planting one value after another -/

/-- The value with values planted at names one after another. -/
def plantAll (ps : List (List String × Value)) (v : Value) : Value := ps.foldl (fun v p => plant p.2 p.1 v) v

theorem Vacant.plantAll (h : Vacant names v) (hp : ∀ p ∈ ps, Apart names p.1) : Vacant names (plantAll ps v) := by
  induction ps generalizing v with
  | nil => exact h
  | cons p ps ih =>
    rw [List.forall_mem_cons] at hp
    exact ih (h.plant_of_apart hp.1 p.2) hp.2

theorem plantAll_perm (hapart : ps.Pairwise fun p r => Apart p.1 r.1) (hp : ps.Perm ps') :
    plantAll ps v = plantAll ps' v := by
  induction hp generalizing v with
  | nil => rfl
  | cons p _ ih => exact ih (List.pairwise_cons.mp hapart).2
  | swap p r ps =>
    have hpr : Apart p.1 r.1 := ((List.pairwise_cons.mp hapart).1 p List.mem_cons_self).symm
    exact congrArg (plantAll ps) (plant_comm hpr)
  | trans hp _ ih ih' => exact (ih hapart).trans (ih' ((hp.pairwise_iff Apart.symm).mp hapart))

section
variable (hv : ∀ p ∈ ps, Vacant p.1 v) (hapart : ps.Pairwise fun p r => Apart p.1 r.1)
include hv hapart

/-- Where all names are vacant and part from each other, each value that is planted is a write. -/
theorem fills_plantAll : Fills ps v (plantAll ps v) := by
  induction ps generalizing v with
  | nil => exact .nil v
  | cons p ps ih =>
    rw [List.forall_mem_cons] at hv
    obtain ⟨hp, hapart⟩ := List.pairwise_cons.mp hapart
    exact .cons (hv.1.writesTo p.2) (ih (fun r hr => (hv.2 r hr).plant_of_apart (hp r hr).symm p.2) hapart)

theorem isSome_place?_plantAll :
    ((plantAll ps v).place? ks).isSome ↔ (v.place? ks).isSome ∨ ∃ p ∈ ps, GivesRise p.1 p.2 ks := by
  induction ps generalizing v with
  | nil => exact (or_iff_left fun ⟨_, hp, _⟩ => List.not_mem_nil hp).symm
  | cons p ps ih =>
    rw [List.forall_mem_cons] at hv
    obtain ⟨hp, hapart⟩ := List.pairwise_cons.mp hapart
    have hrest := ih (fun r hr => (hv.2 r hr).plant_of_apart (hp r hr).symm p.2) hapart
    rw [List.exists_mem_cons_iff, ← or_assoc, ← hv.1.isSome_place?]
    exact hrest

theorem place?_plantAll {p : List String × Value} (hp : p ∈ ps) : (plantAll ps v).place? p.1 = some p.2 := by
  -- The order does not matter, so this value may as well be the last one planted.
  obtain ⟨before, after, rfl⟩ := List.append_of_mem hp
  have hperm : (before ++ p :: after).Perm (before ++ after ++ [p]) :=
    List.perm_middle.trans (List.perm_append_singleton p _).symm
  obtain ⟨-, -, hlast⟩ := List.pairwise_append.mp ((hperm.pairwise_iff Apart.symm).mp hapart)
  have hvacant : Vacant p.1 (plantAll (before ++ after) v) :=
    (hv p hp).plantAll fun r hr => (hlast r hr p List.mem_cons_self).symm
  have hplace := hvacant.place?_append p.2 []
  rw [List.append_nil] at hplace
  rw [plantAll_perm hapart hperm, plantAll, List.foldl_append]
  exact hplace

end

/-! ### Building in any order -/

theorem isNull_of_place? (h : v.place? names = some w) (hne : names ≠ []) : v.isNull = false := by
  cases v with
  | null =>
    obtain ⟨name, rest, rfl⟩ := List.exists_cons_of_ne_nil hne
    cases h
  | bool | int | decimal | str | array | object => rfl

variable {pairs : List (Query × Value)}

/-- A pair by the names in its path. -/
def byNames (pair : Query × Value) : List String × Value := (pair.1.names, pair.2)

section
variable (hq : ∀ pair ∈ pairs, pair.1.OfNames)
include hq

theorem nameable_byNames : ∀ p ∈ pairs.map byNames, Nameable p.1 := by
  intro p hp
  obtain ⟨pair, hpair, rfl⟩ := List.mem_map.mp hp
  exact (hq pair hpair).nameable

theorem vacant_byNames : ∀ p ∈ pairs.map byNames, Vacant p.1 (object []) := fun p hp =>
  vacant_empty (nameable_byNames hq p hp).ne_nil

variable (hapart : pairs.Pairwise fun pair other => Apart pair.1.path other.1.path)
include hapart

theorem pairwise_byNames : (pairs.map byNames).Pairwise fun p r => Apart p.1 r.1 := by
  refine List.pairwise_map.mpr (List.Pairwise.imp_of_mem (fun {pair other} hp ho h => ?_) hapart)
  rw [(hq pair hp).path, (hq other ho).path] at h
  exact ⟨fun hbegins => h.1 (hbegins.map _), fun hbegins => h.2 (hbegins.map _)⟩

theorem ofPairs_eq_plantAll : ofPairs pairs = .ok (plantAll (pairs.map byNames) (object [])) := by
  cases pairs with
  | nil => rfl
  | cons pair pairs =>
    have hvacant := vacant_byNames hq
    have hpairwise := pairwise_byNames hq hapart
    have hfills := (fills_plantAll hvacant hpairwise).of_empty (List.cons_ne_nil _ _) fun p hp => (hvacant p hp).ne_nil
    have hlisted : List.Forall₂ Listed ((pair :: pairs).map byNames) (pair :: pairs) :=
      List.forall₂_map_left_iff.mpr (List.forall₂_same.mpr fun other hother => ⟨(hq other hother).leads, rfl⟩)
    have hnodup : (((pair :: pairs).map byNames).map Prod.fst).Nodup :=
      List.pairwise_map.mpr (hpairwise.imp Apart.ne)
    have hbuild := build_of_fills hfills hlisted (nameable_byNames hq) hnodup fun _ _ => List.not_mem_nil
    have hhead := place?_plantAll hvacant hpairwise List.mem_cons_self
    rw [ofPairs, hbuild, Outcome.ok_bind, isNull_of_place? hhead (hvacant _ List.mem_cons_self).ne_nil]
    rfl

end

/-- Pairs whose paths are made of names that part from each other can be built in any order. The result has each value at
    its query, and besides the objects on the way to these values and the places inside them it has nothing. -/
theorem ofPairs_apart (hq : ∀ pair ∈ pairs, pair.1.OfNames)
    (hapart : pairs.Pairwise fun pair other => Apart pair.1.path other.1.path) :
    ∃ d, ofPairs pairs = .ok d ∧ (∀ pairs', pairs'.Perm pairs → ofPairs pairs' = .ok d) ∧
      (∀ pair ∈ pairs, d.get pair.1 = .ok pair.2) ∧
      ∀ names, (d.place? names).isSome ↔ names = [] ∨ ∃ pair ∈ pairs, names <+: pair.1.names ∨
        ∃ rest, names = pair.1.names ++ rest ∧ (pair.2.place? rest).isSome := by
  have hvacant := vacant_byNames hq
  have hpairwise := pairwise_byNames hq hapart
  refine ⟨plantAll (pairs.map byNames) (object []), ofPairs_eq_plantAll hq hapart, ?_, ?_, ?_⟩
  · intro pairs' hperm
    have hq' : ∀ pair ∈ pairs', pair.1.OfNames := fun pair hpair => hq pair (hperm.mem_iff.mp hpair)
    rw [ofPairs_eq_plantAll hq' ((hperm.pairwise_iff Apart.symm).mpr hapart),
      plantAll_perm hpairwise (hperm.map byNames).symm]
  · intro pair hpair
    exact (hq pair hpair).leads.get (place?_plantAll hvacant hpairwise (List.mem_map_of_mem hpair))
  · intro names
    rw [isSome_place?_plantAll hvacant hpairwise, isSome_place?_empty]
    simp only [List.mem_map, exists_exists_and_eq_and]
    rfl

/-- The order of `a.b` and `a.\1` does not matter, and both bring about one object. -/
theorem ofPairs_apart_shared :
    ∃ d, ofPairs [(⟨[⟨{}, .field "a", false⟩, ⟨{}, .field "b", false⟩], 0, by decide⟩, null),
          (⟨[⟨{}, .field "a", false⟩, ⟨{}, .field "1", false⟩], 0, by decide⟩, object [("x", int 2)])] = .ok d ∧
      ofPairs [(⟨[⟨{}, .field "a", false⟩, ⟨{}, .field "1", false⟩], 0, by decide⟩, object [("x", int 2)]),
          (⟨[⟨{}, .field "a", false⟩, ⟨{}, .field "b", false⟩], 0, by decide⟩, null)] = .ok d ∧
      d.get ⟨[⟨{}, .field "a", false⟩, ⟨{}, .field "b", false⟩], 0, by decide⟩ = .ok null ∧
      (d.place? ["a", "1", "x"]).isSome ∧ ¬(d.place? ["a", "x"]).isSome := by
  have hb : Query.parse "a.b" = .ok ⟨[⟨{}, .field "a", false⟩, ⟨{}, .field "b", false⟩], 0, by decide⟩ := rfl
  have h1 : Query.parse "a.\\1" = .ok ⟨[⟨{}, .field "a", false⟩, ⟨{}, .field "1", false⟩], 0, by decide⟩ := rfl
  have hq : ∀ pair ∈ ([(⟨[⟨{}, .field "a", false⟩, ⟨{}, .field "b", false⟩], 0, by decide⟩, null),
      (⟨[⟨{}, .field "a", false⟩, ⟨{}, .field "1", false⟩], 0, by decide⟩, object [("x", int 2)])] :
        List (Query × Value)), pair.1.OfNames := by
    refine List.forall_mem_cons.mpr ⟨⟨⟨_, _, hb, rfl⟩, rfl, by simp⟩, List.forall_mem_singleton.mpr ?_⟩
    exact ⟨⟨_, _, h1, rfl⟩, rfl, by simp⟩
  obtain ⟨d, hd, hperm, hget, hplaces⟩ := ofPairs_apart hq (List.pairwise_pair.mpr ⟨by decide, by decide⟩)
  refine ⟨d, hd, hperm _ (.swap _ _ _), hget _ List.mem_cons_self, ?_, ?_⟩
  · exact (hplaces _).mpr (Or.inr ⟨_, List.mem_cons_of_mem _ List.mem_cons_self, Or.inr ⟨["x"], rfl, rfl⟩⟩)
  · rw [hplaces]
    simp [Query.names, Body.text]

end Value

end TreeQuery
