import Mathlib.Data.List.Nodup
import TreeQuery.Document.Leaves
import TreeQuery.Proofs.Document.Merge
import TreeQuery.Proofs.Document.Overwrite

/-! # Documents from their leaves

A document is what its leaves give when they are written one after another to nothing (`ofPairs_leaves`). Each leaf
is written along its names (`WritesTo`), which creates the objects on the way to it and overwrites nothing, so that
a run of writes (`Fills`) below a field fills this field alone. -/

namespace TreeQuery

variable {σ : Type} {Inner : List Char → σ → Prop} {names : List String} {name place : String} {make : Bool}
  {v w c c' d new : Value} {fields : Fields Value} {q : Query} {ps : List (List String × Value)}

/-! ### Paths of names -/

/-- The path of fields with these names, with or without `$` on the first one. -/
def Path.ofNames (make : Bool) : List String → Path σ
  | [] => []
  | name :: rest => ⟨{ make }, .field name, false⟩ :: ofNames false rest

theorem Path.ofNames_eq_map (names : List String) :
    (Path.ofNames false names : Path σ) = names.map fun name => ⟨{}, .field name, false⟩ := by
  induction names with
  | nil => rfl
  | cons name rest ih => rw [ofNames, ih, List.map_cons]

/-- Names that a path can be made of. -/
structure Nameable (names : List String) : Prop where
  ne_nil : names ≠ []
  no_empty : "" ∉ names
  length_lt : names.length < maxLength

theorem Path.mem_ofNames {s : Segment σ} (h : s ∈ Path.ofNames make names) :
    ∃ m, (m = true → make = true) ∧ ∃ name ∈ names, s = ⟨{ make := m }, .field name, false⟩ := by
  induction names generalizing make with
  | nil => cases h
  | cons name rest ih =>
    rcases List.mem_cons.mp h with rfl | h
    · exact ⟨make, id, name, List.mem_cons_self, rfl⟩
    · obtain ⟨m, hm, other, hmem, rfl⟩ := ih h
      exact ⟨m, fun hmt => (by cases hm hmt), other, List.mem_cons_of_mem _ hmem, rfl⟩

theorem Path.length_ofNames : (Path.ofNames make names : Path σ).length = names.length := by
  induction names generalizing make with
  | nil => rfl
  | cons name rest ih => rw [ofNames, List.length_cons, ih, List.length_cons]

theorem Path.ofNames_injective {names' : List String}
    (h : (Path.ofNames make names : Path σ) = Path.ofNames make names') : names = names' := by
  induction names generalizing make names' with
  | nil =>
    cases names' with
    | nil => rfl
    | cons => cases h
  | cons name rest ih =>
    cases names' with
    | nil => cases h
    | cons name' rest' =>
      obtain ⟨hs, hrest⟩ := List.cons.inj h
      cases hs
      rw [ih hrest]

theorem Path.ofNames_ne_nil (h : names ≠ []) : (Path.ofNames make names : Path σ) ≠ [] := by
  obtain ⟨name, rest, rfl⟩ := List.exists_cons_of_ne_nil h
  exact List.cons_ne_nil _ _

theorem Path.ofNames_pairwise : (Path.ofNames make names : Path σ).Pairwise Segment.MayFollow := by
  induction names generalizing make with
  | nil => exact .nil
  | cons name rest ih =>
    refine List.pairwise_cons.mpr ⟨fun s hs => ?_, ih⟩
    obtain ⟨m, hm, other, -, rfl⟩ := Path.mem_ofNames hs
    obtain rfl : m = false := Bool.eq_false_iff.mpr fun hmt => nomatch hm hmt
    exact ⟨⟨nofun, nofun, nofun, nofun⟩, rfl, nofun⟩

theorem Path.ofNames_lawful (h : "" ∉ names) : ∀ s ∈ (Path.ofNames make names : Path σ), s.Lawful Inner := by
  intro s hs
  obtain ⟨m, -, name, hname, rfl⟩ := Path.mem_ofNames hs
  exact ⟨fun he => h (he ▸ hname), ⟨nofun, ⟨nofun, nofun⟩⟩, ⟨nofun, fun _ => ⟨rfl, rfl⟩, nofun⟩, nofun⟩

theorem Path.ofNames_unmarked : ∀ s ∈ (Path.ofNames make names : Path σ).getLast?, s.marker = false := by
  intro s hs
  obtain ⟨m, -, name, -, rfl⟩ := Path.mem_ofNames (List.mem_of_getLast? hs)
  rfl

/-- A path of names obeys all rules. -/
theorem Nameable.wellFormed (h : Nameable names) : Path.WellFormed Inner (Path.ofNames make names) := by
  have hcontinues : Path.Continues Inner [] (Path.ofNames make names) := by
    refine ⟨Path.ofNames_lawful h.no_empty, by simp, Path.ofNames_pairwise, ?_⟩
    rw [Path.length_ofNames]
    simpa using h.length_lt
  exact hcontinues.wellFormed (Path.ofNames_ne_nil h.ne_nil) Path.ofNames_unmarked

theorem Path.canonical_ofNames : Path.canonical (Path.ofNames make names : Path σ) = Path.ofNames make names := by
  induction names generalizing make with
  | nil => rfl
  | cons name rest ih => exact congrArg (_ :: ·) ih

theorem Path.render_ofNames : Path.render (Path.ofNames false names : Path σ) = dotted names := by
  suffices h : ∀ i, Path.join (fun _ s => s.render) i (Path.ofNames false names : Path σ) = dotted names from h 0
  induction names with
  | nil => exact fun _ => rfl
  | cons name rest ih =>
    intro i
    cases rest with
    | nil => rfl
    | cons other rest => exact congrArg (escapeName name.toList ++ '.' :: ·) (ih (i + 1))

/-- The text of too many names is refused. -/
theorem parse_dotted_tooLong (hne : names ≠ []) (hempty : "" ∉ names) (hlength : maxLength ≤ names.length) :
    Query.parse (String.ofList (dotted names)) = .error (.tooDeep maxLength) := by
  have hlawful : ∀ s ∈ (Path.ofNames false names : Path PlainPath), s.Lawful Bracketed := Path.ofNames_lawful hempty
  have hspelled := Path.spelledBy_render (Path.ofNames_ne_nil hne) Path.ofNames_unmarked fun s hs => (hlawful s hs).body
  rw [Path.canonical_ofNames, Path.render_ofNames] at hspelled
  exact Query.parse_tooLong hspelled hlawful Path.ofNames_pairwise (Path.length_ofNames.symm ▸ hlength)

/-- The query that leads along names from the root, with or without `$` on its first segment. -/
structure Query.Leads (make : Bool) (names : List String) (q : Query) : Prop where
  path : q.path = Path.ofNames make names
  seq : q.seq = 0

section
variable (h : Nameable names)
include h

theorem Nameable.parse_dotted : ∃ q, Query.parse (String.ofList (dotted names)) = .ok q ∧ q.Leads false names := by
  obtain ⟨q, hparse, hpath⟩ := Query.parse_path_spec h.wellFormed
  rw [Path.spec, Path.render_ofNames] at hparse
  rw [Path.canonical_ofNames] at hpath
  exact ⟨q, hparse, hpath, (Query.parse_ok_iff.mp hparse).2⟩

/-- No two lists of names are written in the same way. -/
theorem Nameable.dotted_injective {names' : List String} (h' : Nameable names') (hd : dotted names = dotted names') :
    names = names' := by
  obtain ⟨q, hq, hpath, -⟩ := h.parse_dotted
  obtain ⟨q', hq', hpath', -⟩ := h'.parse_dotted
  rw [hd, hq'] at hq
  cases hq
  exact Path.ofNames_injective (hpath.symm.trans hpath')

theorem Query.Leads.buildQuery (hq : q.Leads false names) : (Value.buildQuery q).Leads true names := by
  obtain ⟨hpath, hseq⟩ := hq
  have hmade : q.root.path.modify q.root.seq (Segment.edit (·.insert .make)) = Path.ofNames true names := by
    obtain ⟨name, rest, rfl⟩ := List.exists_cons_of_ne_nil h.ne_nil
    simp [Query.root, Query.moveTo, hpath, Path.ofNames, Segment.edit, Commands.insert]
  have hwellFormed : Path.WellFormed Bracketed (Path.ofNames true names) := h.wellFormed
  obtain ⟨made, hparse, hmadepath⟩ := Query.parse_path_spec hwellFormed
  have hadd : q.root.addCommand .make = .ok (made.moveTo 0) := by
    rw [Query.addCommand, Query.editCommands, hmade, hparse]
    rfl
  rw [Value.buildQuery, hadd]
  rw [Path.canonical_ofNames] at hmadepath
  exact ⟨hmadepath, Nat.zero_min _⟩

end

/-! ### Reading along names -/

theorem Query.Leads.spec (hq : q.Leads false names) : q.spec = String.ofList (dotted names) := by
  rw [Query.spec, hq.path, Path.spec, Path.render_ofNames]

theorem Path.any_ofNames {f : Segment σ → Bool}
    (hf : ∀ m name, (m = true → make = true) → f ⟨{ make := m }, .field name, false⟩ = false) :
    (Path.ofNames make names).any f = false := by
  refine Path.any_eq_false_iff.mpr fun s hs => ?_
  obtain ⟨m, hm, name, -, rfl⟩ := Path.mem_ofNames hs
  exact hf m name hm

theorem Path.keys_ofNames {key : Body σ → Except ReadError Key} (hkey : ∀ name, key (.field name) = .ok (.name name)) :
    Path.keys key (Path.ofNames make names) = names.map Key.name := by
  induction names generalizing make with
  | nil => rfl
  | cons name rest ih => rw [ofNames, Path.keys_cons (k := .name name) (hkey name) nofun, ih, List.map_cons]

theorem Query.Leads.remaining (hq : q.Leads make names) : q.remaining = Path.ofNames make names := by
  rw [Query.remaining_of_root hq.seq, hq.path]

theorem Query.Leads.any (hq : q.Leads make names) {f : Segment PlainPath → Bool}
    (hf : ∀ m name, (m = true → make = true) → f ⟨{ make := m }, .field name, false⟩ = false) :
    q.path.any f = false := by
  rw [hq.path]
  exact Path.any_ofNames hf

section
variable (hq : q.Leads false names)
include hq

theorem Query.Leads.readonly : q.checkReadonly = .ok () := by
  have hreads : ∀ m (name : String), (m = true → false = true) → Commands.isWrite { make := m } = false := by
    intro m _ hm
    simp [Commands.isWrite, Bool.eq_false_iff.mpr fun hmt => Bool.false_ne_true (hm hmt)]
  exact Query.checkReadonly_ok_iff.mpr ⟨hq.any hreads, hq.any fun _ _ _ => rfl⟩

theorem Query.Leads.readable (d : Value) : Readable (keyIn d) q.remaining := by
  intro s hs
  rw [hq.remaining] at hs
  obtain ⟨m, -, name, -, rfl⟩ := Path.mem_ofNames hs
  exact ⟨.name name, rfl, by simp⟩

theorem Query.Leads.keys (d : Value) : q.keys d = names.map Key.name := by
  rw [Query.keys, hq.remaining, Path.keys_ofNames fun _ => rfl]

/-- A query along names reads what is at these names. -/
theorem Query.Leads.get (h : d.place? names = some w) : d.get q = .ok w :=
  get_of_lookup hq.readonly (hq.readable d) (hq.keys d ▸ h)

theorem Query.Leads.has (d : Value) : d.has q = .ok (d.place? names).isSome := by
  rw [has_eq_isSome_lookup hq.readonly (hq.readable d), hq.keys d]
  rfl

end

/-! ### Writing along names -/

/-- Writing `new` along names gives `v'` if what is missing is created and nothing may be overwritten. -/
def WritesTo (names : List String) (new v v' : Value) : Prop :=
  ∀ (root : Value) (place : String), assign (keyIn root) false place new true (Path.ofNames false names) v = .ok v'

theorem writesTo_nil : WritesTo [] new v new := fun _ _ => rfl

theorem writesTo_single (hf : Value.writableFields true v = .ok fields) (hfree : Fields.get? name fields = none) :
    WritesTo [name] new v (.object (Fields.insert name new fields)) := by
  intro root place
  refine (assign_single (k := .name name) rfl).trans (Outcome.mapError_ok_iff.mpr ?_)
  refine Outcome.bind_ok_iff.mpr ⟨fields, hf, if_neg ?_⟩
  simp [hfree]

/-- A write along more than one name goes on in the field of the first one, which begins as an empty object. -/
theorem writesTo_cons (hf : Value.writableFields true v = .ok fields) (hne : names ≠ [])
    (h : WritesTo names new ((Fields.get? name fields).getD (.object [])) c) :
    WritesTo (name :: names) new v (.object (Fields.insert name c fields)) := by
  intro root place
  obtain ⟨other, rest, rfl⟩ := List.exists_cons_of_ne_nil hne
  refine (assign_cons_cons (k := .name name) rfl).trans ?_
  rw [Value.enter_name]
  refine Outcome.bind_ok_iff.mpr ⟨fields, Outcome.mapError_ok_iff.mpr hf, ?_⟩
  refine Outcome.bind_ok_iff.mpr ⟨(Fields.get? name fields).getD (.object []), ?_, ?_⟩
  · cases Fields.get? name fields <;> rfl
  · exact Outcome.bind_ok_iff.mpr ⟨c, h root place, rfl⟩

/-- Null is written to as an object without fields is. -/
theorem WritesTo.of_empty (hne : names ≠ []) (h : WritesTo names new (.object []) w) : WritesTo names new .null w := by
  intro root place
  rw [← h root place]
  obtain ⟨name, rest, rfl⟩ := List.exists_cons_of_ne_nil hne
  cases rest <;> rfl

/-- A write along names, where nothing else is written behind them, is one of `build`. -/
theorem WritesTo.set (h : WritesTo names new v w) (hne : names ≠ []) (hq : q.Leads true names) : v.set q new = .ok w := by
  have hdeletes : Path.deletes q.path = false := hq.any fun _ _ _ => rfl
  have hmoves : Path.moves q.path = false := hq.any fun _ _ _ => rfl
  have hoverwrites : Path.overwrites q.path = false := hq.any fun _ _ _ => rfl
  rw [set_eq_assign hdeletes hmoves, hoverwrites, hq.remaining, ← h v q.leaf.display]
  obtain ⟨name, rest, rfl⟩ := List.exists_cons_of_ne_nil hne
  cases rest <;> simp [Path.ofNames, assign]

/-! ### Runs of writes -/

/-- Writing values along names, one after another, makes `v'` of `v`. -/
inductive Fills : List (List String × Value) → Value → Value → Prop where
  | nil (v : Value) : Fills [] v v
  | cons {names : List String} {new v w v' : Value} {ps : List (List String × Value)} :
    WritesTo names new v w → Fills ps w v' → Fills ((names, new) :: ps) v v'

theorem Fills.append {qs : List (List String × Value)} {u : Value} (h : Fills ps u v) (h' : Fills qs v w) :
    Fills (ps ++ qs) u w := by
  induction h with
  | nil => exact h'
  | cons hw _ ih => exact .cons hw (ih h')

theorem Fills.of_empty (h : Fills ps (.object []) w) (hne : ps ≠ []) (hps : ∀ p ∈ ps, p.1 ≠ []) : Fills ps .null w := by
  cases h with
  | nil => exact absurd rfl hne
  | cons hw hrest =>
    rw [List.forall_mem_cons] at hps
    exact .cons (hw.of_empty hps.1) hrest

/-- Names behind a name in front. -/
def behind (name : String) (p : List String × Value) : List String × Value := (name :: p.1, p.2)

/-- Writes below a field are writes to its value. -/
theorem Fills.behind (h : Fills ps c c') (hne : ∀ p ∈ ps, p.1 ≠ []) (name : String) (fields : Fields Value) :
    Fills (ps.map (TreeQuery.behind name)) (.object (Fields.insert name c fields))
      (.object (Fields.insert name c' fields)) := by
  induction h with
  | nil => exact .nil _
  | @cons names new c w c' ps hw _ ih =>
    rw [List.forall_mem_cons] at hne
    have hget : Fields.get? name (Fields.insert name c fields) = some c := by
      rw [Fields.get?_insert, if_pos rfl]
    refine .cons (w := .object (Fields.insert name w fields)) ?_ (ih hne.2)
    rw [← Fields.insert_insert name c w fields]
    refine writesTo_cons rfl hne.1 ?_
    rw [hget]
    exact hw

/-- Writes that give a value, or the value itself, give the field that they are below. -/
theorem Fills.field (h : Fills ps (.object []) c) (hne : ps ≠ []) (hps : ps = [([], c)] ∨ ∀ p ∈ ps, p.1 ≠ [])
    (hfree : Fields.get? name fields = none) :
    Fills (ps.map (TreeQuery.behind name)) (.object fields) (.object (Fields.insert name c fields)) := by
  rcases hps with rfl | hps
  · exact .cons (writesTo_single rfl hfree) (.nil _)
  · cases h with
    | nil => exact absurd rfl hne
    | cons hw hrest =>
      rw [List.forall_mem_cons] at hps
      refine .cons (writesTo_cons rfl hps.1 ?_) (hrest.behind hps.2 name fields)
      rw [hfree]
      exact hw

/-! ### The leaves of a value -/

namespace Value

mutual

/-- The leaves of a value with the names that lead to them. -/
def leafPairs : Value → List (List String × Value)
  | object fields => if fields.isEmpty then [([], object [])] else leafPairsOf fields
  | v => [([], v)]

def leafPairsOf : List (String × Value) → List (List String × Value)
  | [] => []
  | (name, v) :: rest => (leafPairs v).map (behind name) ++ leafPairsOf rest

end

theorem leafPairs_object_cons (f : String × Value) (fields : Fields Value) :
    leafPairs (object (f :: fields)) = leafPairsOf (f :: fields) := rfl

theorem leafPairsOf_cons (f : String × Value) (fields : Fields Value) :
    leafPairsOf (f :: fields) = (leafPairs f.2).map (behind f.1) ++ leafPairsOf fields := rfl

theorem mem_leafPairsOf {p : List String × Value} :
    p ∈ leafPairsOf fields ↔ ∃ f ∈ fields, ∃ r ∈ leafPairs f.2, p = behind f.1 r := by
  induction fields with
  | nil => exact iff_of_false List.not_mem_nil nofun
  | cons f fields ih =>
    have hhead : p ∈ (leafPairs f.2).map (behind f.1) ↔ ∃ r ∈ leafPairs f.2, p = behind f.1 r :=
      List.mem_map.trans (exists_congr fun _ => and_congr_right' eq_comm)
    rw [leafPairsOf_cons, List.mem_append, hhead, ih, List.exists_mem_cons_iff]

theorem ne_nil_of_mem_leafPairsOf : ∀ p ∈ leafPairsOf fields, p.1 ≠ [] := by
  intro p hp
  obtain ⟨f, -, r, -, rfl⟩ := mem_leafPairsOf.mp hp
  exact List.cons_ne_nil _ _

theorem leafPairs_ne_nil (v : Value) : leafPairs v ≠ [] := by
  induction v using Value.induction with
  | null | bool | int | decimal | str | array => exact List.cons_ne_nil _ _
  | object fields ih =>
    cases fields with
    | nil => exact List.cons_ne_nil _ _
    | cons f fields =>
      rw [leafPairs_object_cons, leafPairsOf_cons]
      exact List.append_ne_nil_of_left_ne_nil (fun h => ih f List.mem_cons_self (List.map_eq_nil_iff.mp h)) _

/-- A value is its own leaf, unless it is an object with fields. -/
theorem leafPairs_eq_or (v : Value) : leafPairs v = [([], v)] ∨ ∀ p ∈ leafPairs v, p.1 ≠ [] := by
  cases v with
  | null | bool | int | decimal | str | array => exact Or.inl rfl
  | object fields =>
    cases fields with
    | nil => exact Or.inl rfl
    | cons f fields => exact Or.inr ne_nil_of_mem_leafPairsOf

/-- Fields are filled by the leaves of their values, in order. -/
theorem fills_leafPairsOf {before : Fields Value} (hs : Fields.Sorted (before ++ fields))
    (h : ∀ f ∈ fields, Fills (leafPairs f.2) (object []) f.2) :
    Fills (leafPairsOf fields) (object before) (object (before ++ fields)) := by
  induction fields generalizing before with
  | nil =>
    rw [List.append_nil]
    exact .nil _
  | cons f fields ih =>
    rw [List.forall_mem_cons] at h
    have hlt : ∀ g ∈ before, g.1 < f.1 := fun g hg => (List.pairwise_append.mp hs).2.2 g hg f List.mem_cons_self
    have hfree : Fields.get? f.1 before = none :=
      Fields.get?_eq_none_iff.mpr fun g hg heq => String.lt_irrefl f.1 (heq ▸ hlt g hg)
    have hfield := h.1.field (leafPairs_ne_nil f.2) (leafPairs_eq_or f.2) hfree
    have happend : before ++ f :: fields = before ++ [f] ++ fields := List.append_cons before f fields
    rw [Fields.insert_of_forall_lt hlt] at hfield
    rw [leafPairsOf_cons, happend]
    exact hfield.append (ih (happend ▸ hs) h.2)

/-- The leaves of a value fill an empty object to that value. -/
theorem fills_leafPairs (hv : v.Ordered) : Fills (leafPairs v) (object []) v := by
  induction v using Value.induction with
  | null | bool | int | decimal | str | array => exact .cons writesTo_nil (.nil _)
  | object fields ih =>
    cases fields with
    | nil => exact .cons writesTo_nil (.nil _)
    | cons f fields =>
      obtain ⟨hsorted, hfields⟩ := ordered_object_iff.mp hv
      have hfills : Fills (leafPairsOf (f :: fields)) (object []) (object ([] ++ f :: fields)) :=
        fills_leafPairsOf hsorted fun g hg => ih g hg (hfields g hg)
      exact hfills

/-- Each leaf is at its names. -/
theorem place?_of_mem_leafPairs {p : List String × Value} (hv : v.Ordered) (h : p ∈ leafPairs v) :
    v.place? p.1 = some p.2 := by
  induction v using Value.induction generalizing p with
  | null | bool | int | decimal | str | array =>
    obtain rfl := List.mem_singleton.mp h
    rfl
  | object fields ih =>
    cases fields with
    | nil =>
      obtain rfl := List.mem_singleton.mp h
      rfl
    | cons f fields =>
      obtain ⟨hsorted, hfields⟩ := ordered_object_iff.mp hv
      obtain ⟨g, hg, r, hr, rfl⟩ := mem_leafPairsOf.mp h
      rw [behind, place?_object, Fields.get?_of_mem hsorted hg]
      exact ih g hg (hfields g hg) hr

/-- The leaves come in the order of their names. -/
theorem leafPairs_pairwise (hv : v.Ordered) : ((leafPairs v).map Prod.fst).Pairwise (· < ·) := by
  induction v using Value.induction with
  | null | bool | int | decimal | str | array => exact List.pairwise_singleton _ _
  | object fields ih =>
    obtain ⟨hsorted, hfields⟩ := ordered_object_iff.mp hv
    clear hv
    suffices h : ((leafPairsOf fields).map Prod.fst).Pairwise (· < ·) by
      cases fields with
      | nil => exact List.pairwise_singleton _ _
      | cons f fields => exact h
    induction fields with
    | nil => exact .nil
    | cons f fields ihs =>
      rw [List.forall_mem_cons] at ih hfields
      obtain ⟨hlt, hsorted⟩ := Fields.sorted_cons.mp hsorted
      rw [leafPairsOf_cons, List.map_append, List.map_map]
      refine List.pairwise_append.mpr ⟨?_, ihs ih.2 hsorted hfields.2, ?_⟩
      · have hcons : (Prod.fst ∘ behind f.1 : List String × Value → List String) = (f.1 :: ·) ∘ Prod.fst := rfl
        rw [hcons, ← List.map_map]
        exact (ih.1 hfields.1).map _ fun _ _ h => List.cons_lt_cons_iff.mpr (Or.inr ⟨rfl, h⟩)
      · intro _ hx _ hy
        obtain ⟨_, hp, rfl⟩ := List.mem_map.mp hx
        obtain ⟨_, hr, rfl⟩ := List.mem_map.mp hy
        obtain ⟨g, hg, s, -, rfl⟩ := mem_leafPairsOf.mp hr
        exact List.cons_lt_cons_iff.mpr (Or.inl (hlt g hg))

/-- No two leaves have the same names. -/
theorem leafPairs_nodup (hv : v.Ordered) : ((leafPairs v).map Prod.fst).Nodup := by
  refine List.Pairwise.imp (fun {names names'} hlt => ?_) (leafPairs_pairwise hv)
  rintro rfl
  exact List.lt_irrefl names hlt

/-! ### Listing the leaves -/

/-- Whether a leaf can be listed: no name on the way to it is empty. -/
def named (p : List String × Value) : Bool := !p.1.contains ""

theorem named_iff {p : List String × Value} : named p = true ↔ "" ∉ p.1 := by
  simp [named]

theorem named_behind (name : String) (p : List String × Value) : named (behind name p) = (name != "" && named p) := by
  rw [Bool.eq_iff_iff, named_iff, Bool.and_eq_true, bne_iff_ne, named_iff, behind, List.mem_cons, not_or]
  exact and_congr_left' ne_comm

theorem leafPlacesOf_eq {place : List String}
    (h : ∀ f ∈ fields, ∀ place, place ≠ [] →
      leafPlaces place f.2 = ((leafPairs f.2).filter named).map fun p => place ++ p.1) :
    leafPlacesOf place fields = ((leafPairsOf fields).filter named).map fun p => place ++ p.1 := by
  induction fields with
  | nil => rfl
  | cons f fields ih =>
    rw [List.forall_mem_cons] at h
    rw [leafPlacesOf, leafPairsOf_cons, List.filter_append, List.map_append, ih h.2, List.filter_map]
    congr 1
    split
    · rename_i hname
      have hnone : named ∘ behind f.1 = fun _ => false := by
        funext p
        rw [Function.comp_apply, named_behind, hname]
        rfl
      rw [hnone, List.filter_false]
      rfl
    · rename_i hname
      have hnamed : named ∘ behind f.1 = named := by
        funext p
        rw [Function.comp_apply, named_behind, bne_iff_ne.mpr hname, Bool.true_and]
      rw [hnamed, h.1 _ (by simp), List.map_map]
      refine List.map_congr_left fun p _ => ?_
      exact List.append_assoc place [f.1] p.1

/-- The places listed are those of the leaves without an empty name. -/
theorem leafPlaces_eq {place : List String} (hp : place ≠ []) :
    leafPlaces place v = ((leafPairs v).filter named).map fun p => place ++ p.1 := by
  induction v using Value.induction generalizing place with
  | null | bool | int | decimal | str | array => simp [leafPlaces, leafPairs, named, hp]
  | object fields ih =>
    cases fields with
    | nil => simp [leafPlaces, leafPairs, named, hp]
    | cons f fields =>
      rw [leafPlaces, if_neg (by simp), leafPairs_object_cons]
      exact leafPlacesOf_eq fun g hg place hp => ih g hg hp

theorem leafPlaces_root (fields : Fields Value) :
    leafPlaces [] (object fields) = ((leafPairsOf fields).filter named).map Prod.fst := by
  cases fields with
  | nil => rfl
  | cons f fields => exact leafPlacesOf_eq fun g _ place hp => leafPlaces_eq hp

/-- Where no name is empty, all leaves are listed. -/
theorem leafPlaces_object (hd : (object fields).Ordered)
    (hn : ∀ names, ((object fields).place? names).isSome → "" ∉ names) :
    leafPlaces [] (object fields) = (leafPairsOf fields).map Prod.fst := by
  rw [leafPlaces_root]
  cases fields with
  | nil => rfl
  | cons f fields =>
    have hall : ∀ p ∈ leafPairsOf (f :: fields), named p = true := fun p hp =>
      named_iff.mpr (hn p.1 (by rw [place?_of_mem_leafPairs hd hp]; rfl))
    rw [List.filter_eq_self.mpr hall]

/-! ### Documents from their leaves -/

/-- A leaf as it is listed: its query and its value. -/
def Listed (p : List String × Value) (l : Query × Value) : Prop := l.1.Leads false p.1 ∧ l.2 = p.2

/-- Leaves at places that can be written are listed, and each query reads its leaf. -/
theorem exists_listed (h : ∀ p ∈ ps, Nameable p.1 ∧ d.place? p.1 = some p.2) :
    ∃ ls : List (Query × Value), List.Forall₂ Listed ps ls ∧
      (ps.map Prod.fst).mapM (fun place => Query.parse (String.ofList (dotted place))) = .ok (ls.map Prod.fst) ∧
      (ls.map Prod.fst).mapM (fun q => (d.get q).map (q, ·)) = .ok ls := by
  induction ps with
  | nil => exact ⟨[], .nil, rfl, rfl⟩
  | cons p ps ih =>
    rw [List.forall_mem_cons] at h
    obtain ⟨⟨hnames, hplace⟩, h⟩ := h
    obtain ⟨ls, hlisted, hparse, hget⟩ := ih h
    obtain ⟨q, hq, hleads⟩ := hnames.parse_dotted
    refine ⟨(q, p.2) :: ls, .cons ⟨hleads, rfl⟩ hlisted, ?_, ?_⟩
    · exact Outcome.mapM_cons_ok_iff.mpr ⟨q, _, hq, hparse, rfl⟩
    · refine Outcome.mapM_cons_ok_iff.mpr ⟨(q, p.2), ls, ?_, hget, rfl⟩
      rw [hleads.get hplace]
      rfl

/-- Writes along different names are all made, and make what they make one after another. -/
theorem build_of_fills {ls : List (Query × Value)} {seen : List String} (h : Fills ps v w)
    (hl : List.Forall₂ Listed ps ls) (hp : ∀ p ∈ ps, Nameable p.1) (hnodup : (ps.map Prod.fst).Nodup)
    (hseen : ∀ p ∈ ps, String.ofList (dotted p.1) ∉ seen) : build seen v ls = .ok w := by
  induction h generalizing ls seen with
  | nil =>
    cases hl
    rfl
  | @cons names new v w v' ps hw _ ih =>
    obtain _ | @⟨_, ⟨q, _⟩, _, ls, ⟨hleads, rfl⟩, hl⟩ := hl
    rw [List.forall_mem_cons] at hp hseen
    obtain ⟨hnotin, hnodup⟩ := List.nodup_cons.mp hnodup
    have hdeletes : Path.deletes q.path = false := hleads.any fun _ _ _ => rfl
    have hmoves : Path.moves q.path = false := hleads.any fun _ _ _ => rfl
    have happends : Path.appends q.path = false := hleads.any fun _ _ _ => rfl
    have hfresh : seen.contains q.spec = false := by
      rw [hleads.spec]
      simpa using hseen.1
    have hset := hw.set hp.1.ne_nil (Query.Leads.buildQuery hp.1 hleads)
    have hrest : ∀ p ∈ ps, String.ofList (dotted p.1) ∉ q.spec :: seen := by
      intro p hmem hin
      rcases List.mem_cons.mp hin with heq | hin
      · rw [hleads.spec] at heq
        have hnames := (hp.2 p hmem).dotted_injective hp.1 (String.ofList_injective heq)
        exact hnotin (hnames ▸ List.mem_map_of_mem hmem)
      · exact hseen.2 p hmem hin
    simp only [build, hdeletes, hmoves, happends, hfresh]
    exact Outcome.bind_ok_iff.mpr ⟨w, hset, ih hl hp.2 hnodup hrest⟩

/-- A document that is an object is what its leaves give when they are written one after another, if each of its
    places can be written as a path. -/
theorem ofPairs_leaves (hd : (object fields).Ordered)
    (hn : ∀ names, ((object fields).place? names).isSome → "" ∉ names ∧ names.length ≤ 254) :
    ∃ qs ls, (object fields).leaves = .ok qs ∧ qs.mapM (fun q => ((object fields).get q).map (q, ·)) = .ok ls ∧
      ofPairs ls = .ok (object fields) := by
  cases fields with
  | nil => exact ⟨[], [], rfl, rfl, rfl⟩
  | cons f fields =>
    have hplaces : ∀ p ∈ leafPairsOf (f :: fields), Nameable p.1 ∧ (object (f :: fields)).place? p.1 = some p.2 := by
      intro p hp
      have hplace := place?_of_mem_leafPairs hd hp
      obtain ⟨hempty, hlength⟩ := hn p.1 (by rw [hplace]; rfl)
      exact ⟨⟨ne_nil_of_mem_leafPairsOf p hp, hempty, Nat.lt_succ_of_le hlength⟩, hplace⟩
    obtain ⟨ls, hlisted, hparse, hget⟩ := exists_listed hplaces
    refine ⟨ls.map Prod.fst, ls, ?_, hget, ?_⟩
    · rw [leaves, leafPlaces_object hd fun names h => (hn names h).1]
      exact hparse
    · have hfills : Fills (leafPairsOf (f :: fields)) null (object (f :: fields)) :=
        (fills_leafPairs hd).of_empty (leafPairs_ne_nil _) ne_nil_of_mem_leafPairsOf
      have hbuild : build [] null ls = .ok (object (f :: fields)) :=
        build_of_fills hfills hlisted (fun p hp => (hplaces p hp).1) (leafPairs_nodup hd) fun _ _ => List.not_mem_nil
      rw [ofPairs, hbuild]
      rfl

/-- An empty object under a name made of digits and null under one with a point in it are leaves. -/
theorem ofPairs_leaves_escaped :
    ∃ qs ls, (object [("1", object []), ("a.b", null)]).leaves = .ok qs ∧
      qs.mapM (fun q => ((object [("1", object []), ("a.b", null)]).get q).map (q, ·)) = .ok ls ∧
      ofPairs ls = .ok (object [("1", object []), ("a.b", null)]) := by
  have hordered : (object [("1", object []), ("a.b", null)]).Ordered :=
    (ordered_empty.insert (v := null) trivial "a.b").insert ordered_empty "1"
  refine ofPairs_leaves hordered fun names h => ?_
  rcases names with _ | ⟨name, _ | ⟨other, rest⟩⟩
  · simp
  · have hname : "1" = name ∨ "a.b" = name := by
      by_contra hnot
      rw [not_or] at hnot
      simp [place?_object, Fields.get?, hnot] at h
    rcases hname with rfl | rfl <;> simp
  · rw [place?_object, Fields.get?, Fields.get?] at h
    split at h
    · cases h
    · split at h <;> cases h

end Value

end TreeQuery
