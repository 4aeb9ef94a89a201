import TreeQuery.Proofs.Document.Leaves

/-! # What a merge holds and where it fails

A merge holds the places of both documents and no others (`merge_places`). Two documents clash at a place where
both have a value, these are not both objects and not equal. A merge fails exactly if there is a clash, and its error is
that of the first one (`merge_error`). No clash is below another one, so that the first one in the order of the
fields is also the first one met. -/

namespace TreeQuery

variable {place names : List String} {name : String}

/-- The place that the error of a merge names. -/
def MergeError.path : MergeError → String
  | incompatibleTypes path _ _ | clashingKeys path | unsupportedArrayMerge path => path

/-- The error with left and right exchanged. -/
def MergeError.swap : MergeError → MergeError
  | incompatibleTypes path left right => incompatibleTypes path right left
  | e => e

namespace Value

variable {a b l r m v w v' w' : Value} {own fields : Fields Value} {e : MergeError}

/-! ### Places of a merge -/

/-- A merge has the places of both documents. What only one of them has is there as it is; what both have is an
    object in both and in the merge, or one value in all three. -/
theorem merge_places (h : merge a b = .ok m) (names : List String) :
    ((m.place? names).isSome ↔ (a.place? names).isSome ∨ (b.place? names).isSome) ∧
      (b.place? names = none → m.place? names = a.place? names) ∧
      (a.place? names = none → m.place? names = b.place? names) ∧
      ∀ v w, a.place? names = some v → b.place? names = some w → ∃ u, m.place? names = some u ∧
        (v.isObject = true ∧ w.isObject = true ∧ u.isObject = true ∨
          v.isObject = false ∧ w.isObject = false ∧ v.same w = true ∧ v.same u = true ∧ w.same u = true) := by
  have hjoins := mergeAt_joins h names
  refine ⟨?_, hjoins.left, hjoins.right, fun v w hv hw => ?_⟩
  · cases ha : a.place? names with
    | none => simp [hjoins.right ha]
    | some v =>
      obtain ⟨u, hu, -⟩ := hjoins.alike_left ha
      simp [Option.mem_def.mp hu]
  · obtain ⟨u, hu, hvu, hwu⟩ := hjoins.both v hv w hw
    refine ⟨u, hu, ?_⟩
    cases hobject : u.isObject with
    | true => exact Or.inl ⟨hvu.isObject.trans hobject, hwu.isObject.trans hobject, rfl⟩
    | false =>
      have hv : v.isObject = false := hvu.isObject.trans hobject
      have hw : w.isObject = false := hwu.isObject.trans hobject
      exact Or.inr ⟨hv, hw, (hvu.trans hwu.symm).same hv, hvu.same hv, hwu.same hw⟩

/-- Below an object that both have, a merge has the decimal of both and the null of one. -/
theorem merge_places_nested :
    merge (object [("o", object [("a", decimal ⟨10, 1⟩)])]) (object [("o", object [("a", decimal ⟨1, 0⟩), ("c", null)])]) =
        .ok (object [("o", object [("a", decimal ⟨10, 1⟩), ("c", null)])]) ∧
      (object [("o", object [("a", decimal ⟨10, 1⟩), ("c", null)])]).place? ["o", "c"] = some null ∧
      ∃ u, (object [("o", object [("a", decimal ⟨10, 1⟩), ("c", null)])]).place? ["o", "a"] = some u ∧
        (decimal ⟨10, 1⟩).same u = true ∧ (decimal ⟨1, 0⟩).same u = true := by
  have hmerge : merge (object [("o", object [("a", decimal ⟨10, 1⟩)])])
      (object [("o", object [("a", decimal ⟨1, 0⟩), ("c", null)])]) =
    .ok (object [("o", object [("a", decimal ⟨10, 1⟩), ("c", null)])]) := rfl
  obtain ⟨-, -, hright, -⟩ := merge_places hmerge ["o", "c"]
  obtain ⟨-, -, -, hboth⟩ := merge_places hmerge ["o", "a"]
  obtain ⟨u, hu, ⟨hobject, -⟩ | ⟨-, -, -, hleft, hother⟩⟩ := hboth _ _ rfl rfl
  · cases hobject
  · exact ⟨hmerge, hright rfl, u, hu, hleft, hother⟩

/-! ### Clashes -/

/-- Two documents clash where they have `v` and `w`, which are not both objects and not equal. -/
structure Clash (a b : Value) (names : List String) (v w : Value) : Prop where
  left : a.place? names = some v
  right : b.place? names = some w
  not_objects : ¬(v.isObject = true ∧ w.isObject = true)
  not_same : v.same w = false

/-- The clash that comes first in the order of the fields. -/
structure FirstClash (a b : Value) (names : List String) (v w : Value) : Prop extends Clash a b names v w where
  first : ∀ {names' v' w'}, Clash a b names' v' w' → names = names' ∨ names < names'

theorem clash_iff : Clash a b names v w ↔ a.place? names = some v ∧ b.place? names = some w ∧ ¬Alike v w := by
  constructor
  · rintro ⟨hv, hw, hobjects, hsame⟩
    refine ⟨hv, hw, ?_⟩
    rintro (hboth | hs)
    · exact hobjects hboth
    · exact Bool.false_ne_true (hsame.symm.trans hs)
  · rintro ⟨hv, hw, halike⟩
    exact ⟨hv, hw, fun h => halike (Or.inl h), Bool.eq_false_iff.mpr fun h => halike (Or.inr h)⟩

theorem Clash.symm (h : Clash a b names v w) : Clash b a names w v := by
  obtain ⟨hv, hw, halike⟩ := clash_iff.mp h
  exact clash_iff.mpr ⟨hw, hv, fun h => halike h.symm⟩

theorem FirstClash.symm (h : FirstClash a b names v w) : FirstClash b a names w v :=
  ⟨h.toClash.symm, fun h' => h.first h'.symm⟩

/-- Only one clash is the first one. -/
theorem FirstClash.unique {names' : List String} (h : FirstClash a b names v w) (h' : FirstClash a b names' v' w') :
    names = names' ∧ v = v' ∧ w = w' := by
  obtain rfl : names = names' := by
    rcases h.first h'.toClash with heq | hlt
    · exact heq
    · rcases h'.first h.toClash with heq | hgt
      · exact heq.symm
      · exact absurd hgt (List.lt_asymm hlt)
  exact ⟨rfl, Option.some.inj (h.left.symm.trans h'.left), Option.some.inj (h.right.symm.trans h'.right)⟩

/-- A clash below the root is one between the values of a common field. -/
theorem clash_cons_iff : Clash (object own) (object fields) (name :: names) v w ↔
    ∃ l r, Fields.get? name own = some l ∧ Fields.get? name fields = some r ∧ Clash l r names v w := by
  constructor
  · rintro ⟨hv, hw, hobjects, hsame⟩
    obtain ⟨l, hl, hv⟩ := Option.bind_eq_some_iff.mp hv
    obtain ⟨r, hr, hw⟩ := Option.bind_eq_some_iff.mp hw
    exact ⟨l, r, hl, hr, hv, hw, hobjects, hsame⟩
  · rintro ⟨l, r, hl, hr, hv, hw, hobjects, hsame⟩
    exact ⟨Option.bind_eq_some_iff.mpr ⟨l, hl, hv⟩, Option.bind_eq_some_iff.mpr ⟨r, hr, hw⟩, hobjects, hsame⟩

theorem not_clash_of_merge (h : mergeAt place l r = .ok m) : ¬Clash l r names v w := by
  intro hclash
  obtain ⟨hv, hw, halike⟩ := clash_iff.mp hclash
  exact halike ((mergeAt_joins h names).meets v hv w hw)

/-! ### Errors -/

theorem clashError_swap (text : String) (v w : Value) : clashError text w v = (clashError text v w).swap := by
  unfold clashError
  by_cases htag : v.tag = w.tag
  · rw [if_neg (not_not.mpr htag), if_neg (not_not.mpr htag.symm), Bool.and_comm]
    split <;> rfl
  · rw [if_pos htag, if_pos fun h => htag h.symm]
    rfl

theorem clashError_path (text : String) (v w : Value) : (clashError text v w).path = text := by
  unfold clashError
  split
  · rfl
  · split <;> rfl

/-- The text of a place is its escaped names joined by points. -/
theorem placeText_eq (names : List String) :
    placeText names = if names = [] then "#" else ".".intercalate (names.map escape) := by
  have hdotted : String.ofList (dotted names) = ".".intercalate (names.map escape) := by
    induction names with
    | nil => rfl
    | cons name names ih =>
      cases names with
      | nil => exact String.intercalate_singleton.symm
      | cons other names =>
        have hcons : dotted (name :: other :: names) = escapeName name.toList ++ ['.'] ++ dotted (other :: names) :=
          List.append_cons _ _ _
        rw [hcons, String.ofList_append, String.ofList_append, ih]
        exact String.intercalate_cons_cons.symm
  rw [placeText, hdotted]

theorem mergeFields_cons_error {p : String × Value} (h : mergeFields place own (p :: fields) = .error e) :
    (∃ l, Fields.get? p.1 own = some l ∧ mergeAt (place ++ [p.1]) l p.2 = .error e) ∨
      (∀ l, Fields.get? p.1 own = some l → ∃ m, mergeAt (place ++ [p.1]) l p.2 = .ok m) ∧
        mergeFields place own fields = .error e := by
  have hrest : ∀ {m}, (do return Fields.insert p.1 m (← mergeFields place own fields)) = Except.error e →
      mergeFields place own fields = .error e := by
    intro m h
    rcases Outcome.bind_error_iff.mp h with h | ⟨others, -, h⟩
    · exact h
    · cases h
  rw [mergeFields] at h
  cases hl : Fields.get? p.1 own with
  | none =>
    rw [hl] at h
    exact Or.inr ⟨fun l hl => absurd hl.symm (Option.some_ne_none l), hrest h⟩
  | some l =>
    rw [hl] at h
    rcases Outcome.bind_error_iff.mp h with h | ⟨m, hm, h⟩
    · exact Or.inl ⟨l, rfl, h⟩
    · refine Or.inr ⟨fun l' hl' => ?_, hrest h⟩
      cases hl'
      exact ⟨m, hm⟩

/-- Fields fail to merge at the first common name whose values do. -/
theorem mergeFields_error (h : mergeFields place own fields = .error e) :
    ∃ before name r after l, fields = before ++ (name, r) :: after ∧ Fields.get? name own = some l ∧
      mergeAt (place ++ [name]) l r = .error e ∧
      ∀ p ∈ before, ∀ l, Fields.get? p.1 own = some l → ∃ m, mergeAt (place ++ [p.1]) l p.2 = .ok m := by
  induction fields with
  | nil => cases h
  | cons p fields ih =>
    rcases mergeFields_cons_error h with ⟨l, hl, h⟩ | ⟨hp, h⟩
    · exact ⟨[], p.1, p.2, fields, l, rfl, hl, h, nofun⟩
    · obtain ⟨before, name, r, after, l, rfl, hl, h, hbefore⟩ := ih h
      exact ⟨p :: before, name, r, after, l, rfl, hl, h, List.forall_mem_cons.mpr ⟨hp, hbefore⟩⟩

/-! ### The first clash -/

theorem firstClash_nil (hobjects : ¬(l.isObject = true ∧ r.isObject = true)) (hsame : l.same r = false) :
    FirstClash l r [] l r where
  left := rfl
  right := rfl
  not_objects := hobjects
  not_same := hsame
  first {names' _ _} _ := by
    cases names' with
    | nil => exact Or.inl rfl
    | cons name names' => exact Or.inr (List.nil_lt_cons name names')

/-- A clash in a common field is the first one if it is so in that field and there is none in the fields before. -/
theorem FirstClash.cons {before after : Fields Value} (h : FirstClash l r names v w)
    (hs : Fields.Sorted (before ++ (name, r) :: after)) (hl : Fields.get? name own = some l)
    (hbefore : ∀ p ∈ before, ∀ l names v w, Fields.get? p.1 own = some l → ¬Clash l p.2 names v w) :
    FirstClash (object own) (object (before ++ (name, r) :: after)) (name :: names) v w := by
  have hr : Fields.get? name (before ++ (name, r) :: after) = some r :=
    Fields.get?_of_mem hs (List.mem_append_right before List.mem_cons_self)
  refine ⟨clash_cons_iff.mpr ⟨l, r, hl, hr, h.toClash⟩, fun {names' v' w'} h' => ?_⟩
  cases names' with
  | nil => exact absurd ⟨Option.some.inj h'.left ▸ rfl, Option.some.inj h'.right ▸ rfl⟩ h'.not_objects
  | cons name' names' =>
    obtain ⟨l', r', hl', hr', h'⟩ := clash_cons_iff.mp h'
    rcases List.mem_append.mp (Fields.mem_of_get? hr') with hmem | hmem
    · exact absurd h' (hbefore _ hmem l' names' v' w' hl')
    · rcases List.mem_cons.mp hmem with heq | hmem
      · cases heq
        cases hl.symm.trans hl'
        rcases h.first h' with rfl | hlt
        · exact Or.inl rfl
        · exact Or.inr (List.cons_lt_cons_iff.mpr (Or.inr ⟨rfl, hlt⟩))
      · have hafter := (List.pairwise_append.mp hs).2.1
        exact Or.inr (List.cons_lt_cons_iff.mpr (Or.inl ((Fields.sorted_cons.mp hafter).1 _ hmem)))

theorem mergeAt_error_here (hobjects : ¬(l.isObject = true ∧ r.isObject = true)) (h : mergeAt place l r = .error e) :
    ∃ names v w, FirstClash l r names v w ∧ e = clashError (placeText (place ++ names)) v w := by
  rw [mergeAt_eq hobjects] at h
  split at h
  · cases h
  · rename_i hsame
    refine ⟨[], l, r, firstClash_nil hobjects (Bool.eq_false_iff.mpr hsame), ?_⟩
    rw [List.append_nil]
    exact (Except.error.inj h).symm

/-- The error of a merge is that of the first clash. -/
theorem mergeAt_error (hr : r.Ordered) (h : mergeAt place l r = .error e) :
    ∃ names v w, FirstClash l r names v w ∧ e = clashError (placeText (place ++ names)) v w := by
  induction r using Value.induction generalizing place l e with
  | null | bool | int | decimal | str | array => exact mergeAt_error_here (fun hobjects => nomatch hobjects.2) h
  | object fields ih =>
    cases l with
    | object own =>
      have hfields : mergeFields place own fields = .error e := Outcome.map_error_iff.mp h
      obtain ⟨hsorted, hordered⟩ := ordered_object_iff.mp hr
      obtain ⟨before, name, r, after, l, rfl, hl, h, hbefore⟩ := mergeFields_error hfields
      have hmem : (name, r) ∈ before ++ (name, r) :: after := List.mem_append_right before List.mem_cons_self
      obtain ⟨names, v, w, hfirst, rfl⟩ := ih _ hmem (hordered _ hmem) h
      refine ⟨name :: names, v, w, hfirst.cons hsorted hl fun p hp l names v w hl => ?_, ?_⟩
      · obtain ⟨m, hm⟩ := hbefore p hp l hl
        exact not_clash_of_merge hm
      · rw [List.append_assoc, List.singleton_append]
    | null | bool | int | decimal | str | array => exact mergeAt_error_here (fun hobjects => nomatch hobjects.1) h

theorem merge_fails_iff (hb : b.Ordered) : (∃ e, merge a b = .error e) ↔ ∃ names v w, Clash a b names v w := by
  have hok : (∃ e, merge a b = .error e) ↔ ¬∃ m, merge a b = .ok m := by
    cases merge a b <;> simp
  rw [hok, merge_ok_iff hb, not_forall]
  refine exists_congr fun names => ?_
  simp only [Meets, Option.mem_def, not_forall, clash_iff, exists_prop, exists_and_left]

/-- Two documents fail to merge exactly if they clash. The error is that of the first clash and names its place: the tags
    of both values if they differ, otherwise that arrays are not merged or that the values differ. The merge in the other
    order fails in the same way at the same place, with the tags exchanged, and a place that can be written as a path is
    the query of both values. -/
theorem merge_error (ha : a.Ordered) (hb : b.Ordered) :
    ((∃ e, merge a b = .error e) ↔ ∃ names v w, Clash a b names v w) ∧
      ∀ e, merge a b = .error e → ∃ names v w, FirstClash a b names v w ∧
        e.path = (if names = [] then "#" else ".".intercalate (names.map escape)) ∧
        e = clashError e.path v w ∧ merge b a = .error e.swap ∧
        (names ≠ [] → names.length ≤ 254 → "" ∉ names →
          ∃ q, Query.parse e.path = .ok q ∧ a.get q = .ok v ∧ b.get q = .ok w) := by
  refine ⟨merge_fails_iff hb, fun e he => ?_⟩
  obtain ⟨names, v, w, hfirst, rfl⟩ := mergeAt_error hb he
  rw [List.nil_append, clashError_path]
  refine ⟨names, v, w, hfirst, placeText_eq names, rfl, ?_, fun hne hlength hempty => ?_⟩
  · obtain ⟨e', he'⟩ := (merge_fails_iff ha).mpr ⟨names, w, v, hfirst.toClash.symm⟩
    obtain ⟨names', w', v', hfirst', rfl⟩ := mergeAt_error ha he'
    obtain ⟨rfl, rfl, rfl⟩ := hfirst.unique hfirst'.symm
    rw [he', List.nil_append, clashError_swap]
  · obtain ⟨q, hq, hleads⟩ := (⟨hne, hempty, Nat.lt_succ_of_le hlength⟩ : Nameable names).parse_dotted
    rw [placeText, if_neg hne]
    exact ⟨q, hq, hleads.get hfirst.left, hleads.get hfirst.right⟩

/-- A text and an integer clash at a name with a point in it, behind a name where the two documents agree. -/
theorem merge_error_escaped :
    merge (object [("a", null), ("b.c", str "x")]) (object [("a", null), ("b.c", int 2)]) =
        .error (.incompatibleTypes "b\\.c" Tag.strTag Tag.intTag) ∧
      merge (object [("a", null), ("b.c", int 2)]) (object [("a", null), ("b.c", str "x")]) =
        .error (.incompatibleTypes "b\\.c" Tag.intTag Tag.strTag) ∧
      ∃ q, Query.parse "b\\.c" = .ok q ∧ (object [("a", null), ("b.c", str "x")]).get q = .ok (str "x") ∧
        (object [("a", null), ("b.c", int 2)]).get q = .ok (int 2) := by
  have ha : (object [("a", null), ("b.c", str "x")]).Ordered :=
    (ordered_empty.insert (v := str "x") trivial "b.c").insert (v := null) trivial "a"
  have hb : (object [("a", null), ("b.c", int 2)]).Ordered :=
    (ordered_empty.insert (v := int 2) trivial "b.c").insert (v := null) trivial "a"
  have hmerge : merge (object [("a", null), ("b.c", str "x")]) (object [("a", null), ("b.c", int 2)]) =
    .error (.incompatibleTypes "b\\.c" Tag.strTag Tag.intTag) := rfl
  have hclash : FirstClash (object [("a", null), ("b.c", str "x")]) (object ([("a", null)] ++ ("b.c", int 2) :: []))
      ["b.c"] (str "x") (int 2) := by
    have hnull : mergeAt [] null null = .ok null := rfl
    have hhere : FirstClash (str "x") (int 2) [] (str "x") (int 2) := firstClash_nil (fun h => nomatch h.1) rfl
    refine hhere.cons hb.sorted rfl fun p hp l names v w hl => ?_
    obtain rfl := List.mem_singleton.mp hp
    cases hl
    exact not_clash_of_merge hnull
  obtain ⟨names, v, w, hfirst, -, -, hswap, hquery⟩ := (merge_error ha hb).2 _ hmerge
  obtain ⟨rfl, rfl, rfl⟩ := hfirst.unique hclash
  exact ⟨hmerge, hswap, hquery (by decide) (by decide) (by decide)⟩

end Value

end TreeQuery
