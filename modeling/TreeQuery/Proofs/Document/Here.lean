import TreeQuery.Proofs.Document.Extend

/-! # A `#` in the middle of a path

A `#` stays where it is, so one that stands in front of another node should not change a write. But a container is
created for the node that comes next, and for `#` that is null. Null takes whatever the container would have taken, with
one exception: a name is written in null only where there is a `$` (`Value.put_null_iff`, `Value.enter_null_iff`). Every
container but the element that a `+` adds is created by a `$`, so a `#` makes a difference only between a `+` and a name
at the end of a path without `$` (`assign_here_iff`). -/

namespace TreeQuery

variable {σ : Type} {key : Body σ → Except ReadError Key} {front behind : Path σ} {s u h t : Segment σ}
  {v v' c d d₂ new part part' : Value} {k k' : Key} {make overwrite : Bool} {place : String} {q : Query}

namespace Value

/-! ### Null in the place of a container -/

/-- What is put in the container created for a key can be put in null, unless the key is a name and there is no `$`. -/
theorem put_null_iff : null.put make overwrite place new k = .ok c ↔
    (blankFor k).put make overwrite place new k = .ok c ∧ ¬((∃ name, k = .name name) ∧ make = false) := by
  cases k with
  | current => simp [blankFor]
  | name name => cases make <;> simp [put, blankFor, writableFields, bind, Except.bind]
  | append => simp [put, blankFor, writableItems, bind, Except.bind]
  | index i =>
    rcases Nat.eq_zero_or_pos i with rfl | hi
    · simp [put, blankFor, isBlank]
    · have hne : i ≠ 0 := Nat.ne_of_gt hi
      cases make <;> simp [put, blankFor, writableItems, hne, bind, Except.bind]

/-- Whatever is edited in the container created for a key, it is created in it, or it is not there. So null will do. -/
theorem enter_null_iff {blank : Except Error Value} {edit : Value → Except Error Value} :
    null.enter make blank edit k = .ok c ↔ (blankFor k).enter make blank edit k = .ok c := by
  cases k with
  | current | append => exact Iff.rfl
  | name name =>
    rw [enter_name, enter_name]
    cases make with
    | true => exact Iff.rfl
    | false => exact iff_of_false nofun nofun
  | index i =>
    by_cases hfirst : i = 0 ∧ make = true
    · obtain ⟨rfl, rfl⟩ := hfirst
      exact Iff.rfl
    · -- No element is created, and there is none in either of the two.
      have herror : ∀ w, w = null ∨ w = array [] → w.enter make blank edit (.index i) ≠ .ok c := by
        rintro w hw h
        rw [enter, if_neg fun h => hfirst ⟨h.1, h.2.2⟩] at h
        obtain ⟨items, hitems, h⟩ := Outcome.bind_ok_iff.mp h
        have hnil : items = [] := by
          rcases writableItems_cases (Outcome.mapError_ok_iff.mp hitems) with heq | ⟨-, hnil⟩
          · rcases hw with rfl | rfl <;> cases heq
            rfl
          · exact hnil
        rw [hnil] at h
        cases h
      exact iff_of_false (herror _ (Or.inl rfl)) (herror _ (Or.inr rfl))

/-! ### One node -/

/-- Where a part is created, it may be another one if what is made of it is the same. -/
theorem enter_created {edit : Value → Except Error Value}
    (hedit : make = true ∨ k = .append → ∀ c, edit part = .ok c → edit part' = .ok c)
    (h : v.enter make (.ok part) edit k = .ok v') : v.enter make (.ok part') edit k = .ok v' := by
  have hcreate : ∀ {f : Value → Value}, make = true ∨ k = .append →
      (edit part >>= fun c => pure (f c)) = .ok v' → (edit part' >>= fun c => pure (f c)) = .ok v' := fun hk h => by
    obtain ⟨c, hc, h⟩ := Outcome.bind_ok_iff.mp h
    exact Outcome.bind_ok_iff.mpr ⟨c, hedit hk c hc, h⟩
  cases k with
  | current => exact h
  | name name =>
    rw [enter_name] at h ⊢
    obtain ⟨fields, hfields, h⟩ := Outcome.bind_ok_iff.mp h
    rw [hfields, Outcome.ok_bind]
    cases hget : Fields.get? name fields with
    | some found =>
      rw [hget] at h
      exact h
    | none =>
      rw [hget] at h
      cases make with
      | false => cases h
      | true => exact hcreate (Or.inl rfl) h
  | index i =>
    rw [enter] at h ⊢
    by_cases hfirst : i = 0 ∧ v.isBlank ∧ make
    · rw [if_pos hfirst] at h ⊢
      exact hcreate (Or.inl hfirst.2.2) h
    · rw [if_neg hfirst] at h ⊢
      exact h
  | append =>
    obtain ⟨items, hitems, h⟩ := Outcome.bind_ok_iff.mp h
    exact Outcome.bind_ok_iff.mpr ⟨items, hitems, hcreate (Or.inr rfl) h⟩

theorem exists_edit_of_enter {blank : Except Error Value} {edit : Value → Except Error Value}
    (h : v.enter make blank edit k = .ok v') : ∃ part c, edit part = .ok c := by
  by_cases hc : k = .current
  · subst hc
    exact ⟨v, v', h⟩
  · obtain ⟨-, part, c, -, hpart, -⟩ := enter_slot h hc
    exact ⟨part, c, hpart⟩

/-- Under a condition that the value does not depend on, two ways to edit a part are alike in every value. -/
theorem enter_congr_iff {blank : Except Error Value} {edit edit' : Value → Except Error Value} {P : Prop}
    (hedit : ∀ part c, edit part = .ok c ↔ edit' part = .ok c ∧ P) :
    v.enter make blank edit k = .ok v' ↔ v.enter make blank edit' k = .ok v' ∧ P := by
  constructor
  · intro h
    obtain ⟨part, c, hpart⟩ := exists_edit_of_enter h
    exact ⟨enter_mono id (fun part c hpart => ((hedit part c).mp hpart).1) h, ((hedit part c).mp hpart).2⟩
  · rintro ⟨h, hP⟩
    exact enter_mono id (fun part c hpart => (hedit part c).mpr ⟨hpart, hP⟩) h

end Value

/-! ### A path of segments -/

/-- Where nothing is but what is created for the first segment, null will do unless that is a name, the last segment and
    without `$`. -/
theorem assign_null_iff (ht : key t.body = .ok k) : assign key overwrite place new make (t :: behind) .null = .ok c ↔
    assign key overwrite place new make (t :: behind) (Value.blankFor k) = .ok c ∧
      ¬(behind = [] ∧ (∃ name, k = .name name) ∧ (make || t.commands.make) = false) := by
  cases behind with
  | nil =>
    rw [assign_single ht, assign_single ht, Outcome.mapError_ok_iff, Outcome.mapError_ok_iff, Value.put_null_iff]
    simp
  | cons s behind =>
    rw [assign_cons_cons ht, assign_cons_cons ht, Value.enter_null_iff]
    simp

/-- A segment in front of two paths that begin alike is written at in the same way. -/
theorem assign_cons_congr_iff {p p' : Path σ} {P : Prop}
    (hhead : ∃ next rest rest', p = next :: rest ∧ p' = next :: rest')
    (hrest : ∀ w w', assign key overwrite place new (make || s.commands.make) p w = .ok w' ↔
      assign key overwrite place new (make || s.commands.make) p' w = .ok w' ∧ P) :
    assign key overwrite place new make (s :: p) v = .ok v' ↔
      assign key overwrite place new make (s :: p') v = .ok v' ∧ P := by
  obtain ⟨next, rest, rest', rfl, rfl⟩ := hhead
  cases hk : key s.body with
  | ok k =>
    rw [assign_cons_cons hk, assign_cons_cons hk]
    exact Value.enter_congr_iff hrest
  | error e =>
    rw [assign, assign, hk]
    constructor
    · intro h
      cases h
    · rintro ⟨h, -⟩
      cases h

section
variable (hu : key u.body = .ok k) (hh : key h.body = .ok .current) (hnone : h.commands = {}) (ht : key t.body = .ok k')
include hu hh hnone ht

theorem assign_cons_here_iff : assign key overwrite place new make (u :: h :: t :: behind) v = .ok v' ↔
    assign key overwrite place new make (u :: t :: behind) v = .ok v' ∧
      ¬(k = .append ∧ behind = [] ∧ (∃ name, k' = .name name) ∧ (make || Path.makes [u, t]) = false) := by
  have hstay : assign key overwrite place new (make || u.commands.make) (h :: t :: behind) =
      assign key overwrite place new (make || u.commands.make) (t :: behind) := funext fun w => by
    rw [assign_cons_cons hh, hnone, Bool.or_false]
    rfl
  have hnull : ((key h.body).map Value.blankFor).mapError Error.read = .ok .null := by rw [hh]; rfl
  have hblank : ((key t.body).map Value.blankFor).mapError Error.read = .ok (Value.blankFor k') := by rw [ht]; rfl
  have hmakes : (make || Path.makes [u, t]) = (make || u.commands.make || t.commands.make) := by
    rw [Path.makes, List.any_cons, List.any_cons, List.any_nil, Bool.or_false, Bool.or_assoc]
  rw [assign_cons_cons hu, assign_cons_cons hu, hstay, hnull, hblank, hmakes]
  constructor
  · intro hstep
    refine ⟨Value.enter_created (fun _ c hc => ((assign_null_iff ht).mp hc).1) hstep, ?_⟩
    rintro ⟨rfl, hlost⟩
    obtain ⟨items, -, hstep⟩ := Outcome.bind_ok_iff.mp hstep
    obtain ⟨_, ⟨⟩, hstep⟩ := Outcome.bind_ok_iff.mp hstep
    obtain ⟨c, hc, -⟩ := Outcome.bind_ok_iff.mp hstep
    exact ((assign_null_iff ht).mp hc).2 hlost
  · rintro ⟨hstep, hkept⟩
    refine Value.enter_created (fun hcreate c hc => (assign_null_iff ht).mpr ⟨hc, fun hlost => ?_⟩) hstep
    -- What is not created by `+` is created by a `$`, and null takes a name as well where that is written.
    rcases hcreate with hmake | rfl
    · rw [hmake] at hlost
      exact absurd hlost.2.2 (by simp)
    · exact hkept ⟨rfl, hlost⟩

/-- A `#` in front of a segment changes a write only where that is a name at the end of the path, a `+` stands in front of
    it, and there is no `$`. There the write fails. -/
theorem assign_here_iff : assign key overwrite place new make (front ++ u :: h :: t :: behind) v = .ok v' ↔
    assign key overwrite place new make (front ++ u :: t :: behind) v = .ok v' ∧
      ¬(k = .append ∧ behind = [] ∧ (∃ name, k' = .name name) ∧ (make || Path.makes (front ++ [u, t])) = false) := by
  induction front generalizing make v v' with
  | nil => exact assign_cons_here_iff hu hh hnone ht
  | cons s front ih =>
    have hmakes : (make || Path.makes (s :: front ++ [u, t])) =
        (make || s.commands.make || Path.makes (front ++ [u, t])) := (Bool.or_assoc ..).symm
    rw [hmakes]
    refine assign_cons_congr_iff ?_ fun w w' => ih
    cases front <;> exact ⟨_, _, _, rfl, rfl⟩

end

/-- What a write does depends on the text for a refusal only where it fails. -/
theorem assign_place_iff {p : Path σ} (place' : String) : assign key overwrite place new make p v = .ok v' ↔
    assign key overwrite place' new make p v = .ok v' := by
  have hsame : Path.Extends p p := List.forall₂_same.mpr fun s _ => .refl s
  exact ⟨hsame.assign id id, hsame.assign id id⟩

/-! ### Queries -/

theorem keyIn_shape {b : Body PlainPath} (hb : b.isBracket = false) (hk : keyIn d b = .ok k) :
    (b = .append ↔ k = .append) ∧ ((∃ name, b = .field name) ↔ ∃ name, k = .name name) := by
  cases b with
  | bracket => cases hb
  | field | index | here | append =>
    cases hk
    simp

/-- A `#` without commands. -/
def Segment.bareHere : Segment σ := ⟨{}, .here, false⟩

theorem Segment.bareHere_mayFollow (hs : s.commands.delete = false) : Segment.MayFollow bareHere s :=
  ⟨⟨fun _ => ⟨rfl, rfl, rfl, rfl⟩, fun _ => ⟨rfl, rfl⟩, fun _ => ⟨rfl, rfl⟩, fun _ => ⟨rfl, rfl⟩⟩, hs,
    fun _ => ⟨rfl, rfl⟩⟩

theorem Segment.bareHere_lawful {Inner : List Char → σ → Prop} : (bareHere : Segment σ).Lawful Inner :=
  ⟨trivial, ⟨fun _ => rfl, iff_of_false nofun nofun⟩, ⟨nofun, nofun, nofun⟩, nofun⟩

/-- A path without `!` keeps the rules with a `#` in front of one of its segments. -/
theorem Path.WellFormed.insert_here {Inner : List Char → σ → Prop} (hw : Path.WellFormed Inner (front ++ t :: behind))
    (hd : Path.deletes (front ++ t :: behind) = false) (hlength : (front ++ t :: behind).length + 1 < maxLength) :
    Path.WellFormed Inner (front ++ Segment.bareHere :: t :: behind) := by
  obtain ⟨hfront, hrest, hcross⟩ := List.pairwise_append.mp hw.pairwise
  have hcontinues : Path.Continues Inner [] (front ++ Segment.bareHere :: t :: behind) := by
    refine ⟨fun s hs => ?_, by simp, List.pairwise_append.mpr ⟨hfront, List.pairwise_cons.mpr ⟨fun s hs => ?_, hrest⟩,
      fun s hs r hr => ?_⟩, ?_⟩
    · rcases List.mem_append.mp hs with hs | hs
      · exact hw.lawful (List.mem_append_left _ hs)
      · rcases List.mem_cons.mp hs with rfl | hs
        · exact Segment.bareHere_lawful
        · exact hw.lawful (List.mem_append_right _ hs)
    · exact Segment.bareHere_mayFollow (Path.any_eq_false_iff.mp hd s (List.mem_append_right _ hs))
    · rcases List.mem_cons.mp hr with rfl | hr
      · exact Segment.mayFollow_of_bare rfl rfl s
      · exact hcross s hs r hr
    · simp only [List.length_append, List.length_cons, List.length_nil] at hlength ⊢
      omega
  have hlast : (front ++ Segment.bareHere :: t :: behind).getLast? = (front ++ t :: behind).getLast? := by
    rw [List.getLast?_append, List.getLast?_append, List.getLast?_cons_cons]
  exact hcontinues.wellFormed (by simp) (hlast ▸ hw.last_unmarked)

namespace Query

/-- The query with a `#` in front of the node `i`, at the same node as before. -/
def withHere (q : Query) (i : Nat) : Query where
  path := q.path.take i ++ Segment.bareHere :: q.path.drop i
  seq := if i ≤ q.seq then q.seq + 1 else q.seq
  seq_lt := by
    have := q.seq_lt
    simp only [List.length_append, List.length_cons, List.length_take, List.length_drop]
    split <;> omega

/-- The node `i` is a name at the end of the path, `+` stands in front of it, and no `$` is written. What is created for
    the name is an object, but for a `#` in its place it is null, and stays null. -/
def LosesShape (q : Query) (i : Nat) : Prop :=
  q.seq < i ∧ i + 1 = q.length ∧ Path.makes q.path = false ∧ (∃ s ∈ q.path[i - 1]?, s.body = .append) ∧
    ∃ s ∈ q.path[i]?, ∃ name, s.body = .field name

variable {i : Nat} {front behind : Path PlainPath} {u t : Segment PlainPath}

theorem exists_path_at (hpos : 0 < i) (hlt : i < q.length) :
    ∃ front u t behind, q.path = front ++ u :: t :: behind ∧ i = front.length + 1 := by
  obtain ⟨j, rfl⟩ : ∃ j, i = j + 1 := ⟨i - 1, by omega⟩
  have hlt : j + 1 < q.path.length := hlt
  refine ⟨q.path.take j, q.path[j], q.path[j + 1], q.path.drop (j + 2), ?_, ?_⟩
  · rw [← List.drop_eq_getElem_cons hlt, ← List.drop_eq_getElem_cons, List.take_append_drop]
  · rw [List.length_take]
    omega

section
variable (hpath : q.path = front ++ u :: t :: behind) (hi : i = front.length + 1)
include hpath hi

theorem withHere_path : (q.withHere i).path = front ++ u :: Segment.bareHere :: t :: behind := by
  have hwith : (q.withHere i).path = q.path.take i ++ Segment.bareHere :: q.path.drop i := rfl
  rw [hwith, hpath, hi, List.take_length_add_append, List.drop_length_add_append]
  simp

theorem any_withHere {f : Segment PlainPath → Bool} (hf : f Segment.bareHere = false) :
    (q.withHere i).path.any f = q.path.any f := by
  rw [withHere_path hpath hi, hpath]
  simp [hf]

theorem withHere_parsed (hq : q.Parsed) (hd : Path.deletes q.path = false) (hlength : q.length < 254) :
    (q.withHere i).Parsed := by
  have hsplit : q.path = front ++ [u] ++ t :: behind := by simp [hpath]
  have hhere : (q.withHere i).path = front ++ [u] ++ Segment.bareHere :: t :: behind := by
    simp [withHere_path hpath hi]
  rw [parsed_iff, hsplit] at hq
  rw [hsplit] at hd
  rw [length, hsplit] at hlength
  rw [parsed_iff, hhere]
  exact hq.insert_here hd (Nat.succ_lt_succ hlength)

/-- In front of the place that a query is at, a `#` is not gone through. -/
theorem remaining_withHere (hseq : i ≤ q.seq) : (q.withHere i).remaining = q.remaining ∧
    Path.makes ((q.withHere i).path.take (q.withHere i).seq) = Path.makes (q.path.take q.seq) := by
  obtain ⟨j, hj⟩ : ∃ j, q.seq = front.length + (j + 1) := ⟨q.seq - i, by omega⟩
  have hj' : (q.withHere i).seq = front.length + (j + 2) := (if_pos hseq).trans (congrArg (· + 1) hj)
  rw [remaining, remaining, withHere_path hpath hi, hpath, hj', hj]
  constructor
  · simp only [List.drop_length_add_append, List.drop_succ_cons]
  · simp [List.take_length_add_append, Path.makes, Segment.bareHere]

theorem losesShape_iff (hb : q.BracketFree) (hk : keyIn d u.body = .ok k) (hk' : keyIn d t.body = .ok k') :
    q.LosesShape i ↔ q.seq < i ∧ k = .append ∧ behind = [] ∧ (∃ name, k' = .name name) ∧
      Path.makes (front ++ [u, t]) = false := by
  have hu : q.path[i - 1]? = some u := by simp [hpath, hi]
  have ht : q.path[i]? = some t := by simp [hpath, hi]
  have hend : i + 1 = q.length ↔ behind = [] := by
    rw [length, hpath, hi, ← List.length_eq_zero_iff]
    simp only [List.length_append, List.length_cons]
    omega
  have happend := (keyIn_shape (hb u (by simp [hpath])) hk).1
  have hname := (keyIn_shape (hb t (by simp [hpath])) hk').2
  simp only [LosesShape, hu, ht, hend, Option.mem_some, exists_eq_left', happend, hname]
  constructor
  · rintro ⟨hseq, rfl, hmakes, hk, hk'⟩
    exact ⟨hseq, hk, rfl, hk', hpath ▸ hmakes⟩
  · rintro ⟨hseq, hk, rfl, hk', hmakes⟩
    exact ⟨hseq, rfl, hpath ▸ hmakes, hk, hk'⟩

end

/-- A `#` without commands in front of a node changes nothing about a write unless the shape of what `+` adds is lost by
    it. Then the write fails. -/
theorem set_withHere_iff (hq : q.Parsed) (hb : q.BracketFree) (hd : Path.deletes q.path = false)
    (hm : Path.moves q.path = false) (hlength : q.length < 254) (hpos : 0 < i) (hlt : i < q.length) :
    (q.withHere i).Parsed ∧
      ∀ d v d₂ : Value, d.set (q.withHere i) v = .ok d₂ ↔ d.set q v = .ok d₂ ∧ ¬q.LosesShape i := by
  obtain ⟨front, u, t, behind, hpath, hi⟩ := exists_path_at hpos hlt
  refine ⟨withHere_parsed hpath hi hq hd hlength, fun d v d₂ => ?_⟩
  obtain ⟨k, hk, -⟩ := exists_key hq hb (s := u) (by simp [hpath]) d
  obtain ⟨k', hk', -⟩ := exists_key hq hb (s := t) (by simp [hpath]) d
  have hd' : Path.deletes (q.withHere i).path = false := (any_withHere hpath hi rfl).trans hd
  have hm' : Path.moves (q.withHere i).path = false := (any_withHere hpath hi rfl).trans hm
  have ho' : Path.overwrites (q.withHere i).path = Path.overwrites q.path := any_withHere hpath hi rfl
  rw [set_eq_assign hd hm, set_eq_assign hd' hm', ho', assign_place_iff q.leaf.display]
  by_cases hseq : i ≤ q.seq
  · -- The `#` stands in front of the place that is written from.
    have hkept : ¬q.LosesShape i := fun hlost => absurd hlost.1 (Nat.not_lt.mpr hseq)
    obtain ⟨hremaining, hmakes⟩ := remaining_withHere hpath hi hseq
    rw [and_iff_left hkept, hremaining, hmakes]
  · have hbefore : q.seq ≤ front.length := by omega
    have hseq' : (q.withHere i).seq = q.seq := if_neg hseq
    have hmakes : (Path.makes (front.take q.seq) || Path.makes (front.drop q.seq ++ [u, t])) =
        Path.makes (front ++ [u, t]) := by
      simp only [Path.makes]
      rw [← List.any_append, ← List.append_assoc, List.take_append_drop]
    rw [losesShape_iff hpath hi hb hk hk', and_iff_right (Nat.lt_of_not_le hseq), remaining, remaining,
      withHere_path hpath hi, hpath, hseq', List.take_append_of_le_length hbefore, List.take_append_of_le_length hbefore,
      List.drop_append_of_le_length hbefore, List.drop_append_of_le_length hbefore, assign_here_iff hk rfl rfl hk', hmakes]

/-- `$+.#.a` writes in an object that is created in a new element, as `$+.a` does. -/
theorem set_withHere_iff_make :
    Value.null.set
      ⟨[⟨{ make := true, append := true }, .append, false⟩, ⟨{}, .here, false⟩, ⟨{}, .field "a", false⟩], 0,
        by decide⟩ (.int 1) = .ok (.array [.object [("a", .int 1)]]) := by
  have hread : parse "$+.a" =
      .ok ⟨[⟨{ make := true, append := true }, .append, false⟩, ⟨{}, .field "a", false⟩], 0, by decide⟩ := rfl
  have hwrite := set_withHere_iff (i := 1) ⟨"$+.a", _, hread, rfl⟩ (by simp [BracketFree, Body.isBracket]) rfl rfl
    (by decide) (by decide) (by decide)
  refine (hwrite.2 .null (.int 1) _).mpr ⟨rfl, ?_⟩
  rintro ⟨-, -, hmakes, -⟩
  cases hmakes

/-- Without `$`, `+.a` writes in an object that is created in a new element, but `+.#.a` finds null there. -/
theorem not_set_withHere_append : ∃ q, parse "+.a" = .ok q ∧ q.BracketFree ∧ Path.deletes q.path = false ∧
    Path.moves q.path = false ∧ q.length < 254 ∧ parse "+.#.a" = .ok (q.withHere 1) ∧
    (Value.array []).set q (.int 1) = .ok (.array [.object [("a", .int 1)]]) ∧
    (Value.array []).set (q.withHere 1) (.int 1) = .error (.write (.typeCast Tag.objectTag Tag.nilTag)) :=
  ⟨⟨[⟨{ append := true }, .append, false⟩, ⟨{}, .field "a", false⟩], 0, by decide⟩, rfl,
    by simp [BracketFree, Body.isBracket], rfl, rfl, by decide, rfl, rfl, rfl⟩

end Query

end TreeQuery
