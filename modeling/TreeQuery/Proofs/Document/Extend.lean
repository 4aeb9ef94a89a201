import Mathlib.Data.List.Forall2
import TreeQuery.Proofs.Document.Equal

/-! # Writing with more commands

A command only permits: `$` lets a write create what is missing, and `=` lets it replace what is there. So a write that
succeeds does the same if its path carries more commands (`Path.Extends`), wherever they stand. A part that is there is
entered with `$` as without it, and without `$` no part is created, so nothing a write has done is done otherwise. -/

namespace TreeQuery

variable {σ : Type} {key : Body σ → Except ReadError Key} {p p' : Path σ} {s t : Segment σ} {v v' d d₂ new : Value}
  {k : Key} {make make' overwrite overwrite' : Bool} {place place' : String} {q q' r : Query} {c : Command}

/-! ### One node -/

namespace Value

theorem writableFields_mono {fields : Fields Value} (hm : make = true → make' = true)
    (h : v.writableFields make = .ok fields) : v.writableFields make' = .ok fields := by
  cases v with
  | null =>
    cases make with
    | false => cases h
    | true =>
      rw [hm rfl]
      exact h
  | object => exact h
  | bool | int | decimal | str | array => cases h

theorem writableItems_mono {items : List Value} (hm : make = true → make' = true)
    (h : v.writableItems make = .ok items) : v.writableItems make' = .ok items := by
  cases v with
  | null =>
    cases make with
    | false => cases h
    | true =>
      rw [hm rfl]
      exact h
  | array => exact h
  | bool | int | decimal | str | object => cases h

theorem put_mono (hm : make = true → make' = true) (ho : overwrite = true → overwrite' = true)
    (h : v.put make overwrite place new k = .ok v') : v.put make' overwrite' place' new k = .ok v' := by
  cases k with
  | current =>
    rw [put] at h ⊢
    by_cases hfree : (v.isNull || overwrite) = true
    · rw [if_pos hfree] at h
      have hfree' : (v.isNull || overwrite') = true := by
        rw [Bool.or_eq_true] at hfree ⊢
        exact hfree.imp_right ho
      rw [if_pos hfree']
      exact h
    · rw [if_neg hfree] at h
      cases h
  | name name =>
    obtain ⟨fields, hfields, h⟩ := Outcome.bind_ok_iff.mp h
    refine Outcome.bind_ok_iff.mpr ⟨fields, writableFields_mono hm hfields, ?_⟩
    by_cases hrefused : ((Fields.get? name fields).isSome && !overwrite) = true
    · rw [if_pos hrefused] at h
      cases h
    · rw [if_neg hrefused] at h
      have hallowed : ¬((Fields.get? name fields).isSome && !overwrite') = true := by
        rw [Bool.and_eq_true, Bool.not_eq_true'] at hrefused ⊢
        rintro ⟨hsome, hoverwrite⟩
        refine hrefused ⟨hsome, ?_⟩
        cases overwrite with
        | false => rfl
        | true =>
          rw [ho rfl] at hoverwrite
          cases hoverwrite
      rw [if_neg hallowed]
      exact h
  | index i =>
    rw [put] at h ⊢
    split at h
    · rename_i hblank
      rw [if_pos hblank]
      exact h
    · rename_i hblank
      obtain ⟨items, hitems, h⟩ := Outcome.bind_ok_iff.mp h
      rw [if_neg hblank]
      exact Outcome.bind_ok_iff.mpr ⟨items, writableItems_mono hm hitems, h⟩
  | append => exact h

/-- A part that is there is entered as before, and where one is created, it was `$` or `+` that created it. -/
theorem enter_mono {blank : Except Error Value} {edit edit' : Value → Except Error Value}
    (hm : make = true → make' = true) (hedit : ∀ part c, edit part = .ok c → edit' part = .ok c)
    (h : v.enter make blank edit k = .ok v') : v.enter make' blank edit' k = .ok v' := by
  by_cases hc : k = .current
  · subst hc
    exact hedit v v' h
  · cases hchild : v.child? k with
    | some part =>
      rw [enter_of_child? hchild] at h ⊢
      obtain ⟨c, hpart, rfl⟩ := Outcome.map_ok_iff.mp h
      exact Outcome.map_ok_iff.mpr ⟨c, hedit part c hpart, rfl⟩
    | none =>
      obtain ⟨f, part, c, -, hpart, rfl, -, hother⟩ := enter_slot h hc
      have hsame : v.enter make blank edit' k = .ok (f c) := hother edit' c (hedit part c hpart)
      -- `+` creates whatever else is written, and any other part that is missing was created by `$`.
      by_cases ha : k = .append
      · subst ha
        exact hsame
      · cases make with
        | true =>
          rw [hm rfl]
          exact hsame
        | false =>
          obtain ⟨e, he, -⟩ := enter_of_missing blank edit hc ha hchild
          rw [he] at h
          cases h

end Value

/-! ### Paths -/

/-- `t` is `s` with more commands, though without a `!` that `s` does not have. -/
structure Segment.Extends (s t : Segment σ) : Prop where
  body : t.body = s.body
  marker : t.marker = s.marker
  delete : t.commands.delete = s.commands.delete
  commands : ∀ c, s.commands.has c = true → t.commands.has c = true

theorem Segment.Extends.refl (s : Segment σ) : Segment.Extends s s := ⟨rfl, rfl, rfl, fun _ => id⟩

theorem Segment.Extends.insert (s : Segment σ) (hc : c ≠ .delete) : Segment.Extends s (s.edit (·.insert c)) := by
  refine ⟨rfl, rfl, Commands.insert_delete_of_ne hc, fun c' hc' => ?_⟩
  rw [Segment.edit, Commands.has_insert, hc', Bool.or_true]

/-- `p'` is `p` with more commands on its segments. -/
def Path.Extends (p p' : Path σ) : Prop := List.Forall₂ Segment.Extends p p'

theorem Path.extends_modify (p : Path σ) (i : Nat) (hc : c ≠ .delete) :
    Path.Extends p (p.modify i (Segment.edit (·.insert c))) := by
  induction p generalizing i with
  | nil =>
    rw [List.modify_nil]
    exact .nil
  | cons s p ih =>
    cases i with
    | zero =>
      rw [List.modify_zero_cons]
      exact .cons (.insert s hc) (List.forall₂_same.mpr fun t _ => .refl t)
    | succ i =>
      rw [List.modify_succ_cons]
      exact .cons (.refl s) (ih i)

theorem Path.extends_mapIdx {f : Nat → Segment σ → Segment σ} (hf : ∀ i s, Segment.Extends s (f i s)) (p : Path σ) :
    Path.Extends p (p.mapIdx f) := by
  induction p generalizing f with
  | nil => exact .nil
  | cons s p ih =>
    rw [List.mapIdx_cons]
    exact .cons (hf 0 s) (ih fun i => hf (i + 1))

namespace Path.Extends

/-- More commands leave every `>` where it was. -/
theorem map_marker (h : Path.Extends p p') : p'.map (·.marker) = p.map (·.marker) := by
  induction h with
  | nil => rfl
  | cons hst _ ih => rw [List.map_cons, List.map_cons, hst.marker, ih]

theorem any_mono {f : Segment σ → Bool} (h : Path.Extends p p')
    (hf : ∀ s t, Segment.Extends s t → f s = true → f t = true) : p.any f = true → p'.any f = true := by
  induction h with
  | nil => exact id
  | cons hst _ ih =>
    rw [List.any_cons, List.any_cons, Bool.or_eq_true, Bool.or_eq_true]
    exact Or.imp (hf _ _ hst) ih

theorem any_eq {f : Segment σ → Bool} (h : Path.Extends p p') (hf : ∀ s t, Segment.Extends s t → f t = f s) :
    p'.any f = p.any f := by
  induction h with
  | nil => rfl
  | cons hst _ ih => rw [List.any_cons, List.any_cons, hf _ _ hst, ih]

theorem makes_mono (h : Path.Extends p p') : Path.makes p = true → Path.makes p' = true :=
  h.any_mono fun _ _ hst => hst.commands .make

theorem overwrites_mono (h : Path.Extends p p') : Path.overwrites p = true → Path.overwrites p' = true :=
  h.any_mono fun _ _ hst => hst.commands .overwrite

/-- A write that succeeds does the same with more commands. -/
theorem assign (h : Path.Extends p p') (hm : make = true → make' = true) (ho : overwrite = true → overwrite' = true)
    (hassign : assign key overwrite place new make p v = .ok v') :
    TreeQuery.assign key overwrite' place' new make' p' v = .ok v' := by
  -- `$` holds from where it is written on, so what it was before a segment may differ along with the path.
  induction h generalizing make make' v v' with
  | nil => exact hassign
  | @cons s t rest rest' hst hrest ih =>
    have hmake : (make || s.commands.make) = true → (make' || t.commands.make) = true := by
      rw [Bool.or_eq_true, Bool.or_eq_true]
      exact Or.imp hm (hst.commands .make)
    obtain ⟨k, hk, -⟩ := assign_cons hassign
    have hk' : key t.body = .ok k := hst.body ▸ hk
    cases hrest with
    | nil =>
      rw [assign_single hk] at hassign
      rw [assign_single hk']
      exact Outcome.mapError_ok_iff.mpr (Value.put_mono hmake ho (Outcome.mapError_ok_iff.mp hassign))
    | @cons next next' rest rest' hnext hrest =>
      rw [assign_cons_cons hk] at hassign
      rw [assign_cons_cons hk', hnext.body]
      exact Value.enter_mono hmake (fun part c hpart => ih hmake hpart) hassign

end Path.Extends

/-! ### Queries -/

theorem set_of_extends (h : Path.Extends q.path q'.path) (hseq : q'.seq = q.seq) (hset : d.set q new = .ok d₂) :
    d.set q' new = .ok d₂ := by
  obtain ⟨hd, hm, -⟩ := set_ok hset
  have hd' : Path.deletes q'.path = false := (h.any_eq fun _ _ hst => hst.delete).trans hd
  have hm' : Path.moves q'.path = false := (h.any_eq fun _ _ hst => hst.marker).trans hm
  rw [set_eq_assign hd hm] at hset
  rw [set_eq_assign hd' hm', Query.remaining, hseq]
  have hbefore : Path.Extends (q.path.take q.seq) (q'.path.take q.seq) := List.forall₂_take q.seq h
  have hbehind : Path.Extends (q.path.drop q.seq) (q'.path.drop q.seq) := List.forall₂_drop q.seq h
  exact hbehind.assign hbefore.makes_mono h.overwrites_mono hset

/-- The query with a command added to the node at place `i`. -/
def Query.extendedAt (q : Query) (i : Nat) (c : Command) : Query :=
  ⟨q.path.modify i (Segment.edit (·.insert c)), q.seq, by rw [List.length_modify]; exact q.seq_lt⟩

/-- Writing a command on a node gives the path with that command there, up to the spelling of indices. -/
theorem Query.moveTo_addCommand {i : Nat} (hq : q.Parsed) (h : (q.moveTo i).addCommand c = .ok r) :
    r.moveTo q.seq = (q.extendedAt (q.moveTo i).seq c).normal := by
  have hlt := q.seq_lt
  obtain ⟨hpath, -⟩ := addCommand_path (hq.moveTo i) h
  have hpath : r.path = Path.canonical (q.path.modify (q.moveTo i).seq (Segment.edit (·.insert c))) := hpath
  have hseq : min q.seq (r.path.length - 1) = q.seq := by
    rw [hpath, Path.canonical_length, List.length_modify]
    omega
  simp only [moveTo, hseq]
  simp only [hpath, normal, extendedAt]
  rfl

/-- A write that succeeds gives the same document with one more command on any node of its path, such as `$` or `=`. -/
theorem set_of_addCommand {i : Nat} (hq : q.Parsed) (h : d.set q new = .ok d₂) (hc : c ≠ .delete)
    (hr : (q.moveTo i).addCommand c = .ok r) :
    r.length = q.length ∧ (r.moveTo q.seq).seq = q.seq ∧ d.set (r.moveTo q.seq) new = .ok d₂ := by
  have hmoved := Query.moveTo_addCommand hq hr
  have hlength : (q.extendedAt (q.moveTo i).seq c).normal.length = q.length := by
    rw [Query.length, Query.normal, Path.canonical_length, Query.extendedAt, List.length_modify, Query.length]
  have hseq : (q.extendedAt (q.moveTo i).seq c).normal.seq = q.seq := rfl
  rw [← hmoved] at hlength hseq
  refine ⟨hlength, hseq, ?_⟩
  rw [hmoved, Value.set_normal]
  exact set_of_extends (Path.extends_modify q.path (q.moveTo i).seq hc) rfl h

/-- Writing at `a.+.b` adds an element, and with `$` in front of `+` it adds the same one. -/
theorem set_of_addCommand_append :
    (Value.object [("a", .array [])]).set
      ⟨[⟨{}, .field "a", false⟩, ⟨{ make := true, append := true }, .append, false⟩, ⟨{}, .field "b", false⟩], 0,
        by decide⟩ (.int 1) = .ok (.object [("a", .array [.object [("b", .int 1)]])]) := by
  have hread : Query.parse "a.+.b" =
      .ok ⟨[⟨{}, .field "a", false⟩, ⟨{ append := true }, .append, false⟩, ⟨{}, .field "b", false⟩], 0, by decide⟩ := rfl
  have hset : (Value.object [("a", .array [])]).set
      ⟨[⟨{}, .field "a", false⟩, ⟨{ append := true }, .append, false⟩, ⟨{}, .field "b", false⟩], 0, by decide⟩ (.int 1) =
      .ok (.object [("a", .array [.object [("b", .int 1)]])]) := rfl
  have hadd : Query.addCommand
      ⟨[⟨{}, .field "a", false⟩, ⟨{ append := true }, .append, false⟩, ⟨{}, .field "b", false⟩], 1, by decide⟩ .make =
      .ok ⟨[⟨{}, .field "a", false⟩, ⟨{ make := true, append := true }, .append, false⟩, ⟨{}, .field "b", false⟩], 1,
        by decide⟩ := rfl
  obtain ⟨-, -, hsame⟩ := set_of_addCommand (i := 1) ⟨"a.+.b", _, hread, rfl⟩ hset (by decide) hadd
  exact hsame

end TreeQuery
