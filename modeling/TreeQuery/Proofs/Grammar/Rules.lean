import TreeQuery.Proofs.Grammar.Bodies

/-! # The rules of a path, segment by segment

The rules of `Path.WellFormed` speak of a path as a whole. Here they are split into what each segment obeys
by itself (`Segment.Lawful`) and what any two segments obey (`Segment.MayFollow`), which is what can be
checked while a path is read from left to right (`Path.Continues`, one segment by `continues_cons`). -/

namespace TreeQuery

variable {σ : Type} {Inner : List Char → σ → Prop}

/-! ### Lists -/

section
variable {α : Type}

theorem pairwise_iff_forall_append {R : α → α → Prop} {l : List α} :
    l.Pairwise R ↔ ∀ before x after, l = before ++ x :: after → ∀ y ∈ after, R x y := by
  constructor
  · rintro h before x after rfl y hy
    exact (List.pairwise_cons.mp (List.pairwise_append.mp h).2.1).1 y hy
  · intro h
    induction l with
    | nil => exact .nil
    | cons a l ih =>
      refine .cons (h [] a l rfl) (ih fun before x after hl => h (a :: before) x after ?_)
      rw [hl, List.cons_append]

theorem eq_or_rel_of_pairwise {R : α → α → Prop} {l : List α} (h : l.Pairwise R) {x y : α} (hx : x ∈ l)
    (hy : y ∈ l) : x = y ∨ R x y ∨ R y x := by
  induction h with
  | nil => cases hx
  | cons ha _ ih =>
    rcases List.mem_cons.mp hx with hxa | hxl <;> rcases List.mem_cons.mp hy with hya | hyl
    · exact Or.inl (hxa.trans hya.symm)
    · exact Or.inr (Or.inl (hxa ▸ ha y hyl))
    · exact Or.inr (Or.inr (hya ▸ ha x hxl))
    · exact ih hxl hyl

theorem countP_le_one_iff {f : α → Bool} {l : List α} :
    l.countP f ≤ 1 ↔ l.Pairwise fun x y => f y = true → f x = false := by
  induction l with
  | nil => simp
  | cons a l ih =>
    rw [List.pairwise_cons, ← ih, List.countP_cons]
    by_cases ha : f a = true
    · have h0 : l.countP f = 0 ↔ ∀ y ∈ l, f y = true → f a = false := by
        simp [List.countP_eq_zero, ha]
      rw [← h0]
      simp only [ha, if_true]
      omega
    · simp [ha]

end

/-! ### Segments -/

/-- What a segment obeys by itself. -/
structure Segment.Lawful (Inner : List Char → σ → Prop) (s : Segment σ) : Prop where
  body : s.body.WellFormed Inner
  fits : s.body.Fits s.commands
  compatible : s.commands.Compatible
  marker : s.marker = true → s.commands.delete = false

/-- What the segment `s` obeys with regard to an earlier segment `b`. -/
structure Segment.MayFollow (b s : Segment σ) : Prop where
  commands : Commands.MayFollow b.commands s.commands
  delete : s.commands.delete = false
  marker : s.marker = true → b.commands.delete = false ∧ b.marker = false

/-- What the segments `p` obey behind the segments `before`. -/
structure Path.Continues (Inner : List Char → σ → Prop) (before p : Path σ) : Prop where
  lawful : ∀ s ∈ p, s.Lawful Inner
  follows : ∀ b ∈ before, ∀ s ∈ p, Segment.MayFollow b s
  pairwise : p.Pairwise Segment.MayFollow
  length_lt : before.length + p.length < maxLength

variable {before p : Path σ} {s : Segment σ}

theorem continues_nil (h : before.length < maxLength) : Path.Continues Inner before [] :=
  ⟨by simp, by simp, .nil, h⟩

theorem continues_cons :
    Path.Continues Inner before (s :: p) ↔
      s.Lawful Inner ∧ (∀ b ∈ before, Segment.MayFollow b s) ∧ Path.Continues Inner (before ++ [s]) p := by
  constructor
  · rintro ⟨hl, hf, hp, hn⟩
    obtain ⟨hs, hp⟩ := List.pairwise_cons.mp hp
    refine ⟨hl s (by simp), fun b hb => hf b hb s (by simp), fun t ht => hl t (by simp [ht]), fun b hb t ht => ?_,
      hp, by simp only [List.length_append, List.length_cons, List.length_nil] at hn ⊢; omega⟩
    rcases List.mem_append.mp hb with hb | hb
    · exact hf b hb t (by simp [ht])
    · exact List.mem_singleton.mp hb ▸ hs t ht
  · rintro ⟨hs, hfs, hl, hf, hp, hn⟩
    refine ⟨fun t ht => ?_, fun b hb t ht => ?_, .cons (fun t ht => hf s (by simp) t ht) hp,
      by simp only [List.length_append, List.length_cons, List.length_nil] at hn ⊢; omega⟩
    · rcases List.mem_cons.mp ht with rfl | ht
      · exact hs
      · exact hl t ht
    · rcases List.mem_cons.mp ht with rfl | ht
      · exact hfs b hb
      · exact hf b (by simp [hb]) t ht

theorem Path.Continues.front_lt (h : Path.Continues Inner (before ++ [s]) p) : before.length + 1 < maxLength := by
  have hlength := h.length_lt
  rw [List.length_append, List.length_singleton] at hlength
  exact Nat.lt_of_le_of_lt (Nat.le_add_right _ _) hlength

/-! ### The rules together -/

theorem Path.any_eq_false_iff {f : Segment σ → Bool} : p.any f = false ↔ ∀ s ∈ p, f s = false := by
  simp

section
variable (h : Path.WellFormed Inner p)
include h

/-- Where something is written that `!` excludes, `!` is written nowhere. -/
theorem Path.WellFormed.not_delete (hs : s ∈ p) (hp : ∃ t ∈ p, t.commands.overwrite = true ∨
    t.commands.append = true ∨ t.commands.make = true ∨ t.marker = true) : s.commands.delete = false := by
  cases hd : s.commands.delete with
  | false => rfl
  | true =>
    obtain ⟨ho, ha, hk, hm⟩ := h.delete_alone (List.any_eq_true.mpr ⟨s, hs, hd⟩)
    obtain ⟨t, ht, hp⟩ := hp
    rcases hp with hp | hp | hp | hp
    · exact absurd hp (List.any_eq_false.mp ho t ht)
    · exact absurd hp (List.any_eq_false.mp ha t ht)
    · exact absurd hp (List.any_eq_false.mp hk t ht)
    · exact absurd hp (List.any_eq_false.mp hm t ht)

theorem Path.WellFormed.overwrite_excludes (hs : s ∈ p) (ho : s.commands.overwrite = true) {t : Segment σ}
    (ht : t ∈ p) : t.commands.maybe = false ∧ t.commands.append = false ∧ t.commands.make = false ∧
      t.commands.delete = false := by
  obtain ⟨h1, h2, h3⟩ := h.overwrite_alone (List.any_eq_true.mpr ⟨s, hs, ho⟩)
  exact ⟨h1 t ht, Path.any_eq_false_iff.mp h2 t ht, Path.any_eq_false_iff.mp h3 t ht,
    h.not_delete ht ⟨s, hs, Or.inl ho⟩⟩

theorem Path.WellFormed.lawful (hs : s ∈ p) : s.Lawful Inner := by
  obtain ⟨before, after, hp⟩ := List.append_of_mem hs
  refine ⟨h.bodies s hs, ⟨h.here s hs, h.append s hs⟩, ⟨?_, ?_, ?_⟩, ?_⟩
  · exact fun ho => h.overwrite_excludes hs ho hs
  · exact fun hk => ⟨h.make_ends_maybe before s after hp hk s (by simp),
      h.not_delete hs ⟨s, hs, Or.inr (Or.inr (Or.inl hk))⟩⟩
  · exact fun ha => h.not_delete hs ⟨s, hs, Or.inr (Or.inl ha)⟩
  · exact fun hm => h.not_delete hs ⟨s, hs, Or.inr (Or.inr (Or.inr hm))⟩

theorem Path.WellFormed.pairwise : p.Pairwise Segment.MayFollow := by
  refine pairwise_iff_forall_append.mpr fun before b after hp t ht => ?_
  have hb : b ∈ p := by simp [hp]
  have htp : t ∈ p := by simp [hp, ht]
  refine ⟨⟨?_, fun hm => ⟨?_, ?_⟩, fun hk => ⟨?_, ?_⟩, fun ha => ⟨?_, ?_⟩⟩, ?_, fun hm => ⟨?_, ?_⟩⟩
  · exact fun ho => h.overwrite_excludes htp ho hb
  · exact Commands.eq_false_of_imp (fun ho => (h.overwrite_excludes hb ho htp).1) hm
  · exact Commands.eq_false_of_imp (fun hk => h.make_ends_maybe before b after hp hk t (by simp [ht])) hm
  · exact Commands.eq_false_of_imp (fun ho => (h.overwrite_excludes hb ho htp).2.2.1) hk
  · exact h.not_delete hb ⟨t, htp, Or.inr (Or.inr (Or.inl hk))⟩
  · exact Commands.eq_false_of_imp (fun ho => (h.overwrite_excludes hb ho htp).2.1) ha
  · exact h.not_delete hb ⟨t, htp, Or.inr (Or.inl ha)⟩
  · refine h.delete_first t ?_
    rw [hp]
    cases before <;> simp [ht]
  · exact h.not_delete hb ⟨t, htp, Or.inr (Or.inr (Or.inr hm))⟩
  · exact pairwise_iff_forall_append.mp (countP_le_one_iff.mp h.one_marker) before b after hp t ht hm

theorem Path.WellFormed.continues : Path.Continues Inner [] p :=
  ⟨fun _ => h.lawful, by simp, h.pairwise, by simpa using h.length_lt⟩

end

section
variable (h : Path.Continues Inner [] p)
include h

/-- Two segments in either order, or one and the same. -/
theorem Path.Continues.cases (hs : s ∈ p) {t : Segment σ} (ht : t ∈ p) :
    s = t ∧ s.Lawful Inner ∨ Segment.MayFollow s t ∨ Segment.MayFollow t s := by
  rcases eq_or_rel_of_pairwise h.pairwise hs ht with he | hr
  · exact Or.inl ⟨he, h.lawful s hs⟩
  · exact Or.inr hr

theorem Path.Continues.overwrite_excludes (hs : s ∈ p) (ho : s.commands.overwrite = true) {t : Segment σ}
    (ht : t ∈ p) : t.commands.maybe = false ∧ t.commands.append = false ∧ t.commands.make = false := by
  rcases h.cases hs ht with ⟨rfl, hl⟩ | hst | hts
  · obtain ⟨h1, h2, h3, -⟩ := hl.compatible.overwrite ho
    exact ⟨h1, h2, h3⟩
  · exact ⟨Commands.eq_false_of_imp (fun hm => (hst.commands.maybe hm).1) ho,
      Commands.eq_false_of_imp (fun ha => (hst.commands.append ha).1) ho,
      Commands.eq_false_of_imp (fun hk => (hst.commands.make hk).1) ho⟩
  · obtain ⟨h1, h2, h3, -⟩ := hts.commands.overwrite ho
    exact ⟨h1, h2, h3⟩

theorem Path.Continues.delete_excludes (hs : s ∈ p) (hd : s.commands.delete = true) {t : Segment σ} (ht : t ∈ p) :
    t.commands.overwrite = false ∧ t.commands.append = false ∧ t.commands.make = false ∧ t.marker = false := by
  rcases h.cases hs ht with ⟨rfl, hl⟩ | hst | hts
  · exact ⟨Commands.eq_false_of_imp (fun ho => (hl.compatible.overwrite ho).2.2.2) hd,
      Commands.eq_false_of_imp hl.compatible.append hd,
      Commands.eq_false_of_imp (fun hk => (hl.compatible.make hk).2) hd, Commands.eq_false_of_imp hl.marker hd⟩
  · exact ⟨Commands.eq_false_of_imp (fun ho => (hst.commands.overwrite ho).2.2.2) hd,
      Commands.eq_false_of_imp (fun ha => (hst.commands.append ha).2) hd,
      Commands.eq_false_of_imp (fun hk => (hst.commands.make hk).2) hd,
      Commands.eq_false_of_imp (fun hm => (hst.marker hm).1) hd⟩
  · rw [hts.delete] at hd
    cases hd

theorem Path.Continues.wellFormed (hne : p ≠ []) (hlast : ∀ s ∈ p.getLast?, s.marker = false) :
    Path.WellFormed Inner p where
  nonempty := hne
  length_lt := by simpa using h.length_lt
  bodies s hs := (h.lawful s hs).body
  here s hs := (h.lawful s hs).fits.here
  append s hs := (h.lawful s hs).fits.append
  delete_first s hs := by
    cases p with
    | nil => cases hs
    | cons b rest => exact ((List.pairwise_cons.mp h.pairwise).1 s hs).delete
  delete_alone hd := by
    obtain ⟨s, hs, hd⟩ := List.any_eq_true.mp hd
    have hall := fun t (ht : t ∈ p) => h.delete_excludes hs hd ht
    exact ⟨Path.any_eq_false_iff.mpr fun t ht => (hall t ht).1, Path.any_eq_false_iff.mpr fun t ht => (hall t ht).2.1,
      Path.any_eq_false_iff.mpr fun t ht => (hall t ht).2.2.1, Path.any_eq_false_iff.mpr fun t ht => (hall t ht).2.2.2⟩
  overwrite_alone ho := by
    obtain ⟨s, hs, ho⟩ := List.any_eq_true.mp ho
    have hall := fun t (ht : t ∈ p) => h.overwrite_excludes hs ho ht
    exact ⟨fun t ht => (hall t ht).1, Path.any_eq_false_iff.mpr fun t ht => (hall t ht).2.1,
      Path.any_eq_false_iff.mpr fun t ht => (hall t ht).2.2⟩
  make_ends_maybe before s after hp hk t ht := by
    rcases List.mem_cons.mp ht with rfl | ht
    · exact ((h.lawful t (by simp [hp])).compatible.make hk).1
    · have hst := (pairwise_iff_forall_append.mp h.pairwise before s after hp t ht).commands
      exact Commands.eq_false_of_imp (fun hm => (hst.maybe hm).2) hk
  one_marker := countP_le_one_iff.mpr (h.pairwise.imp fun hst hm => (hst.marker hm).2)
  last_unmarked := hlast

end

/-- Part of a path obeys the rules, if no `>` stands at its end. -/
theorem Path.WellFormed.sublist {part : Path σ} (h : Path.WellFormed Inner p) (hpart : part.Sublist p) (hne : part ≠ [])
    (hlast : ∀ s ∈ part.getLast?, s.marker = false) : Path.WellFormed Inner part := by
  have hcontinues : Path.Continues Inner [] part :=
    ⟨fun s hs => h.lawful (hpart.subset hs), nofun, h.pairwise.sublist hpart,
      (Nat.zero_add _).symm ▸ Nat.lt_of_le_of_lt hpart.length_le h.length_lt⟩
  exact hcontinues.wellFormed hne hlast

/-- A segment without commands may stand behind any other one. -/
theorem Segment.mayFollow_of_bare (hc : s.commands = {}) (hm : s.marker = false) (b : Segment σ) :
    Segment.MayFollow b s := by
  obtain ⟨commands, body, marker⟩ := s
  cases hc
  cases hm
  exact ⟨⟨nofun, nofun, nofun, nofun⟩, rfl, nofun⟩

/-- Where no command writes, the rules are about bodies and `>` alone, and `#` has no `?`. -/
theorem Path.wellFormed_of_reading (hne : p ≠ []) (hlength : p.length < maxLength)
    (hbodies : ∀ s ∈ p, s.body.WellFormed Inner ∧ s.body ≠ .append) (hhere : ∀ s ∈ p, s.body = .here → s.commands = {})
    (hwrites : Path.writes p = false) (hmarker : p.countP (·.marker) ≤ 1)
    (hlast : ∀ s ∈ p.getLast?, s.marker = false) : Path.WellFormed Inner p := by
  have hnone : ∀ s ∈ p, s.commands.overwrite = false ∧ s.commands.make = false ∧ s.commands.append = false ∧
      s.commands.delete = false := fun s hs => by
    simpa [Commands.isWrite, and_assoc] using Path.any_eq_false_iff.mp hwrites s hs
  exact
    { nonempty := hne
      length_lt := hlength
      bodies := fun s hs => (hbodies s hs).1
      here := hhere
      append := fun s hs => iff_of_false (by simp [(hnone s hs).2.2.1]) (hbodies s hs).2
      delete_first := fun s hs => (hnone s (List.mem_of_mem_tail hs)).2.2.2
      delete_alone := fun h => by
        obtain ⟨s, hs, hd⟩ := List.any_eq_true.mp h
        exact absurd hd (by simp [(hnone s hs).2.2.2])
      overwrite_alone := fun h => by
        obtain ⟨s, hs, ho⟩ := List.any_eq_true.mp h
        exact absurd ho (by simp [(hnone s hs).1])
      make_ends_maybe := fun before s after hp hk => absurd hk (by simp [(hnone s (by simp [hp])).2.1])
      one_marker := hmarker
      last_unmarked := hlast }

end TreeQuery
