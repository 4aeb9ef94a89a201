import TreeQuery.Proofs.Grammar.Spelling

/-! # Reading commands

Whether a command is refused depends on the ones before it, but what a run of commands may be in the end
does not depend on their order, `!` aside: `Admissible` says it of the set alone. It passes to subsets
(`Admissible.mono`), so that a run whose last set is admissible is never refused on the way. -/

namespace TreeQuery

namespace Commands

/-! ### Sets without a conflict -/

/-- The commands of one segment get along. -/
structure Compatible (s : Commands) : Prop where
  overwrite : s.overwrite = true → s.maybe = false ∧ s.append = false ∧ s.make = false ∧ s.delete = false
  make : s.make = true → s.maybe = false ∧ s.delete = false
  append : s.append = true → s.delete = false

/-- The commands of a segment get along with the commands `seen` of earlier ones. -/
structure MayFollow (seen s : Commands) : Prop where
  overwrite : s.overwrite = true →
    seen.maybe = false ∧ seen.append = false ∧ seen.make = false ∧ seen.delete = false
  maybe : s.maybe = true → seen.overwrite = false ∧ seen.make = false
  make : s.make = true → seen.overwrite = false ∧ seen.delete = false
  append : s.append = true → seen.overwrite = false ∧ seen.delete = false

/-- A segment behind the separator `after` may carry these commands. -/
structure Admissible (seen : Commands) (after : Option Separator) (s : Commands) : Prop where
  compatible : s.Compatible
  mayFollow : MayFollow seen s
  first : s.delete = true → after = none

variable {seen s t : Commands} {after : Option Separator}

theorem eq_false_of_imp {a b : Bool} (h : a = true → b = false) (hb : b = true) : a = false := by
  cases a with
  | false => rfl
  | true => exact absurd (h rfl) (by simp [hb])

section
variable (h : ∀ c, s.has c = true → t.has c = true)
include h

theorem has_eq_false_mono {c : Command} (hc : t.has c = false) : s.has c = false := by
  cases hs : s.has c with
  | false => rfl
  | true => exact absurd (h c hs) (by simp [hc])

theorem Compatible.mono (ht : t.Compatible) : s.Compatible := by
  have hf := fun c => has_eq_false_mono h (c := c)
  refine ⟨fun ho => ?_, fun hk => ?_, fun ha => hf .delete (ht.append (h .append ha))⟩
  · obtain ⟨h1, h2, h3, h4⟩ := ht.overwrite (h .overwrite ho)
    exact ⟨hf .maybe h1, hf .append h2, hf .make h3, hf .delete h4⟩
  · obtain ⟨h1, h2⟩ := ht.make (h .make hk)
    exact ⟨hf .maybe h1, hf .delete h2⟩

theorem MayFollow.mono_seen {c : Commands} (ht : MayFollow t c) : MayFollow s c := by
  have hf := fun d => has_eq_false_mono h (c := d)
  refine ⟨fun ho => ?_, fun hm => ?_, fun hk => ?_, fun ha => ?_⟩
  · obtain ⟨h1, h2, h3, h4⟩ := ht.overwrite ho
    exact ⟨hf .maybe h1, hf .append h2, hf .make h3, hf .delete h4⟩
  · obtain ⟨h1, h2⟩ := ht.maybe hm
    exact ⟨hf .overwrite h1, hf .make h2⟩
  · obtain ⟨h1, h2⟩ := ht.make hk
    exact ⟨hf .overwrite h1, hf .delete h2⟩
  · obtain ⟨h1, h2⟩ := ht.append ha
    exact ⟨hf .overwrite h1, hf .delete h2⟩

theorem MayFollow.mono (ht : MayFollow seen t) : MayFollow seen s :=
  ⟨fun ho => ht.overwrite (h .overwrite ho), fun hm => ht.maybe (h .maybe hm), fun hk => ht.make (h .make hk),
    fun ha => ht.append (h .append ha)⟩

theorem Admissible.mono (ht : Admissible seen after t) : Admissible seen after s :=
  ⟨ht.compatible.mono h, ht.mayFollow.mono h, fun hd => ht.first (h .delete hd)⟩

end

theorem mayFollow_empty (s : Commands) : MayFollow {} s := ⟨by simp, by simp, by simp, by simp⟩

theorem admissible_empty : Admissible seen after {} :=
  ⟨⟨nofun, nofun, nofun⟩, ⟨nofun, nofun, nofun, nofun⟩, nofun⟩

theorem mayFollow_union {a b s : Commands} : MayFollow (a.union b) s ↔ MayFollow a s ∧ MayFollow b s := by
  constructor
  · intro h
    exact ⟨h.mono_seen fun c hc => by simp [has_union, hc], h.mono_seen fun c hc => by simp [has_union, hc]⟩
  · rintro ⟨ha, hb⟩
    refine ⟨fun ho => ?_, fun hm => ?_, fun hk => ?_, fun hp => ?_⟩
    · simp [union, ha.overwrite ho, hb.overwrite ho]
    · simp [union, ha.maybe hm, hb.maybe hm]
    · simp [union, ha.make hk, hb.make hk]
    · simp [union, ha.append hp, hb.append hp]

/-! ### One command -/

section
variable {c : Command}

theorem insert_append_of_ne (h : c ≠ .append) : (s.insert c).append = s.append := by
  cases c with
  | append => exact absurd rfl h
  | overwrite | maybe | make | delete => rfl

theorem insert_delete_of_ne (h : c ≠ .delete) : (s.insert c).delete = s.delete := by
  cases c with
  | delete => exact absurd rfl h
  | overwrite | maybe | make | append => rfl

theorem insert_ne_empty : s.insert c ≠ {} := by
  intro h
  have hc := has_insert s c c
  rw [h] at hc
  cases c <;> simp [has] at hc

end

theorem first?_eq_none_iff : s.first? = none ↔ s = {} := by
  obtain ⟨a, b, c, d, e⟩ := s
  simp [first?, Command.namingOrder, has]

theorem refusal?_eq_none_iff {c : Command} {position : Nat} :
    c.refusal? seen s after position = none ↔
      s.has c = false ∧ (c = .delete → after = none) ∧ c.conflicts seen s = {} := by
  unfold Command.refusal?
  by_cases hw : s.has c = true
  · simp [hw]
  · rw [if_neg hw]
    by_cases hd : c = .delete
    · have hw' : s.has .delete = false := by simpa [hd] using hw
      cases after <;> simp [hd, hw', first?_eq_none_iff]
    · simp [hd, hw, first?_eq_none_iff]

/-- What a command conflicts with is what would make the set with it inadmissible. -/
theorem conflicts_eq_empty_iff {c : Command} (h : Admissible seen after s) :
    (c = .delete → after = none) ∧ c.conflicts seen s = {} ↔
      Admissible seen after (s.insert c) ∧ (c = .delete → s = {}) := by
  obtain ⟨⟨h1, h2, h3⟩, ⟨h4, h5, h6, h7⟩, h8⟩ := h
  obtain ⟨a, b, d, e, f⟩ := s
  -- The rules of `s` hold already, and a rule that `c` adds speaks of one pair, which is one conflict of `c`.
  constructor
  · rintro ⟨hd, hc⟩
    refine ⟨⟨⟨?_, ?_, ?_⟩, ⟨?_, ?_, ?_, ?_⟩, ?_⟩, ?_⟩ <;> cases c <;>
      simp_all [Command.conflicts, insert, union, inter]
  · rintro ⟨⟨⟨h1, h2, h3⟩, ⟨h4, h5, h6, h7⟩, h8⟩, hd⟩
    cases c <;> simp_all [Command.conflicts, insert, union, inter]

/-! ### Runs of commands -/

/-- The set with commands added one after another. -/
def insertAll (s : Commands) (order : List Command) : Commands := order.foldl insert s

theorem has_insertAll {c : Command} {order : List Command} :
    (s.insertAll order).has c = true ↔ c ∈ order ∨ s.has c = true := by
  induction order generalizing s with
  | nil => simp [insertAll]
  | cons d rest ih =>
    have hd : s.insertAll (d :: rest) = (s.insert d).insertAll rest := rfl
    rw [hd, ih, has_insert]
    simp only [Bool.or_eq_true, decide_eq_true_eq, List.mem_cons]
    rw [or_left_comm, or_assoc]

/-- Commands that can be added to `s` in this order: each is new, and `!` comes first of all. -/
structure Addable (s : Commands) (order : List Command) : Prop where
  nodup : order.Nodup
  fresh : ∀ c ∈ order, s.has c = false
  delete : Command.delete ∈ order → order.head? = some .delete ∧ s = {}

theorem addable_cons {c : Command} {rest : List Command} :
    s.Addable (c :: rest) ↔ s.has c = false ∧ (c = .delete → s = {}) ∧ (s.insert c).Addable rest := by
  constructor
  · rintro ⟨hn, hf, hd⟩
    obtain ⟨hc, hn⟩ := List.nodup_cons.mp hn
    refine ⟨hf c (by simp), fun h => (hd (by simp [h])).2, hn, fun d hm => ?_, fun hm => ?_⟩
    · have hne : d ≠ c := fun h => hc (h ▸ hm)
      simp [has_insert, hne, hf d (by simp [hm])]
    · obtain ⟨hh, -⟩ := hd (by simp [hm])
      have : c = .delete := by simpa using hh
      exact absurd (this ▸ hm) hc
  · rintro ⟨hc, hd, hn, hf, hd'⟩
    have hfresh : ∀ d ∈ rest, d ≠ c ∧ s.has d = false := fun d hm => by
      simpa [has_insert] using hf d hm
    refine ⟨List.nodup_cons.mpr ⟨fun hm => (hfresh c hm).1 rfl, hn⟩, ?_, fun hm => ?_⟩
    · intro d hm
      rcases List.mem_cons.mp hm with rfl | hm
      · exact hc
      · exact (hfresh d hm).2
    · rcases List.mem_cons.mp hm with hm | hm
      · exact ⟨by simp [hm], hd hm.symm⟩
      · have hempty := (hd' hm).2
        have := has_insert s c c
        rw [hempty] at this
        cases c <;> simp [has] at this

/-- The next character, if there is one, is no command. -/
def NoCommand (text : List Char) : Prop := ∀ c ∈ text.head?, Command.ofSymbol? c = none

theorem noCommand_nil : NoCommand [] := by simp [NoCommand]

theorem noCommand_cons {c : Char} {rest : List Char} : NoCommand (c :: rest) ↔ Command.ofSymbol? c = none := by
  simp [NoCommand]

theorem symbol_of_ofSymbol? {c : Char} {command : Command} (h : Command.ofSymbol? c = some command) :
    command.symbol = c := by
  unfold Command.ofSymbol? at h
  split at h <;> simp at h <;> subst h <;> rfl

theorem readCommands_insertAll {order : List Command} {rest : List Char} (hs : s.Addable order)
    (hrest : NoCommand rest) (h : Admissible seen after (s.insertAll order)) (position : Nat) :
    readCommands seen after s position (order.map Command.symbol ++ rest) =
      .ok (s.insertAll order, position + order.length, rest) := by
  induction order generalizing s position with
  | nil =>
    cases rest with
    | nil => rfl
    | cons c rest => simp [readCommands, noCommand_cons.mp hrest, insertAll]
  | cons c order ih =>
    obtain ⟨hc, hd, hs⟩ := addable_cons.mp hs
    have hins : s.insertAll (c :: order) = (s.insert c).insertAll order := rfl
    rw [hins] at h ⊢
    have hadm : Admissible seen after (s.insert c) := h.mono fun d hd => has_insertAll.mpr (Or.inr hd)
    have hadm₀ : Admissible seen after s := hadm.mono fun d hd => by simp [has_insert, hd]
    have hfree : c.refusal? seen s after position = none :=
      refusal?_eq_none_iff.mpr ⟨hc, (conflicts_eq_empty_iff hadm₀).mpr ⟨hadm, hd⟩⟩
    simp only [List.map_cons, List.cons_append, readCommands, Command.ofSymbol?_symbol, hfree]
    rw [ih hs h (position + 1), List.length_cons, Nat.add_right_comm, Nat.add_assoc]

theorem insertAll_of_readCommands {position position' : Nat} {text rest : List Char}
    (hs : Admissible seen after s) (h : readCommands seen after s position text = .ok (t, position', rest)) :
    ∃ order, s.Addable order ∧ t = s.insertAll order ∧ Admissible seen after t ∧
      text = order.map Command.symbol ++ rest ∧ NoCommand rest ∧ position' = position + order.length := by
  fun_induction readCommands seen after s position text with
  | case1 s position =>
    simp only [Except.ok.injEq, Prod.mk.injEq] at h
    obtain ⟨rfl, rfl, rfl⟩ := h
    exact ⟨[], ⟨List.nodup_nil, by simp, by simp⟩, rfl, hs, rfl, noCommand_nil, rfl⟩
  | case2 s position c tail hc =>
    simp only [Except.ok.injEq, Prod.mk.injEq] at h
    obtain ⟨rfl, rfl, rfl⟩ := h
    exact ⟨[], ⟨List.nodup_nil, by simp, by simp⟩, rfl, hs, rfl, noCommand_cons.mpr hc, rfl⟩
  | case3 => simp at h
  | case4 s position c tail command hc hfree ih =>
    obtain ⟨hnew, hconf⟩ := refusal?_eq_none_iff.mp hfree
    obtain ⟨hadm, hd⟩ := (conflicts_eq_empty_iff hs).mp hconf
    obtain ⟨order, hadd, ht, hadm', htext, hrest, hpos⟩ := ih hadm h
    refine ⟨command :: order, addable_cons.mpr ⟨hnew, hd, hadd⟩, ht, hadm', ?_, hrest, ?_⟩
    · rw [List.map_cons, symbol_of_ofSymbol? hc, htext, List.cons_append]
    · rw [hpos, List.length_cons]
      omega

/-- A written set can be added command by command. -/
theorem SpelledBy.exists_addable {front : List Char} (h : s.SpelledBy front) :
    ∃ order, Addable {} order ∧ insertAll {} order = s ∧ front = order.map Command.symbol := by
  obtain ⟨order, hn, hmem, hd, rfl⟩ := h
  refine ⟨order, ⟨hn, fun c _ => by cases c <;> rfl, fun hm => ⟨hd hm, rfl⟩⟩, ext_has fun c => ?_, rfl⟩
  rw [Bool.eq_iff_iff, has_insertAll, ← hmem]
  cases c <;> simp [has]

/-- The front of a token is read as commands exactly if it spells a set of them that is admissible there
    and no further command follows. -/
theorem readCommands_ok_iff {position position' : Nat} {text rest : List Char} :
    readCommands seen after {} position text = .ok (s, position', rest) ↔
      ∃ front, s.SpelledBy front ∧ text = front ++ rest ∧ NoCommand rest ∧ Admissible seen after s ∧
        position' = position + front.length := by
  constructor
  · intro h
    obtain ⟨order, ⟨hn, -, hd⟩, rfl, hadm, htext, hrest, hpos⟩ := insertAll_of_readCommands admissible_empty h
    refine ⟨order.map Command.symbol, ⟨order, hn, fun c => ?_, fun hm => (hd hm).1, rfl⟩, htext, hrest, hadm, ?_⟩
    · rw [has_insertAll]
      cases c <;> simp [has]
    · rw [hpos, List.length_map]
  · rintro ⟨front, hspell, rfl, hrest, hadm, hpos⟩
    obtain ⟨order, hadd, hs, rfl⟩ := hspell.exists_addable
    rw [readCommands_insertAll hadd hrest (hs ▸ hadm), hs, hpos, List.length_map]

end Commands

end TreeQuery
