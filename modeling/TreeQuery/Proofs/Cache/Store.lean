import TreeQuery.Cache.Store

/-! # What a store remembers

A store drops expired entries at several occasions, and every entry when it is cleared. None but the last shows in
what it answers: a look-up finds what was inserted last under its text, unless the store was cleared since, as long
as the lifetime of that insertion lasts (`get_after`). So a store answers as a map does from which nothing is ever
dropped (`lastSet`).

All that a later look-up can see of a store are its live entries, and these are what is said of each call. -/

namespace TreeQuery

/-! ### Histories -/

/-- Events with the moments at which they took place, the latest first. -/
abbrev History (α : Type) := List (Nat × α)

/-- Whether the events took place one after another, and none of them behind a moment. -/
def History.Until {α : Type} (now : Nat) : History α → Prop
  | [] => True
  | (moment, _) :: before => moment ≤ now ∧ Until moment before

theorem History.Until.mono {α : Type} {now later : Nat} {history : History α} (h : Until now history)
    (hle : now ≤ later) : Until later history := by
  cases history with
  | nil => trivial
  | cons event before => exact ⟨Nat.le_trans h.1 hle, h.2⟩

/-- None of the events took place behind the moment. -/
theorem History.Until.le {α : Type} {now : Nat} {history : History α} (h : Until now history) {x : Nat × α}
    (hx : x ∈ history) : x.1 ≤ now := by
  induction history generalizing now with
  | nil => cases hx
  | cons event before ih =>
    obtain ⟨hle, hbefore⟩ := h
    rcases List.mem_cons.mp hx with rfl | hx
    · exact hle
    · exact Nat.le_trans (ih hbefore hx) hle

namespace Store

variable {s : Store} {now later : Nat} {spec other : String} {outcome : Outcome} {ttl : Nat}

/-- What can be asked of a store. -/
inductive Call where
  | get (spec : String)
  | set (spec : String) (outcome : Outcome) (ttl : Nat)
  | purge
  | clear

/-- The store that a call leaves. -/
def call (now : Nat) (s : Store) : Call → Store
  | .get spec => (s.get now spec).2
  | .set spec outcome ttl => s.set now spec outcome ttl
  | .purge => (s.purge now).2
  | .clear => s.clear

/-- The store that calls leave which began with a new one. -/
def after : History Call → Store
  | [] => {}
  | (now, c) :: before => (after before).call now c

/-! ### Insertions -/

/-- What was inserted, when, and for how long. -/
structure Insertion where
  moment : Nat
  outcome : Outcome
  ttl : Nat

/-- Whether the lifetime of an insertion lasts beyond a moment. -/
def Insertion.lasts (now : Nat) (i : Insertion) : Bool := now < i.moment + i.ttl

/-- The entry that an insertion makes. -/
def Insertion.entry (i : Insertion) : Entry := ⟨i.outcome, i.moment + i.ttl⟩

/-- The last insertion under a text since the store was last cleared. -/
def lastSet (spec : String) : History Call → Option Insertion
  | [] => none
  | (_, .get _) :: before => lastSet spec before
  | (now, .set other outcome ttl) :: before =>
    if other = spec then some ⟨now, outcome, ttl⟩ else lastSet spec before
  | (_, .purge) :: before => lastSet spec before
  | (_, .clear) :: _ => none

/-! ### Live entries -/

/-- The entry under a text, if it counts at a moment. -/
def live? (now : Nat) (s : Store) (spec : String) : Option Entry := (Fields.get? spec s.entries).filter (isLive now)

/-- A look-up answers what is live. -/
theorem get_fst : (s.get now spec).1 = (s.live? now spec).map Entry.outcome := by
  unfold get live?
  cases Fields.get? spec s.entries with
  | none => rfl
  | some e =>
    rw [Option.filter_some]
    dsimp only
    split <;> rfl

/-- What does not count at a moment counts at no later one. -/
theorem filter_isLive (h : now ≤ later) (e : Option Entry) :
    (e.filter (isLive now)).filter (isLive later) = e.filter (isLive later) := by
  rw [Option.filter_filter]
  refine congrArg (Option.filter · e) (funext fun e => ?_)
  simp only [isLive, ← Bool.decide_and]
  exact decide_eq_decide.mpr (and_iff_right_of_imp (Nat.lt_of_le_of_lt h))

theorem live?_later (h : now ≤ later) : s.live? later spec = (s.live? now spec).filter (isLive later) :=
  (filter_isLive h _).symm

theorem get?_sweep {entries : Fields Entry} (h : entries.Sorted) :
    (Fields.get? spec (sweep now entries)).filter (isLive now) = (Fields.get? spec entries).filter (isLive now) := by
  rw [sweep, Fields.get?_filter h, Option.filter_filter]
  simp only [Bool.and_self]

theorem live?_get (h : s.entries.Sorted) : (s.get now other).2.live? now spec = s.live? now spec := by
  unfold get
  cases hget : Fields.get? other s.entries with
  | none => rfl
  | some e =>
    dsimp only
    split
    · rfl
    · -- What is dropped was not live.
      rename_i hdead
      unfold live?
      by_cases heq : other = spec
      · subst heq
        rw [Fields.get?_erase_self h, hget, Option.filter_some, if_neg hdead, Option.filter_none]
      · rw [Fields.get?_erase_of_ne heq]

theorem live?_set (h : s.entries.Sorted) : (s.set now other outcome ttl).live? now spec =
    if other = spec then (some ⟨outcome, now + ttl⟩ : Option Entry).filter (isLive now) else s.live? now spec := by
  have hinsert : (Fields.get? spec (Fields.insert other ⟨outcome, now + ttl⟩ s.entries)).filter (isLive now) =
      if other = spec then (some ⟨outcome, now + ttl⟩ : Option Entry).filter (isLive now) else s.live? now spec := by
    rw [Fields.get?_insert]
    split <;> rfl
  rw [← hinsert]
  unfold live? set
  dsimp only
  split
  · exact get?_sweep (h.insert _ _)
  · rfl

theorem live?_purge (h : s.entries.Sorted) : (s.purge now).2.live? now spec = s.live? now spec := get?_sweep h

theorem live?_clear : s.clear.live? now spec = none := rfl

theorem sorted_get (h : s.entries.Sorted) : (s.get now spec).2.entries.Sorted := by
  unfold get
  cases Fields.get? spec s.entries with
  | none => exact h
  | some e =>
    dsimp only
    split
    · exact h
    · exact h.erase spec

theorem sorted_set (h : s.entries.Sorted) : (s.set now spec outcome ttl).entries.Sorted := by
  unfold set
  dsimp only
  split
  · exact (h.insert spec _).filter _
  · exact h.insert spec _

theorem sorted_after (history : History Call) : (after history).entries.Sorted := by
  induction history with
  | nil => exact Fields.sorted_nil
  | cons event before ih =>
    obtain ⟨now, c⟩ := event
    cases c with
    | get spec => exact sorted_get ih
    | set spec outcome ttl => exact sorted_set ih
    | purge => exact ih.filter _
    | clear => exact Fields.sorted_nil

/-- What is live behind some calls are the last insertions whose lifetimes last. -/
theorem live?_after {history : History Call} (h : History.Until now history) (spec : String) :
    (after history).live? now spec = ((lastSet spec history).map Insertion.entry).filter (isLive now) := by
  induction history generalizing now with
  | nil => rfl
  | cons event before ih =>
    obtain ⟨moment, c⟩ := event
    obtain ⟨hle, hbefore⟩ := h
    have hsorted := sorted_after before
    -- A call is described at its own moment, and what is live then is looked at later.
    have hthen : (after ((moment, c) :: before)).live? moment spec =
        ((lastSet spec ((moment, c) :: before)).map Insertion.entry).filter (isLive moment) := by
      cases c with
      | get other => exact (live?_get hsorted).trans (ih hbefore)
      | set other outcome ttl =>
        refine (live?_set hsorted).trans ?_
        rw [lastSet, ih hbefore]
        split <;> rfl
      | purge => exact (live?_purge hsorted).trans (ih hbefore)
      | clear => exact live?_clear
    rw [live?_later hle, hthen, filter_isLive hle]

/-! ### Answers -/

theorem isLive_entry (i : Insertion) : isLive now i.entry = i.lasts now := rfl

theorem lasts_iff {i : Insertion} (hle : i.moment ≤ now) (h : i.ttl = 0 ∨ now < i.moment + i.ttl) :
    i.lasts now = true ↔ i.ttl ≠ 0 := by
  rw [Insertion.lasts, decide_eq_true_iff]
  omega

/-- The last insertion is one of the calls. -/
theorem mem_of_lastSet {history : History Call} {i : Insertion} (h : lastSet spec history = some i) :
    (i.moment, .set spec i.outcome i.ttl) ∈ history := by
  induction history with
  | nil => cases h
  | cons event before ih =>
    obtain ⟨now, c⟩ := event
    cases c with
    | get other => exact List.mem_cons_of_mem _ (ih h)
    | set other outcome ttl =>
      rw [lastSet] at h
      split at h
      · rename_i heq
        subst heq
        cases h
        exact List.mem_cons_self
      · exact List.mem_cons_of_mem _ (ih h)
    | purge => exact List.mem_cons_of_mem _ (ih h)
    | clear => cases h

/-- A look-up answers what was inserted last under its text since the store was cleared, as long as that lasts. Where
    every lifetime is zero or lasts until then, this is so exactly if it is not zero. -/
theorem get_after {history : History Call} (hclock : History.Until now history) (spec : String) :
    ((after history).get now spec).1 = ((lastSet spec history).filter (·.lasts now)).map Insertion.outcome ∧
      ((∀ moment other outcome ttl, (moment, Call.set other outcome ttl) ∈ history → ttl = 0 ∨ now < moment + ttl) →
        ∀ outcome, ((after history).get now spec).1 = some outcome ↔
          ∃ i, lastSet spec history = some i ∧ i.ttl ≠ 0 ∧ i.outcome = outcome) := by
  have hanswer : ((after history).get now spec).1 =
      ((lastSet spec history).filter (·.lasts now)).map Insertion.outcome := by
    rw [get_fst, live?_after hclock]
    cases lastSet spec history with
    | none => rfl
    | some i =>
      rw [Option.map_some, Option.filter_some, Option.filter_some, isLive_entry]
      split <;> rfl
  refine ⟨hanswer, fun httl outcome => ?_⟩
  rw [hanswer, Option.map_eq_some_iff]
  refine exists_congr fun i => ?_
  rw [Option.filter_eq_some_iff, and_assoc]
  refine and_congr_right fun hi => and_congr_left fun _ => ?_
  have hmem := mem_of_lastSet hi
  exact lasts_iff (hclock.le hmem) (httl _ _ _ _ hmem)

/-- What counts is the second of two insertions under `a`. Its outcome is not that of reading `a`, and neither the
    look-up behind it nor the purge drops it. -/
theorem get_after_replaced :
    ((after [(5, .purge), (4, .get "a"), (3, .set "a" (.error .empty) 9), (2, .get "a"),
        (1, .set "a" (Query.parse "a") 0)]).get 6 "a").1 = some (.error .empty) := by
  have hclock : History.Until 6 [(5, Call.purge), (4, .get "a"), (3, .set "a" (.error .empty) 9), (2, .get "a"),
      (1, .set "a" (Query.parse "a") 0)] := by
    simp [History.Until]
  refine ((get_after hclock "a").2 (fun moment other outcome ttl hmem => ?_) _).mpr
    ⟨⟨3, .error .empty, 9⟩, rfl, by decide, rfl⟩
  simp only [List.mem_cons, Prod.mk.injEq, reduceCtorEq, and_false, false_or, List.not_mem_nil, or_false,
    Call.set.injEq] at hmem
  omega

end Store

end TreeQuery
