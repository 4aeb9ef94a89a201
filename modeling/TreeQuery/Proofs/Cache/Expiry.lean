import TreeQuery.Proofs.Cache.Store

/-! # Expired entries do not pile up

Whatever a call does, it adds one expired entry at most, and only an insertion does so. The insertions are counted, and
every 256th one sweeps the store, so where entries expire at once or not at all, a store holds no more expired entries
than were inserted since the last sweep (`expired_after`). Clearing and purging drop entries and leave the count as it
is. -/

namespace TreeQuery

namespace Store

variable {s : Store} {now later moment : Nat} {spec : String} {outcome : Outcome} {ttl : Nat}

/-! ### Expired entries -/

/-- The number of entries that are held and count no more. -/
def expired (now : Nat) (s : Store) : Nat := s.entries.countP fun p => !isLive now p.2

/-- A purge tells how many expired entries were held. -/
theorem purge_fst : (s.purge now).1 = s.expired now := by
  have hlength := List.length_eq_countP_add_countP (fun p : String × Entry => isLive now p.2) (l := s.entries)
  have hlive : (sweep now s.entries).length = s.entries.countP fun p => isLive now p.2 :=
    List.countP_eq_length_filter.symm
  simp only [Bool.not_eq_true, Bool.decide_eq_false] at hlength
  rw [purge, expired, hlive]
  omega

/-- None of the entries that a sweep keeps has expired. -/
theorem countP_sweep (entries : Fields Entry) : (sweep now entries).countP (fun p => !isLive now p.2) = 0 := by
  rw [List.countP_eq_zero]
  intro p hp
  simp [(List.mem_filter.mp hp).2]

theorem expired_purge : (s.purge now).2.expired now = 0 := countP_sweep _

/-! ### Lifetimes of zero and lasting ones -/

/-- Whether no entry expires between two moments. -/
def Steady (now later : Nat) (entries : Fields Entry) : Prop := ∀ p ∈ entries, isLive now p.2 = isLive later p.2

/-- Whether what a call inserts expires at once or not before a moment. -/
def Call.Settled (now later : Nat) : Call → Prop
  | .set _ _ ttl => ttl = 0 ∨ later < now + ttl
  | _ => True

/-- What is inserted for no time is expired at once, and what lasts is still live later. -/
theorem isLive_inserted (hle : now ≤ later) (httl : ttl = 0 ∨ later < now + ttl) :
    isLive now ⟨outcome, now + ttl⟩ = isLive later ⟨outcome, now + ttl⟩ := by
  unfold isLive
  rw [decide_eq_decide]
  dsimp only
  rcases httl with rfl | hlasts <;> omega

theorem Steady.mono {entries : Fields Entry} (h : Steady moment later entries) (hle : moment ≤ now)
    (hle' : now ≤ later) : Steady now later entries := by
  intro p hp
  have hp := h p hp
  unfold isLive at hp ⊢
  rw [decide_eq_decide] at hp ⊢
  omega

theorem Steady.insert {entries : Fields Entry} (h : Steady now later entries) (hle : now ≤ later)
    (httl : ttl = 0 ∨ later < now + ttl) : Steady now later (Fields.insert spec ⟨outcome, now + ttl⟩ entries) := by
  intro p hp
  rcases Fields.mem_insert hp with rfl | hp
  · exact isLive_inserted hle httl
  · exact h p hp

/-- What is swept at a moment is what has expired later, if nothing expires in between. -/
theorem Steady.sweep {entries : Fields Entry} (h : Steady now later entries) :
    Store.sweep now entries = Store.sweep later entries :=
  List.filter_congr h

/-! ### What a call keeps -/

/-- No entry expires between two moments, and no more of them have expired than were inserted since the last sweep. -/
structure Swept (now later : Nat) (s : Store) : Prop where
  steady : Steady now later s.entries
  few : s.expired later ≤ s.inserts % sweepInterval

namespace Swept

theorem mono (h : Swept moment later s) (hle : moment ≤ now) (hle' : now ≤ later) : Swept now later s :=
  ⟨h.steady.mono hle hle', h.few⟩

/-- Dropping entries keeps a store swept. -/
theorem of_sublist {entries : Fields Entry} (h : Swept now later s) (hsub : entries.Sublist s.entries) :
    Swept now later { s with entries } where
  steady := fun p hp => h.steady p (hsub.subset hp)
  few := Nat.le_trans hsub.countP_le h.few

theorem get (h : Swept now later s) : Swept now later (s.get now spec).2 := by
  unfold Store.get
  cases Fields.get? spec s.entries with
  | none => exact h
  | some e =>
    dsimp only
    split
    · exact h
    · exact h.of_sublist (Fields.erase_sublist _ _)

theorem set (h : Swept now later s) (hle : now ≤ later) (httl : ttl = 0 ∨ later < now + ttl) :
    Swept now later (s.set now spec outcome ttl) := by
  have hsteady : Steady now later (Fields.insert spec ⟨outcome, now + ttl⟩ s.entries) := h.steady.insert hle httl
  unfold Store.set
  dsimp only
  split
  · -- The sweep drops the entry just inserted as well, if that has expired.
    refine ⟨fun p hp => hsteady p (List.mem_filter.mp hp).1, ?_⟩
    rw [hsteady.sweep, expired, countP_sweep]
    exact Nat.zero_le _
  · rename_i hcount
    have hnext : (s.inserts + 1) % sweepInterval = s.inserts % sweepInterval + 1 := by
      unfold sweepInterval at hcount ⊢
      omega
    refine ⟨hsteady, ?_⟩
    calc (Fields.insert spec ⟨outcome, now + ttl⟩ s.entries).countP (fun p => !isLive later p.2)
        ≤ s.expired later + 1 := Fields.countP_insert_le _ _ _ _
      _ ≤ s.inserts % sweepInterval + 1 := Nat.succ_le_succ h.few
      _ = (s.inserts + 1) % sweepInterval := hnext.symm

theorem call (h : Swept now later s) (hle : now ≤ later) {c : Call} (hc : c.Settled now later) :
    Swept now later (s.call now c) := by
  cases c with
  | get spec => exact h.get
  | set spec outcome ttl => exact h.set hle hc
  | purge => exact h.of_sublist List.filter_sublist
  | clear => exact h.of_sublist (List.nil_sublist _)

end Swept

/-! ### Runs -/

/-- Whether a call is an insertion. -/
def Call.isSet : Call → Bool
  | .set .. => true
  | _ => false

theorem inserts_get : (s.get now spec).2.inserts = s.inserts := by
  unfold get
  cases Fields.get? spec s.entries with
  | none => rfl
  | some e =>
    dsimp only
    split <;> rfl

/-- The insertions are counted, whatever else is done. -/
theorem inserts_after (history : History Call) : (after history).inserts = history.countP (·.2.isSet) := by
  induction history with
  | nil => rfl
  | cons event before ih =>
    obtain ⟨now, c⟩ := event
    rw [List.countP_cons, ← ih, after]
    cases c with
    | get spec => exact inserts_get
    | set spec outcome ttl => rfl
    | purge => rfl
    | clear => rfl

theorem swept_after {history : History Call} (hclock : History.Until now history) (hle : now ≤ later)
    (hsettled : ∀ x ∈ history, x.2.Settled x.1 later) : Swept now later (after history) := by
  induction history generalizing now with
  | nil => exact ⟨nofun, Nat.zero_le _⟩
  | cons event before ih =>
    obtain ⟨moment, c⟩ := event
    obtain ⟨hmoment, hbefore⟩ := hclock
    obtain ⟨hc, hsettled⟩ := List.forall_mem_cons.mp hsettled
    have hthen := ih hbefore (Nat.le_trans hmoment hle) hsettled
    exact (hthen.call (Nat.le_trans hmoment hle) hc).mono hmoment hle

/-- Where every lifetime is zero or lasts until then, a store holds no more expired entries than the remainder of the
    number of insertions by 256, so never more than 255 of them. A purge tells how many there are and leaves none. -/
theorem expired_after {history : History Call} (hclock : History.Until now history)
    (httl : ∀ moment spec outcome ttl, (moment, Call.set spec outcome ttl) ∈ history → ttl = 0 ∨ now < moment + ttl) :
    (after history).expired now ≤ history.countP (·.2.isSet) % 256 ∧ (after history).expired now ≤ 255 ∧
      ((after history).purge now).1 = (after history).expired now ∧ ((after history).purge now).2.expired now = 0 := by
  have hsettled : ∀ x ∈ history, x.2.Settled x.1 now := by
    rintro ⟨moment, c⟩ hx
    cases c with
    | set spec outcome ttl => exact httl moment spec outcome ttl hx
    | get | purge | clear => trivial
  have hfew := (swept_after hclock (Nat.le_refl now) hsettled).few
  rw [inserts_after] at hfew
  exact ⟨hfew, Nat.le_trans hfew (Nat.le_of_lt_succ (Nat.mod_lt _ (by decide))), purge_fst, expired_purge⟩

/-- 256 texts that are inserted for no time have all been swept. With one more there is one expired entry at most. -/
theorem expired_after_swept :
    ((after ((List.range 256).map fun i => (0, .set (toString i) (.error .empty) 0))).purge 0).1 = 0 ∧
      ((after ((List.range 257).map fun i => (0, .set (toString i) (.error .empty) 0))).purge 0).1 ≤ 1 := by
  have hclock : ∀ texts : List Nat,
      History.Until 0 (texts.map fun i => (0, Call.set (toString i) (.error .empty) 0)) := by
    intro texts
    induction texts with
    | nil => trivial
    | cons i texts ih => exact ⟨Nat.le_refl 0, ih⟩
  have hpurge : ∀ n,
      ((after ((List.range n).map fun i => (0, .set (toString i) (.error .empty) 0))).purge 0).1 ≤ n % 256 := by
    intro n
    obtain ⟨hfew, -, hpurge, -⟩ := expired_after (hclock (List.range n)) (fun moment spec outcome ttl hmem => by
      obtain ⟨i, -, h⟩ := List.mem_map.mp hmem
      cases h
      exact Or.inl rfl)
    rw [hpurge]
    simpa [List.countP_map, Function.comp_def, Call.isSet] using hfew
  exact ⟨Nat.le_zero.mp (hpurge 256), hpurge 257⟩

end Store

end TreeQuery
