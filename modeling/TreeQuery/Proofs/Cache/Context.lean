import TreeQuery.Cache.Context
import TreeQuery.Proofs.Cache.Store

/-! # Contexts do not show their store

Contexts that share a store read every query as if there were none: whatever is in the store is what reading its text
gives (`Store.Faithful`), and all that is done with the store keeps this. A context inserts what it read exactly if
nothing is remembered that still counts. So where lifetimes last and nothing is cleared, no text is inserted
twice by contexts (`Context.parse_shared`). -/

namespace TreeQuery

/-! ### What a store holds -/

namespace Store

variable {s : Store} {now ttl : Nat} {spec : String}

/-- Whether every outcome is that of reading the text under which it is kept. -/
def Faithful (s : Store) : Prop := ∀ p ∈ s.entries, p.2.outcome = Query.parse p.1

/-- Whether a call does not insert anything but what reading the text gives. -/
def Call.Faithful : Call → Prop
  | .set spec outcome _ => outcome = Query.parse spec
  | _ => True

theorem Faithful.get (h : s.Faithful) : (s.get now spec).2.Faithful := by
  unfold Store.get
  cases Fields.get? spec s.entries with
  | none => exact h
  | some e =>
    dsimp only
    split
    · exact h
    · exact fun p hp => h p (Fields.mem_erase hp)

theorem Faithful.set (h : s.Faithful) : (s.set now spec (Query.parse spec) ttl).Faithful := by
  have hinsert : ∀ p ∈ Fields.insert spec ⟨Query.parse spec, now + ttl⟩ s.entries, p.2.outcome = Query.parse p.1 := by
    intro p hp
    rcases Fields.mem_insert hp with rfl | hp
    · rfl
    · exact h p hp
  unfold Store.set
  dsimp only
  split
  · exact fun p hp => hinsert p (List.mem_filter.mp hp |>.1)
  · exact hinsert

theorem Faithful.call (h : s.Faithful) {c : Call} (hc : c.Faithful) : (s.call now c).Faithful := by
  cases c with
  | get spec => exact h.get
  | set spec outcome ttl =>
    obtain rfl : outcome = Query.parse spec := hc
    exact h.set
  | purge => exact fun p hp => h p (List.mem_filter.mp hp |>.1)
  | clear => exact nofun

theorem Faithful.answer (h : s.Faithful) {outcome : Outcome} (hget : (s.get now spec).1 = some outcome) :
    outcome = Query.parse spec := by
  rw [get_fst, Option.map_eq_some_iff] at hget
  obtain ⟨e, he, rfl⟩ := hget
  exact h _ (Fields.mem_of_get? (Option.filter_eq_some_iff.mp he).1)

end Store

namespace Context

variable {c : Context} {m : Metered} {now : Nat} {spec : String}

/-! ### One reading -/

/-- A context without a store reads the text. One with a store takes what is remembered, or reads the text and
    inserts what that gave. -/
theorem parse_cases (c : Context) (now : Nat) (spec : String) (m : Metered) :
    c.stored = false ∧ c.parse now spec m = (Query.parse spec, m) ∨
      c.stored = true ∧ (∃ outcome, (m.store.get now spec).1 = some outcome ∧
        c.parse now spec m = (outcome, { m with store := (m.store.get now spec).2, gets := m.gets + 1 })) ∨
      c.stored = true ∧ (m.store.get now spec).1 = none ∧
        c.parse now spec m = (Query.parse spec,
          { store := (m.store.get now spec).2.set now spec (Query.parse spec) c.ttl, gets := m.gets + 1,
            sets := m.sets + 1 }) := by
  unfold parse
  cases c.stored with
  | false => exact Or.inl ⟨rfl, rfl⟩
  | true =>
    rcases hget : m.store.get now spec with ⟨_ | outcome, store⟩
    · exact Or.inr (Or.inr ⟨rfl, rfl, rfl⟩)
    · exact Or.inr (Or.inl ⟨rfl, outcome, rfl, rfl⟩)

/-- Whether a reading makes a context insert what it read. -/
def Inserts (c : Context) (now : Nat) (spec : String) (m : Metered) : Prop :=
  (c.parse now spec m).2.sets = m.sets + 1

instance : Decidable (c.Inserts now spec m) := inferInstanceAs (Decidable (_ = _))

theorem inserts_iff : c.Inserts now spec m ↔ c.stored = true ∧ (m.store.get now spec).1 = none := by
  unfold Inserts
  rcases parse_cases c now spec m with ⟨hs, h⟩ | ⟨hs, outcome, hget, h⟩ | ⟨hs, hget, h⟩ <;> simp [*]

/-- The calls that a reading makes to the store, the latest first. -/
def calls (c : Context) (now : Nat) (spec : String) (m : Metered) : History Store.Call :=
  if c.stored then
    if c.Inserts now spec m then [(now, .set spec (Query.parse spec) c.ttl), (now, .get spec)] else [(now, .get spec)]
  else []

theorem parse_store {history : History Store.Call} (hm : m.store = Store.after history) :
    (c.parse now spec m).2.store = Store.after (c.calls now spec m ++ history) := by
  unfold calls
  rcases parse_cases c now spec m with ⟨hs, h⟩ | ⟨hs, outcome, hget, h⟩ | ⟨hs, hget, h⟩
  · rw [h, if_neg (by simp [hs])]
    exact hm
  · rw [h, if_pos hs, if_neg (by simp [inserts_iff, hget]), hm]
    rfl
  · rw [h, if_pos hs, if_pos (inserts_iff.mpr ⟨hs, hget⟩), hm]
    rfl

theorem until_calls {history : History Store.Call} (h : History.Until now history) :
    History.Until now (c.calls now spec m ++ history) := by
  unfold calls
  split
  · split
    · exact ⟨Nat.le_refl _, Nat.le_refl _, h⟩
    · exact ⟨Nat.le_refl _, h⟩
  · exact h

theorem mem_calls {moment ttl : Nat} {other : String} {outcome : Outcome}
    (h : (moment, .set other outcome ttl) ∈ c.calls now spec m) : moment = now ∧ ttl = c.ttl := by
  unfold calls at h
  split at h
  · split at h <;> simp_all
  · cases h

/-- Of the calls of a reading only an insertion counts for what was inserted last. -/
theorem lastSet_calls {history : History Store.Call} {other : String} :
    Store.lastSet other (c.calls now spec m ++ history) =
      if c.Inserts now spec m ∧ spec = other then some ⟨now, Query.parse spec, c.ttl⟩
      else Store.lastSet other history := by
  unfold calls
  by_cases hi : c.Inserts now spec m
  · rw [if_pos (inserts_iff.mp hi).1, if_pos hi]
    simp [Store.lastSet, hi]
  · simp only [hi, if_false, false_and]
    split <;> rfl

end Context

/-! ### Readings among other uses -/

namespace Metered

variable {history : History Store.Call} {now : Nat} {spec : String}

/-- What is done with a store: a context reads a query, or the store is called directly. -/
inductive Access where
  | parse (c : Context) (spec : String)
  | direct (call : Store.Call)

/-- Whether an access does not insert anything but what reading the text gives. -/
def Access.Faithful : Access → Prop
  | .parse _ _ => True
  | .direct call => call.Faithful

/-- The lifetime that an access would insert something for. -/
def Access.ttl? : Access → Option Nat
  | .parse c _ => some c.ttl
  | .direct (.set _ _ ttl) => some ttl
  | .direct _ => none

/-- The store behind an access. What is done directly is not counted. -/
def access (now : Nat) (m : Metered) : Access → Metered
  | .parse c spec => (c.parse now spec m).2
  | .direct call => { m with store := m.store.call now call }

/-- The store behind accesses that began with a new one. -/
def after : History Access → Metered
  | [] => {}
  | (now, a) :: before => (after before).access now a

/-- The calls that accesses made to the store. -/
def log : History Access → History Store.Call
  | [] => []
  | (now, .parse c spec) :: before => c.calls now spec (after before) ++ log before
  | (now, .direct call) :: before => (now, call) :: log before

/-- The texts under which contexts inserted something. -/
def inserted : History Access → List String
  | [] => []
  | (now, .parse c spec) :: before =>
    if c.Inserts now spec (after before) then spec :: inserted before else inserted before
  | (_, .direct _) :: before => inserted before

theorem after_store (history : History Access) : (after history).store = Store.after (log history) := by
  induction history with
  | nil => rfl
  | cons event before ih =>
    obtain ⟨now, a⟩ := event
    cases a with
    | parse c spec => exact Context.parse_store ih
    | direct call => exact congrArg (Store.call now · call) ih

theorem until_log {history : History Access} (h : History.Until now history) : History.Until now (log history) := by
  induction history generalizing now with
  | nil => trivial
  | cons event before ih =>
    obtain ⟨moment, a⟩ := event
    obtain ⟨hle, hbefore⟩ := h
    cases a with
    | parse c spec => exact (Context.until_calls (ih hbefore)).mono hle
    | direct call => exact ⟨hle, ih hbefore⟩

theorem mem_log {history : History Access} {moment ttl : Nat} {outcome : Outcome}
    (h : (moment, .set spec outcome ttl) ∈ log history) : ∃ a, (moment, a) ∈ history ∧ ttl ∈ a.ttl? := by
  induction history with
  | nil => cases h
  | cons event before ih =>
    obtain ⟨now, a⟩ := event
    have hbefore : (moment, Store.Call.set spec outcome ttl) ∈ log before →
        ∃ a', (moment, a') ∈ (now, a) :: before ∧ ttl ∈ a'.ttl? := fun h =>
      (ih h).imp fun _ h => ⟨List.mem_cons_of_mem _ h.1, h.2⟩
    cases a with
    | parse c other =>
      rcases List.mem_append.mp h with h | h
      · obtain ⟨rfl, rfl⟩ := Context.mem_calls h
        exact ⟨_, List.mem_cons_self, rfl⟩
      · exact hbefore h
    | direct call =>
      rcases List.mem_cons.mp h with h | h
      · cases h
        exact ⟨_, List.mem_cons_self, rfl⟩
      · exact hbefore h

theorem after_faithful {history : History Access} (h : ∀ x ∈ history, x.2.Faithful) :
    (after history).store.Faithful := by
  induction history with
  | nil => exact nofun
  | cons event before ih =>
    obtain ⟨now, a⟩ := event
    obtain ⟨ha, hbefore⟩ := List.forall_mem_cons.mp h
    have hstore := ih hbefore
    cases a with
    | direct call => exact hstore.call ha
    | parse c spec =>
      have hparse : (after ((now, .parse c spec) :: before)).store = (c.parse now spec (after before)).2.store := rfl
      rw [hparse]
      rcases Context.parse_cases c now spec (after before) with ⟨-, h⟩ | ⟨-, outcome, -, h⟩ | ⟨-, -, h⟩ <;> rw [h]
      · exact hstore
      · exact hstore.get
      · exact hstore.get.set

/-- A context inserts what it read exactly if nothing that was inserted under the text still counts. -/
theorem inserts_after {history : History Access} (hclock : History.Until now history) (c : Context) (spec : String) :
    c.Inserts now spec (after history) ↔
      c.stored = true ∧ ∀ i, Store.lastSet spec (log history) = some i → i.lasts now = false := by
  rw [Context.inserts_iff, after_store, Store.get_fst, Store.live?_after (until_log hclock)]
  refine and_congr_right fun _ => ?_
  cases Store.lastSet spec (log history) with
  | none => simp
  | some i => cases hi : i.lasts now <;> simp [Option.filter_some, Store.isLive_entry, hi]

/-- Without clearing, what a context inserted under a text is followed by a last insertion under it. -/
theorem lastSet_of_inserted {history : History Access} (hkept : ∀ x ∈ history, x.2 ≠ .direct .clear)
    (h : spec ∈ inserted history) : ∃ i, Store.lastSet spec (log history) = some i := by
  induction history with
  | nil => cases h
  | cons event before ih =>
    obtain ⟨now, a⟩ := event
    obtain ⟨hnow, hbefore⟩ := List.forall_mem_cons.mp hkept
    cases a with
    | parse c other =>
      rw [log, Context.lastSet_calls]
      rw [inserted] at h
      split
      · exact ⟨_, rfl⟩
      · rename_i hother
        split at h
        · rename_i hi
          exact ih hbefore ((List.mem_cons.mp h).resolve_left fun heq => hother ⟨hi, heq.symm⟩)
        · exact ih hbefore h
    | direct call =>
      have hlast := ih hbefore h
      cases call with
      | get other => exact hlast
      | set other outcome ttl =>
        rw [log, Store.lastSet]
        split
        · exact ⟨_, rfl⟩
        · exact hlast
      | purge => exact hlast
      | clear => exact absurd rfl hnow

theorem after_sets (history : History Access) : (after history).sets = (inserted history).length := by
  induction history with
  | nil => rfl
  | cons event before ih =>
    obtain ⟨now, a⟩ := event
    cases a with
    | parse c spec =>
      rw [inserted, after, access]
      split
      · rename_i hi
        rw [hi, ih, List.length_cons]
      · rename_i hi
        rw [← ih]
        unfold Context.Inserts at hi
        rcases Context.parse_cases c now spec (after before) with ⟨-, h⟩ | ⟨-, outcome, -, h⟩ | ⟨-, -, h⟩ <;> simp_all
    | direct call => exact ih

/-- Where lifetimes last and nothing is cleared, no text is inserted twice. -/
theorem inserted_nodup {history : History Access} (hclock : History.Until now history)
    (hkept : ∀ x ∈ history, x.2 ≠ .direct .clear) (httl : ∀ x ∈ history, ∀ ttl ∈ x.2.ttl?, now < x.1 + ttl) :
    (inserted history).Nodup := by
  induction history generalizing now with
  | nil => exact List.nodup_nil
  | cons event before ih =>
    obtain ⟨moment, a⟩ := event
    obtain ⟨hle, hclock⟩ := hclock
    have hbefore : ∀ x ∈ before, x.2 ≠ .direct .clear := (List.forall_mem_cons.mp hkept).2
    have hlasting : ∀ x ∈ before, ∀ ttl ∈ x.2.ttl?, moment < x.1 + ttl := fun x hx ttl ht =>
      Nat.lt_of_le_of_lt hle (httl x (List.mem_cons_of_mem _ hx) ttl ht)
    have hnodup := ih hclock hbefore hlasting
    cases a with
    | direct call => exact hnodup
    | parse c spec =>
      rw [inserted]
      split
      · rename_i hi
        refine List.nodup_cons.mpr ⟨fun hmem => ?_, hnodup⟩
        -- What was inserted before would have been answered.
        obtain ⟨i, hlast⟩ := lastSet_of_inserted hbefore hmem
        have hdead := ((inserts_after hclock c spec).mp hi).2 i hlast
        obtain ⟨a, ha, ht⟩ := mem_log (Store.mem_of_lastSet hlast)
        have hlasts := hlasting _ ha _ ht
        simp only [Store.Insertion.lasts, decide_eq_false_iff_not] at hdead
        exact hdead hlasts
      · exact hnodup

end Metered

/-- Contexts that share a store with each other and with whoever else inserts what reading a text gives read every
    query as if there were no store. Where every lifetime is zero or lasts until then, a context inserts what it read
    exactly if nothing was inserted under the text since the store was cleared, or the last time for a lifetime of zero.
    Where every lifetime lasts and nothing is cleared, contexts insert nothing twice. -/
theorem Context.parse_shared {history : History Metered.Access} {now : Nat} (hset : ∀ x ∈ history, x.2.Faithful)
    (hclock : History.Until now history) (c : Context) (spec : String) :
    (c.parse now spec (Metered.after history)).1 = Query.parse spec ∧
      ((∀ x ∈ history, ∀ ttl ∈ x.2.ttl?, ttl = 0 ∨ now < x.1 + ttl) →
        ((c.parse now spec (Metered.after history)).2.sets = (Metered.after history).sets + 1 ↔
          c.stored = true ∧ ∀ i, Store.lastSet spec (Metered.log history) = some i → i.ttl = 0)) ∧
      ((∀ x ∈ history, x.2 ≠ .direct .clear ∧ ∀ ttl ∈ x.2.ttl?, now < x.1 + ttl) →
        (Metered.inserted history).Nodup ∧ (Metered.after history).sets = (Metered.inserted history).length) := by
  refine ⟨?_, fun httl => ?_, fun hlasting => ⟨?_, Metered.after_sets history⟩⟩
  · rcases parse_cases c now spec (Metered.after history) with ⟨-, h⟩ | ⟨-, outcome, hget, h⟩ | ⟨-, -, h⟩ <;> rw [h]
    exact (Metered.after_faithful hset).answer hget
  · refine (Metered.inserts_after hclock c spec).trans (and_congr_right fun _ => forall_congr' fun i => ?_)
    refine imp_congr_right fun hlast => ?_
    have hmem := Store.mem_of_lastSet hlast
    obtain ⟨a, ha, ht⟩ := Metered.mem_log hmem
    rw [← Bool.not_eq_true, Store.lasts_iff ((Metered.until_log hclock).le hmem) (httl _ ha _ ht), Decidable.not_not]
  · exact Metered.inserted_nodup hclock (fun x hx => (hlasting x hx).1) fun x hx => (hlasting x hx).2

/-- A text that cannot be read is refused in the same way each time. Remembered for no time it is inserted each time as
    well, whereas `a` is inserted once. -/
theorem Context.parse_shared_failed :
    (parse ⟨true, 60⟩ 5 "a.]" (Metered.after [(4, .parse ⟨true, 0⟩ "a.]"), (3, .direct .purge),
        (2, .parse ⟨true, 9⟩ "a"), (1, .parse ⟨true, 9⟩ "a"), (0, .parse ⟨true, 0⟩ "a.]")])).1 =
        .error (.unexpectedToken ']' 2) ∧
      (parse ⟨true, 60⟩ 5 "a.]" (Metered.after [(4, .parse ⟨true, 0⟩ "a.]"), (3, .direct .purge),
        (2, .parse ⟨true, 9⟩ "a"), (1, .parse ⟨true, 9⟩ "a"), (0, .parse ⟨true, 0⟩ "a.]")])).2.sets = 3 + 1 ∧
      (Metered.after [(2, .parse ⟨true, 9⟩ "a"), (1, .parse ⟨true, 9⟩ "a")]).sets = 1 := by
  have hrefused := @parse_shared [(4, .parse ⟨true, 0⟩ "a.]"), (3, .direct .purge), (2, .parse ⟨true, 9⟩ "a"),
    (1, .parse ⟨true, 9⟩ "a"), (0, .parse ⟨true, 0⟩ "a.]")] 5
    (by simp [Metered.Access.Faithful, Store.Call.Faithful]) (by simp [History.Until]) ⟨true, 60⟩ "a.]"
  have honce := @parse_shared [(2, .parse ⟨true, 9⟩ "a"), (1, .parse ⟨true, 9⟩ "a")] 5
    (by simp [Metered.Access.Faithful]) (by simp [History.Until]) ⟨true, 60⟩ "a"
  refine ⟨hrefused.1, (hrefused.2.1 (by simp [Metered.Access.ttl?])).mpr ⟨rfl, fun i hi => ?_⟩, ?_⟩
  · cases hi
    rfl
  · rw [(honce.2.2 (by simp [Metered.Access.ttl?])).2]
    rfl

end TreeQuery
