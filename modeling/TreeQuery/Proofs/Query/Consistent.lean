import TreeQuery.Proofs.Query.Reachable

/-! # What the nodes of a query say

The bits of a node against the commands that are written, node by node (`Query.NodeRules`), and the bits that
exclude each other along a path (`Query.Consistent`). They hold of every query that can be reached. -/

namespace TreeQuery

variable {σ : Type} {Inner : List Char → σ → Prop} {p : Path σ} {s t : Segment σ} {i j : Nat}

/-! ### Nodes and segments -/

theorem Path.mem_nodes {n : Node σ} : n ∈ Path.nodes p ↔ ∃ i s, p[i]? = some s ∧ n = p.nodeAt i s := by
  rw [List.mem_iff_getElem?]
  refine exists_congr fun i => ?_
  rw [Path.nodes_getElem?, Option.map_eq_some_iff]
  exact exists_congr fun s => and_congr_right fun _ => eq_comm

theorem Path.exists_node_iff {P : Nat → Segment σ → Prop} :
    (∃ n ∈ Path.nodes p, P n.seq n.toSegment) ↔ ∃ i s, p[i]? = some s ∧ P i s := by
  constructor
  · rintro ⟨n, hn, h⟩
    obtain ⟨i, s, hs, rfl⟩ := Path.mem_nodes.mp hn
    exact ⟨i, s, hs, h⟩
  · rintro ⟨i, s, hs, h⟩
    exact ⟨p.nodeAt i s, Path.mem_nodes.mpr ⟨i, s, hs, rfl⟩, h⟩

theorem Path.exists_node_iff_any {f : Segment σ → Bool} :
    (∃ n ∈ Path.nodes p, f n.toSegment = true) ↔ p.any f = true := by
  rw [Path.exists_node_iff (P := fun _ s => f s = true), List.any_eq_true]
  constructor
  · rintro ⟨i, s, hs, h⟩
    exact ⟨s, List.mem_of_getElem? hs, h⟩
  · rintro ⟨s, hs, h⟩
    obtain ⟨i, hi⟩ := List.mem_iff_getElem?.mp hs
    exact ⟨i, s, hi, h⟩

theorem Path.makes_take_iff : Path.makes (p.take (i + 1)) = true ↔
    ∃ n ∈ Path.nodes p, n.seq ≤ i ∧ n.commands.make = true := by
  rw [Path.exists_node_iff (P := fun j s => j ≤ i ∧ s.commands.make = true), Path.makes, List.any_eq_true]
  constructor
  · rintro ⟨s, hs, h⟩
    obtain ⟨j, hj⟩ := List.mem_iff_getElem?.mp hs
    rw [List.getElem?_take] at hj
    split at hj
    · exact ⟨j, s, hj, by omega, h⟩
    · cases hj
  · rintro ⟨j, s, hs, hj, h⟩
    refine ⟨s, List.mem_of_getElem? (i := j) ?_, h⟩
    rw [List.getElem?_take, if_pos (by omega), hs]

/-! ### The rules along a path -/

namespace Path.WellFormed

variable (h : Path.WellFormed Inner p)
include h

theorem maybe_of_make (hi : p[i]? = some s) (hj : p[j]? = some t) (hij : i ≤ j) (hk : s.commands.make = true) :
    t.commands.maybe = false := by
  obtain ⟨hlt, rfl⟩ := List.getElem?_eq_some_iff.mp hi
  have hsplit : p = p.take i ++ p[i] :: p.drop (i + 1) := by simp
  refine h.make_ends_maybe _ _ _ hsplit hk t ?_
  rw [← List.drop_eq_getElem_cons hlt]
  refine List.mem_of_getElem? (i := j - i) ?_
  rw [List.getElem?_drop, Nat.add_sub_cancel' hij, hj]

/-- The segment behind which `>` stands is one, and not the last. -/
theorem marker_unique (hm : Path.moves p = true) :
    ∃ i, i + 1 < p.length ∧ ∀ (j : Nat) s, p[j]? = some s → (s.marker = true ↔ j = i) := by
  obtain ⟨s, hs, hmark⟩ := List.any_eq_true.mp hm
  obtain ⟨i, hi⟩ := List.mem_iff_getElem?.mp hs
  obtain ⟨hlt, -⟩ := List.getElem?_eq_some_iff.mp hi
  refine ⟨i, ?_, fun j t hj => ⟨fun hmark' => ?_, ?_⟩⟩
  · refine Nat.lt_of_le_of_ne hlt fun hlast => ?_
    have hget : p.getLast? = some s := by rw [List.getLast?_eq_getElem?, ← hi, ← hlast, Nat.add_sub_cancel]
    rw [h.last_unmarked s hget] at hmark
    cases hmark
  · have hfollow : ∀ {i j : Nat} {s t : Segment σ}, p[i]? = some s → p[j]? = some t → s.marker = true →
        t.marker = true → ¬i < j := by
      intro i j s t hi hj hs ht hij
      obtain ⟨hlt, rfl⟩ := List.getElem?_eq_some_iff.mp hi
      obtain ⟨hlt', rfl⟩ := List.getElem?_eq_some_iff.mp hj
      have hr := List.pairwise_iff_getElem.mp h.pairwise i j hlt hlt' hij
      rw [(hr.marker ht).2] at hs
      cases hs
    have h1 := hfollow hi hj hmark hmark'
    have h2 := hfollow hj hi hmark' hmark
    omega
  · rintro rfl
    obtain rfl := Option.some.inj (hj.symm.trans hi)
    exact hmark

end Path.WellFormed

namespace Query

variable {q : Query} {n : Node PlainPath}

/-- What the node at place `i` of a query says. -/
structure NodeRules (q : Query) (i : Nat) (n : Node PlainPath) : Prop where
  seq : n.seq = i
  root : n.mode.root = true ↔ i = 0
  leaf : n.mode.leaf = true ↔ i + 1 = q.length
  single : n.mode.single = true ↔ q.length = 1
  /-- Some bits tell what is written anywhere in the path. -/
  overwrite : n.mode.overwrite = true ↔ ∃ m ∈ Path.nodes q.path, m.commands.overwrite = true
  delete : n.mode.delete = true ↔ ∃ m ∈ Path.nodes q.path, m.commands.delete = true
  indeterministic : n.mode.indeterministic = true ↔ ∃ m ∈ Path.nodes q.path, m.commands.append = true
  write : n.mode.write = true ↔ ∃ m ∈ Path.nodes q.path, m.commands.overwrite = true ∨ m.commands.make = true ∨
    m.commands.append = true ∨ m.commands.delete = true
  /-- One tells what is written up to the node. -/
  make : n.mode.make = true ↔ ∃ m ∈ Path.nodes q.path, m.seq ≤ i ∧ m.commands.make = true
  /-- The others tell what is written on the node itself. -/
  here : n.mode.here = true ↔ n.body = .here
  append : n.mode.append = true ↔ n.commands.append = true
  maybe : n.mode.maybe = true ↔ n.commands.maybe = true
  dynamic : n.mode.dynamic = true ↔ ∃ raw inner r, n.body = .bracket raw inner ∧ (q.moveTo i).inner? = some r ∧
    ∀ offset, parseAt offset 1 (String.ofList raw) = .ok r
  kind : n.body.isArray = true ↔ n.commands.append = true ∨ ∃ digits, n.body = .index digits
  value : (∀ digits, n.body ≠ .index digits) → n.body.value = 0
  make_excludes : n.mode.make = true → n.mode.maybe = false

/-- What the nodes of a query say together. -/
structure Consistent (q : Query) : Prop where
  seq_lt : q.seq < q.length
  length : 1 ≤ q.length ∧ q.length ≤ 254
  node : ∀ (i : Nat) n, (Path.nodes q.path)[i]? = some n → q.NodeRules i n
  /-- Either the path is no move, or the source ends at one node, which is not the last. -/
  move : (∀ n ∈ Path.nodes q.path, n.mode.move = false ∧ n.mode.marker = false) ∨
    (∀ n ∈ Path.nodes q.path, n.mode.move = true) ∧
      ∃ i, i + 1 < q.length ∧ ∀ n ∈ Path.nodes q.path, n.mode.marker = true ↔ n.seq = i
  overwrite_excludes : ∀ n ∈ Path.nodes q.path, n.mode.overwrite = true → ∀ m ∈ Path.nodes q.path,
    m.mode.maybe = false ∧ m.mode.append = false ∧ m.mode.make = false ∧ m.mode.delete = false
  delete_excludes : ∀ n ∈ Path.nodes q.path, n.mode.delete = true → ∀ m ∈ Path.nodes q.path,
    m.mode.overwrite = false ∧ m.mode.append = false ∧ m.mode.make = false ∧ m.mode.move = false

theorem segment_moveTo {s : Segment PlainPath} (hs : q.path[i]? = some s) : (q.moveTo i).segment = s := by
  obtain ⟨hlt, hget⟩ := List.getElem?_eq_some_iff.mp hs
  have hseq : (q.moveTo i).seq = i := Nat.min_eq_left (by omega)
  have hsegment : (q.moveTo i).path[(q.moveTo i).seq]? = some (q.moveTo i).segment :=
    List.getElem?_eq_some_iff.mpr ⟨_, rfl⟩
  rw [hseq] at hsegment
  exact Option.some.inj (hsegment.symm.trans hs)

theorem Parsed.nodeRules (hq : q.Parsed) (hn : (Path.nodes q.path)[i]? = some n) : q.NodeRules i n := by
  have hw := parsed_iff.mp hq
  rw [Path.nodes_getElem?] at hn
  obtain ⟨s, hs, rfl⟩ := Option.map_eq_some_iff.mp hn
  have hbody : (q.moveTo i).segment.body = s.body := congrArg Segment.body (segment_moveTo hs)
  exact
    { seq := rfl
      root := beq_iff_eq
      leaf := beq_iff_eq
      single := beq_iff_eq
      overwrite := Path.exists_node_iff_any.symm
      delete := Path.exists_node_iff_any.symm
      indeterministic := Path.exists_node_iff_any.symm
      write := by
        have hwrite : Path.writes q.path = true ↔ ∃ m ∈ Path.nodes q.path, m.commands.isWrite = true :=
          Path.exists_node_iff_any.symm
        exact hwrite.trans (exists_congr fun m => and_congr_right fun _ => by simp [Commands.isWrite, or_assoc])
      make := Path.makes_take_iff
      here := by
        cases hb : s.body <;> simp [Path.nodeAt, Path.mode, Body.isHere, hb]
      append := Iff.rfl
      maybe := Iff.rfl
      dynamic := by
        constructor
        · intro hd
          cases hb : s.body with
          | bracket raw inner =>
            obtain ⟨r, hr, -, hread⟩ := inner?_eq_some (hq.moveTo i) (hbody.trans hb)
            exact ⟨raw, inner, r, hb, hr, hread⟩
          | field | index | here | append => simp [Path.nodeAt, Path.mode, hb, Body.isBracket] at hd
        · rintro ⟨raw, inner, -, hb, -⟩
          exact congrArg Body.isBracket hb
      kind := by
        have happend := hw.append s (List.mem_of_getElem? hs)
        cases hb : s.body <;> simp_all [Path.nodeAt, Body.isArray]
      value := fun hindex => by
        cases hb : s.body with
        | index digits => exact absurd hb (hindex digits)
        | field | here | append | bracket => exact congrArg Body.value hb
      make_excludes := fun hmake => by
        obtain ⟨m, hm, hle, hk⟩ := Path.makes_take_iff.mp hmake
        obtain ⟨j, t, ht, rfl⟩ := Path.mem_nodes.mp hm
        exact hw.maybe_of_make ht hs hle hk }

theorem makes_take_eq_false (hk : Path.makes p = false) : Path.makes (p.take i) = false :=
  Path.any_eq_false_iff.mpr fun s hs => Path.any_eq_false_iff.mp hk s (List.mem_of_mem_take hs)

theorem Parsed.consistent (hq : q.Parsed) : q.Consistent := by
  have hw := parsed_iff.mp hq
  have hlt := q.seq_lt
  have hlength : q.path.length < 255 := hw.length_lt
  refine ⟨hlt, ⟨Nat.zero_lt_of_lt hlt, Nat.le_of_lt_succ hlength⟩, fun _ _ => hq.nodeRules, ?_, fun n hn ho m hm => ?_,
    fun n hn hd m hm => ?_⟩
  · cases hmoves : Path.moves q.path with
    | false =>
      refine Or.inl fun n hn => ?_
      obtain ⟨i, s, hs, rfl⟩ := Path.mem_nodes.mp hn
      exact ⟨hmoves, Path.any_eq_false_iff.mp hmoves s (List.mem_of_getElem? hs)⟩
    | true =>
      obtain ⟨k, hlt, hunique⟩ := hw.marker_unique hmoves
      refine Or.inr ⟨fun n hn => ?_, k, hlt, fun n hn => ?_⟩
      · obtain ⟨i, s, -, rfl⟩ := Path.mem_nodes.mp hn
        exact hmoves
      · obtain ⟨i, s, hs, rfl⟩ := Path.mem_nodes.mp hn
        exact hunique i s hs
  · obtain ⟨i, s, -, rfl⟩ := Path.mem_nodes.mp hn
    obtain ⟨j, t, ht, rfl⟩ := Path.mem_nodes.mp hm
    obtain ⟨hmaybe, happends, hmakes⟩ := hw.overwrite_alone ho
    have ht := List.mem_of_getElem? ht
    refine ⟨hmaybe t ht, Path.any_eq_false_iff.mp happends t ht, makes_take_eq_false hmakes, ?_⟩
    exact Commands.eq_false_of_imp (fun hd => (hw.delete_alone hd).1) ho
  · obtain ⟨i, s, -, rfl⟩ := Path.mem_nodes.mp hn
    obtain ⟨j, t, ht, rfl⟩ := Path.mem_nodes.mp hm
    obtain ⟨hoverwrites, happends, hmakes, hmoves⟩ := hw.delete_alone hd
    have ht := List.mem_of_getElem? ht
    exact ⟨hoverwrites, Path.any_eq_false_iff.mp happends t ht, makes_take_eq_false hmakes, hmoves⟩

/-- Every query that can be reached has nodes that say what is written in its path, and an edit gives a query at
    the same place of a path of the same length. -/
theorem consistent_of_reachable (h : q.Reachable) :
    q.Consistent ∧ ∀ r, ((∃ c, q.addCommand c = .ok r) ∨ q.dropCommand .overwrite = .ok r) →
      r.seq = q.seq ∧ r.length = q.length := by
  have hq := h.parsed
  refine ⟨hq.consistent, ?_⟩
  rintro r (⟨c, hr⟩ | hr)
  · obtain ⟨hpath, hseq⟩ := addCommand_path hq hr
    exact ⟨hseq, by rw [length, hpath, Path.canonical_length, List.length_modify]; rfl⟩
  · obtain ⟨hpath, hseq⟩ := dropCommand_path hq hr
    exact ⟨hseq, by rw [length, hpath, Path.canonical_length, List.length_modify]; rfl⟩

/-- The leaf of the destination of `a>b.c` is reached, and `$` written on it stays there. -/
theorem consistent_of_reachable_leaf :
    Consistent ⟨[⟨{}, .field "b", false⟩, ⟨{}, .field "c", false⟩], 1, by decide⟩ ∧
      ∃ r, addCommand ⟨[⟨{}, .field "b", false⟩, ⟨{}, .field "c", false⟩], 1, by decide⟩ .make = .ok r ∧
        r.seq = 1 ∧ r.length = 2 := by
  have hread : Query.parse "a>b.c" =
      .ok ⟨[⟨{}, .field "a", true⟩, ⟨{}, .field "b", false⟩, ⟨{}, .field "c", false⟩], 0, by decide⟩ := rfl
  have hsplit : splitMove ⟨[⟨{}, .field "a", true⟩, ⟨{}, .field "b", false⟩, ⟨{}, .field "c", false⟩], 0, by decide⟩ =
      .ok (⟨[⟨{}, .field "a", false⟩], 0, by decide⟩,
        ⟨[⟨{}, .field "b", false⟩, ⟨{}, .field "c", false⟩], 0, by decide⟩) := rfl
  have hmake : addCommand ⟨[⟨{}, .field "b", false⟩, ⟨{}, .field "c", false⟩], 1, by decide⟩ .make =
      .ok ⟨[⟨{}, .field "b", false⟩, ⟨{ make := true }, .field "c", false⟩], 1, by decide⟩ := rfl
  obtain ⟨hconsistent, hedit⟩ := consistent_of_reachable (.leaf (.destination (.parse hread) hsplit))
  exact ⟨hconsistent, _, hmake, hedit _ (Or.inl ⟨.make, hmake⟩)⟩

end Query

end TreeQuery
