import TreeQuery.Proofs.Query.Consistent

/-! # Words

A word is four numbers side by side: the index value, the place, the mode and the kind of a node. Where each of them
has room (`Node.Fits`) none reaches into the next, so the word is the four or-ed together and each one is read off
again by a shift and a mask (`Node.Fits.unpacks`). The nodes of every query that can be reached have room, and so their
words tell apart all that is packed (`Query.word_unpacks`). -/

namespace TreeQuery

variable {σ : Type} {m n : Node σ} {q r : Query}

/-! ### Mode bits -/

namespace Mode

theorem pack_lt (bs : List Bool) : pack bs < 2 ^ bs.length := by
  induction bs with
  | nil => exact Nat.one_pos
  | cons b rest ih =>
    rw [pack, List.length_cons, Nat.pow_succ]
    have hb : b.toNat < 2 := Bool.toNat_lt b
    omega

theorem testBit_pack (bs : List Bool) (i : Nat) : (pack bs).testBit i = bs[i]?.getD false := by
  induction bs generalizing i with
  | nil => exact Nat.zero_testBit i
  | cons b rest ih =>
    have hb : b.toNat < 2 := Bool.toNat_lt b
    cases i with
    | zero =>
      rw [pack, Nat.testBit_zero, Nat.add_mul_mod_self_left, Nat.mod_eq_of_lt hb]
      cases b <;> rfl
    | succ i =>
      have hhalf : (b.toNat + 2 * pack rest) / 2 = pack rest := by omega
      rw [pack, Nat.testBit_succ, hhalf, ih, List.getElem?_cons_succ]

theorem bits_lt (m : Mode) : m.bits < 2 ^ 14 := pack_lt m.flags

/-- No bit of a mode is dropped. -/
theorem ofBits_bits (m : Mode) : ofBits m.bits = m := by
  simp only [ofBits, bits, testBit_pack]
  rfl

end Mode

/-! ### Regions -/

namespace Node

/-- The index value and the place of a node have room in its word. -/
structure Fits (n : Node σ) : Prop where
  value : n.body.value < 2 ^ 32
  seq : n.seq < 2 ^ 8

/-- What is packed in the word of a node. -/
def packed (n : Node σ) : Bool × Nat × Nat × Mode := (n.body.isArray, n.body.value, n.seq, n.mode)

theorem packed_eq_iff : m.packed = n.packed ↔
    m.body.isArray = n.body.isArray ∧ m.body.value = n.body.value ∧ m.seq = n.seq ∧ m.mode = n.mode := by
  simp only [packed, Prod.mk.injEq]

/-- What is read off the word of a node. -/
structure Unpacks (n : Node σ) : Prop where
  lt : n.word < 2 ^ 64
  regions : n.word = n.body.value ||| n.seq <<< 32 ||| n.mode.bits <<< 40 ||| n.kindBits <<< 56
  value : n.word &&& 0xffffffff = n.body.value
  seq : n.word >>> 32 &&& 0xff = n.seq
  modeBits : n.word >>> 40 &&& 0x3fff = n.mode.bits
  mode : Mode.ofBits (n.word >>> 40 &&& 0x3fff) = n.mode
  /-- One of two bits tells the kind. -/
  object : n.word.testBit 56 = !n.body.isArray
  array : n.word.testBit 57 = n.body.isArray
  /-- The others are not used. -/
  unused : ∀ i, 54 ≤ i → i ≠ 56 → i ≠ 57 → n.word.testBit i = false

theorem kindBits_lt (n : Node σ) : n.kindBits < 2 ^ 2 := by
  unfold kindBits
  split <;> decide

/-- Two numbers side by side are the two or-ed together. -/
theorem add_mul_eq_or {low width : Nat} (h : low < 2 ^ width) (high : Nat) :
    low + high * 2 ^ width = low ||| high <<< width := by
  rw [Nat.or_comm, ← Nat.shiftLeft_add_eq_or_of_lt h, Nat.shiftLeft_eq, Nat.add_comm]

namespace Fits

variable (h : n.Fits)
include h

theorem word_eq_or : n.word = n.body.value ||| n.seq <<< 32 ||| n.mode.bits <<< 40 ||| n.kindBits <<< 56 := by
  obtain ⟨hvalue, hseq⟩ := h
  have hmode := n.mode.bits_lt
  have hlow : n.body.value + n.seq * 2 ^ 32 < 2 ^ 40 := by omega
  have hlower : n.body.value + n.seq * 2 ^ 32 + n.mode.bits * 2 ^ 40 < 2 ^ 56 := by omega
  rw [word, add_mul_eq_or hlower, add_mul_eq_or hlow, add_mul_eq_or hvalue]

/-- What stands in a word from bit 54 on is the kind alone, behind two bits that are not used. -/
theorem testBit_word (i : Nat) : n.word.testBit (54 + i) = (n.kindBits * 2 ^ 2).testBit i := by
  obtain ⟨hvalue, hseq⟩ := h
  have hmode := n.mode.bits_lt
  have hhigh : n.word / 2 ^ 54 = n.kindBits * 2 ^ 2 := by
    unfold word
    omega
  rw [Nat.add_comm, ← Nat.testBit_div_two_pow, hhigh]

theorem unpacks : n.Unpacks := by
  have hvalue := h.value
  have hseq := h.seq
  have hmode := n.mode.bits_lt
  have hkind := n.kindBits_lt
  have hbits : n.word >>> 40 &&& 0x3fff = n.mode.bits := by
    rw [Nat.and_two_pow_sub_one_eq_mod _ 14, Nat.shiftRight_eq_div_pow, word]
    omega
  refine
    { lt := by unfold word; omega
      regions := h.word_eq_or
      value := ?_
      seq := ?_
      modeBits := hbits
      mode := by rw [hbits, Mode.ofBits_bits]
      object := ?_
      array := ?_
      unused := fun i hi hobject harray => ?_ }
  · rw [Nat.and_two_pow_sub_one_eq_mod _ 32, word]
    omega
  · rw [Nat.and_two_pow_sub_one_eq_mod _ 8, Nat.shiftRight_eq_div_pow, word]
    omega
  · rw [h.testBit_word 2, kindBits]
    cases n.body.isArray <;> rfl
  · rw [h.testBit_word 3, kindBits]
    cases n.body.isArray <;> rfl
  · -- Bits 54 and 55 are below the kind, and those from 58 on are above it.
    obtain ⟨j, rfl⟩ := Nat.exists_eq_add_of_le hi
    rw [h.testBit_word, Nat.testBit_mul_two_pow, Bool.and_eq_false_imp]
    intro hj
    have hbehind : 2 ≤ j - 2 := by
      have hj := of_decide_eq_true hj
      omega
    exact Nat.testBit_lt_two_pow (Nat.lt_of_lt_of_le hkind (Nat.pow_le_pow_right (by decide) hbehind))

theorem word_eq_iff (hm : m.Fits) : m.word = n.word ↔ m.packed = n.packed := by
  constructor
  · intro hword
    have hu := hm.unpacks
    have hv := h.unpacks
    have harray : m.body.isArray = n.body.isArray := by rw [← hu.array, hword, hv.array]
    have hvalue : m.body.value = n.body.value := by rw [← hu.value, hword, hv.value]
    have hseq : m.seq = n.seq := by rw [← hu.seq, hword, hv.seq]
    have hmode : m.mode = n.mode := by rw [← hu.mode, hword, hv.mode]
    exact packed_eq_iff.mpr ⟨harray, hvalue, hseq, hmode⟩
  · intro hpacked
    obtain ⟨harray, hvalue, hseq, hmode⟩ := packed_eq_iff.mp hpacked
    rw [word, word, kindBits, kindBits, harray, hvalue, hseq, hmode]

end Fits

end Node

/-! ### Queries -/

namespace Query

variable {n : Node PlainPath}

/-- The nodes of a path that can be written have room in their words. -/
theorem Parsed.fits (hq : q.Parsed) (hn : n ∈ Path.nodes q.path) : n.Fits := by
  have hw := parsed_iff.mp hq
  obtain ⟨i, s, hs, rfl⟩ := Path.mem_nodes.mp hn
  obtain ⟨hlt, -⟩ := List.getElem?_eq_some_iff.mp hs
  have hlength : q.path.length < 255 := hw.length_lt
  have hbody := hw.bodies s (List.mem_of_getElem? hs)
  refine ⟨?_, (by omega : i < 2 ^ 8)⟩
  change s.body.value < 2 ^ 32
  cases hb : s.body with
  | index digits =>
    rw [hb] at hbody
    exact hbody.2.2
  | field | here | append | bracket => exact Nat.two_pow_pos 32

/-- Whether a node has an index, and which, is told by its kind, its mode and its value. -/
theorem Parsed.index?_eq (hq : q.Parsed) (hn : n ∈ Path.nodes q.path) :
    n.index? = if n.body.isArray && !n.mode.append then some n.body.value else none := by
  obtain ⟨i, s, hs, rfl⟩ := Path.mem_nodes.mp hn
  have happend := (parsed_iff.mp hq).append s (List.mem_of_getElem? hs)
  cases hb : s.body <;> simp_all [Path.nodeAt, Path.mode, Node.index?, Body.isArray, Body.value]

/-- What is packed in the word of a node is read off it again. So two nodes have the same word exactly if they agree in
    all that is packed, and two queries with the same words node by node select alike, under the same modes. -/
theorem word_unpacks (hq : q.Reachable) (hr : r.Reachable) :
    (∀ n ∈ Path.nodes q.path, n.Unpacks) ∧
      (∀ m ∈ Path.nodes q.path, ∀ n ∈ Path.nodes r.path, m.word = n.word ↔ m.packed = n.packed) ∧
      ((Path.nodes q.path).map Node.word = (Path.nodes r.path).map Node.word →
        (Path.nodes q.path).map (fun n => (n.packed, n.index?)) =
          (Path.nodes r.path).map fun n => (n.packed, n.index?)) := by
  have hq := hq.parsed
  have hr := hr.parsed
  have hwords : ∀ m ∈ Path.nodes q.path, ∀ n ∈ Path.nodes r.path, m.word = n.word ↔ m.packed = n.packed :=
    fun m hm n hn => (hr.fits hn).word_eq_iff (hq.fits hm)
  refine ⟨fun n hn => (hq.fits hn).unpacks, hwords, fun hsame => List.ext_getElem? fun i => ?_⟩
  have hword : ((Path.nodes q.path).map Node.word)[i]? = ((Path.nodes r.path).map Node.word)[i]? := by rw [hsame]
  rw [List.getElem?_map, List.getElem?_map] at hword ⊢
  cases hm : (Path.nodes q.path)[i]? with
  | none =>
    rw [hm, Option.map_none, eq_comm, Option.map_eq_none_iff] at hword
    rw [hword, Option.map_none]
  | some m =>
    rw [hm, Option.map_some, eq_comm, Option.map_eq_some_iff] at hword
    obtain ⟨n, hn, hword⟩ := hword
    have hm := List.mem_of_getElem? hm
    have hmem := List.mem_of_getElem? hn
    have hpacked := (hwords m hm n hmem).mp hword.symm
    have hindex : m.index? = n.index? := by
      obtain ⟨harray, hvalue, -, hmode⟩ := Node.packed_eq_iff.mp hpacked
      rw [hq.index?_eq hm, hr.index?_eq hmem, harray, hvalue, hmode]
    rw [hn, Option.map_some, Option.map_some, hpacked, hindex]

/-- The words of the path in the bracket of `[b.7]` are those of `c.07`: neither a name nor leading zeros are packed. -/
theorem word_unpacks_zeros : ∃ q inner r, Query.parse "[b.7]" = .ok q ∧ q.inner? = some inner ∧
    Query.parse "c.07" = .ok r ∧ (∀ n ∈ Path.nodes inner.path, n.Unpacks) ∧
    (Path.nodes inner.path).map Node.word = (Path.nodes r.path).map Node.word ∧
    (Path.nodes inner.path).map (fun n => (n.packed, n.index?)) =
      (Path.nodes r.path).map fun n => (n.packed, n.index?) := by
  have hbracket : Query.parse "[b.7]" = .ok ⟨[⟨{}, .bracket ['b', '.', '7']
      [⟨{}, .field "b", false⟩, ⟨{}, .index ['7'], false⟩], false⟩], 0, by decide⟩ := rfl
  have hinner : inner? ⟨[⟨{}, .bracket ['b', '.', '7'] [⟨{}, .field "b", false⟩, ⟨{}, .index ['7'], false⟩], false⟩], 0,
      by decide⟩ = some ⟨[⟨{}, .field "b", false⟩, ⟨{}, .index ['7'], false⟩], 0, by decide⟩ := rfl
  have hread : Query.parse "c.07" =
      .ok ⟨[⟨{}, .field "c", false⟩, ⟨{}, .index ['0', '7'], false⟩], 0, by decide⟩ := rfl
  obtain ⟨hunpacks, -, hsame⟩ := word_unpacks (.inner (.parse hbracket) hinner) (.parse hread)
  exact ⟨_, _, _, hbracket, hinner, hread, hunpacks, rfl, hsame rfl⟩

end Query

end TreeQuery
