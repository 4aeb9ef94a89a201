import TreeQuery.Proofs.Scan.Bytes
import TreeQuery.Proofs.Scan.Resume

/-! # What a scan knows of the characters

A scan stands between two bytes, perhaps within a character. `Tracks` says which characters are behind it: those of
the closed tokens, those of the open one, the last of these possibly with `pending` bytes still to come, and what
`readOn` has made of the open one. -/

namespace TreeQuery
open Except Scan

variable {σ : Type} {sc : Scanner σ} {reader : BracketReader σ} {st : State σ} {before front rest part : List Char}
  {pending more : List UInt8} {draft : Draft σ} {c first : Char} {b : UInt8} {place : Nat} {e : ParseError} {stop : Stop}
  {result : Except ParseError (Path σ)}

/-! ### Tokens -/

theorem NameText.append {a b a' b' : List Char} (ha : NameText a a') (hb : NameText b b') :
    NameText (a ++ b) (a' ++ b') := by
  induction ha with
  | nil => exact hb
  | plain hc _ ih => exact .plain hc ih
  | escaped _ ih => exact .escaped ih

namespace Scan.OpenToken

/-- An open token, `pending` bytes before the end of a character, shows what the characters `front` behind `before`
    gave: nothing but commands, and behind them the body as far as it goes. -/
def Shows (t : OpenToken σ) (before front : List Char) (pending : List UInt8) (offset : Nat) : Draft σ → Prop
  | .blank =>
    t.held = .text ∧ t.bytes = [] ∧ t.escaped = false ∧ pending = [] ∧ ∀ d ∈ front, (Command.ofSymbol? d).isSome = true
  | .here => t.held = .here ∧ t.bytes = [] ∧ pending = []
  | .bracket raw inner => t.held = .bracket (String.ofList raw) inner ∧ t.bytes = [] ∧ pending = []
  | .name name first position escaped =>
    t.held = .text ∧ t.bytes ≠ [] ∧ t.escaped = escaped ∧ t.bytes ++ pending = bytesOf name ∧
      position = offset + t.textStart ∧ ∃ lead raw, front = lead ++ first :: raw ∧ NameText (first :: raw) name ∧
        (∀ d ∈ lead, (Command.ofSymbol? d).isSome = true) ∧ t.textStart = byteLength (before ++ lead)

variable {t : OpenToken σ} {offset : Nat} (h : t.Shows before front pending offset draft)
include h

theorem Shows.finalized : t.finalized = !draft.isOpen := by
  cases draft <;> simp only [Shows] at h <;> simp [finalized, Draft.isOpen, h]

theorem Shows.begun : (t.started || t.finalized) = true ↔ draft ≠ .blank := by
  cases draft <;> simp only [Shows] at h <;> simp [started, OpenToken.finalized, h]

theorem Shows.withStart (start : Nat) : { t with start := start }.Shows before front pending offset draft := by
  cases draft <;> exact h

theorem Shows.isOpen_of_pending (hp : pending ≠ []) : draft.isOpen = true := by
  cases draft with
  | name => rfl
  | blank => exact absurd h.2.2.2.1 hp
  | here | bracket => exact absurd h.2.2 hp

theorem Shows.held (hne : t.bytes ≠ []) : t.held = .text := by
  cases draft with
  | name => exact h.1
  | blank | here | bracket => exact absurd h.2.1 hne

omit h in
/-- The next byte of a character of a name. -/
theorem Shows.push (h : t.Shows before front (b :: more) offset draft) (place : Nat) :
    (t.push b place).Shows before front more offset draft := by
  cases draft with
  | name text first position escaped =>
    obtain ⟨hheld, hne, hescaped, hbytes, hposition, lead, raw, hfront, hname, hlead, hstart⟩ := h
    have hstarted : t.started = true := by simp [started, hne]
    have htext : (t.push b place).textStart = t.textStart := if_pos hstarted
    refine ⟨hheld, by simp [OpenToken.push], hescaped, ?_, by rw [htext, hposition], lead, raw, hfront, hname,
      hlead, htext.trans hstart⟩
    rw [← hbytes, OpenToken.push, List.append_assoc, List.singleton_append]
  | blank => cases h.2.2.2.1
  | here | bracket => cases h.2.2

omit h in
/-- The first byte of a character of a name, which is written as `part`. -/
theorem Shows.add (h : t.Shows before front [] offset draft) (ho : draft.isOpen = true) {part : List Char}
    (hpart : NameText (first :: part) [c]) (henc : String.utf8EncodeChar c = b :: more) (escaped : Bool)
    (hplace : place = byteLength (before ++ front)) :
    { t.push b place with escaped := t.escaped || escaped }.Shows before (front ++ first :: part) more offset
      (draft.add first (offset + place) c escaped) := by
  have hbytes : [b] ++ more = bytesOf [c] := by rw [bytesOf_cons, henc]; exact (List.append_nil _).symm
  cases draft with
  | blank =>
    obtain ⟨hheld, hnil, hescaped, -, hfront⟩ := h
    have hstarted : t.started = false := by simp [started, hnil, hescaped]
    have htext : (t.push b place).textStart = place := if_neg (by simp [hstarted])
    refine ⟨hheld, by simp [OpenToken.push], ?_, ?_, ?_, front, part, rfl, hpart, hfront, htext.trans hplace⟩
    · rw [hescaped, Bool.false_or]
    · rw [← hbytes]
      simp [OpenToken.push, hnil]
    · exact congrArg (offset + ·) htext.symm
  | name text first' position escaped' =>
    obtain ⟨hheld, hne, hescaped, htext, hposition, lead, raw, hfront, hname, hlead, hstart⟩ := h
    have hstarted : t.started = true := by simp [started, hne]
    have hkeep : (t.push b place).textStart = t.textStart := if_pos hstarted
    refine ⟨hheld, by simp [OpenToken.push], ?_, ?_, ?_, lead, raw ++ first :: part, ?_, ?_, hlead,
      hkeep.trans hstart⟩
    · rw [hescaped]
    · rw [bytesOf_append, ← htext, ← hbytes]
      simp [OpenToken.push]
    · exact hposition.trans (congrArg (offset + ·) hkeep.symm)
    · rw [hfront, List.append_assoc, List.cons_append]
    · exact hname.append hpart
  | here | bracket => cases ho

theorem Shows.isBlank : t.isBlank = true ↔ draft = .blank ∧ t.commands = {} := by
  have hbegun := h.begun
  unfold OpenToken.isBlank
  cases hs : t.started <;> cases hf : t.finalized <;> simp_all

end Scan.OpenToken

/-! ### States -/

/-- How far the text has been read when the open token begins at a position. -/
def Scan.State.progress (st : State σ) (position : Nat) : Progress where
  seen := st.seen
  count := st.segments.length
  moved := st.moves != 0
  after := st.last.map Prod.fst
  position := position

/-- What is behind a state, character by character: `before` the open token, `front` in it, of which `pending` bytes
    are still to come, and `rest` after it. What the whole text is read as is `result`. -/
structure Tracks (sc : Scanner σ) (reader : BracketReader σ) (result : Except ParseError (Path σ)) (st : State σ)
    (before front rest : List Char) (pending : List UInt8) (draft : Draft σ) : Prop where
  splits : Splits sc.text (st.place + pending.length) (before ++ front) rest
  bytes : bytesFrom sc.text st.place = pending ++ bytesOf rest
  high : ∀ x ∈ pending, 128 ≤ x.toNat
  shows : st.token.Shows before front pending sc.offset draft
  fresh : draft = .blank ∧ st.token.commands = {} ↔ front = []
  start : front ≠ [] → st.token.start = byteLength before
  partWay : PartWay reader (st.progress (sc.offset + byteLength before)) front st.token.commands draft
  moves : st.moves ≤ 1
  last : ∀ separator place, st.last = some (separator, place) →
    st.segments ≠ [] ∧ ∃ lead, before = lead ++ [separator.symbol] ∧ place = byteLength lead
  result : result = (readTokens reader (st.progress (sc.offset + byteLength before))
    (Token.split false (front ++ rest))).map (st.segments ++ ·)

/-- A state from which a scan goes on to the result. -/
def Follows (sc : Scanner σ) (reader : BracketReader σ) (result : Except ParseError (Path σ)) (st : State σ) : Prop :=
  ∃ before front rest pending draft, Tracks sc reader result st before front rest pending draft

theorem follows_start (sc : Scanner σ) (reader : BracketReader σ) :
    Follows sc reader (readPath reader sc.offset sc.text.toList) {} := by
  refine ⟨[], [], sc.text.toList, [], .blank, ?_⟩
  exact {
    splits := splits_start sc.text
    bytes := (splits_start sc.text).bytesFrom
    high := List.forall_mem_nil _
    shows := ⟨rfl, rfl, rfl, rfl, List.forall_mem_nil _⟩
    fresh := by simp
    start := fun h => absurd rfl h
    partWay := partWay_start reader _
    moves := Nat.zero_le 1
    last := nofun
    result := (congrFun Except.map_id _).symm }

/-- Where a byte is next, it is the next one of a character that has been begun, or the first one of the next
    character. -/
theorem Follows.at_byte (h : Follows sc reader result st) (hb : byteAt? sc.text st.place = some b) :
    (∃ before front rest more draft, Tracks sc reader result st before front rest (b :: more) draft) ∨
      ∃ before front c rest more draft, Tracks sc reader result st before front (c :: rest) [] draft ∧
        String.utf8EncodeChar c = b :: more ∧ ∀ x ∈ more, 128 ≤ x.toNat := by
  obtain ⟨before, front, rest, pending, draft, h⟩ := h
  rw [byteAt?_eq_head?, h.bytes] at hb
  cases pending with
  | cons x more =>
    obtain rfl : x = b := Option.some.inj hb
    exact Or.inl ⟨before, front, rest, more, draft, h⟩
  | nil =>
    cases rest with
    | nil => cases hb
    | cons c rest =>
      obtain ⟨x, more, henc, hmore⟩ := encode_tail c
      rw [List.nil_append, bytesOf_cons, henc] at hb
      obtain rfl : x = b := Option.some.inj hb
      exact Or.inr ⟨before, front, c, rest, more, draft, h, henc, hmore⟩

theorem Follows.at_end (h : Follows sc reader result st) (hb : byteAt? sc.text st.place = none) :
    ∃ before front draft, Tracks sc reader result st before front [] [] draft := by
  obtain ⟨before, front, rest, pending, draft, h⟩ := h
  rw [byteAt?_eq_head?, h.bytes, List.head?_eq_none_iff, List.append_eq_nil_iff] at hb
  obtain ⟨rfl, hrest⟩ := hb
  cases rest with
  | nil => exact ⟨before, front, draft, h⟩
  | cons c rest =>
    rw [bytesOf_cons, List.append_eq_nil_iff] at hrest
    exact absurd hrest.1 String.utf8EncodeChar_ne_nil

/-! ### Stops -/

/-- A stop means a refusal: the character that it is about begins at its place. -/
def Scan.Scanner.Means (sc : Scanner σ) (e : ParseError) : Stop → Prop
  | .unexpected place =>
    ∃ c, BeginsAt sc.text sc.offset c (sc.offset + place) ∧ e = .unexpectedToken c (sc.offset + place)
  | .fault f => f = .refused e

theorem fault_of_means (h : sc.Means e stop) : sc.fault stop = .refused e := by
  cases stop with
  | fault f => exact h
  | unexpected place =>
    obtain ⟨c, hc, rfl⟩ := h
    have hget := hc.get?
    rw [Nat.add_sub_cancel_left] at hget
    rw [Scanner.fault, hget]
    rfl

theorem Splits.means (h : Splits sc.text place before (c :: rest)) :
    sc.Means (.unexpectedToken c (sc.offset + place)) (.unexpected place) := ⟨c, h.beginsAt sc.offset, rfl⟩

/-- What a scan gives is good, or it stops with the refusal that a reading gives. -/
def Scan.Scanner.Yields {α β : Type} (sc : Scanner σ) (Good : α → Prop) (reading : Except ParseError β) :
    Except Stop α → Prop
  | .ok a => Good a
  | .error stop => ∃ e, reading = .error e ∧ sc.Means e stop

/-- A scan gives what a reading gives. -/
def Matches {α : Type} (sc : Scanner σ) (reading : Except ParseError α) (x : Except Stop α) : Prop :=
  sc.Yields (reading = .ok ·) reading x

/-- A step goes on to the result. -/
def Leads (sc : Scanner σ) (reader : BracketReader σ) (result : Except ParseError (Path σ))
    (x : Except Stop (State σ)) : Prop :=
  sc.Yields (Follows sc reader result) result x

/-- What matches first may be taken off a scan and a reading. -/
theorem Matches.bind {α β γ : Type} {Good : γ → Prop} {reading : Except ParseError β} {x : Except Stop α}
    {y : Except ParseError α} {f : α → Except Stop γ} {g : α → Except ParseError β} (h : Matches sc y x)
    (hreading : reading = y >>= g) (hf : ∀ a, y = ok a → reading = g a → sc.Yields Good reading (f a)) :
    sc.Yields Good reading (x >>= f) := by
  cases x with
  | error stop =>
    obtain ⟨e, he, hmeans⟩ := h
    exact ⟨e, by rw [hreading, he]; rfl, hmeans⟩
  | ok a =>
    have ha : y = ok a := h
    exact hf a ha (by rw [hreading, ha]; rfl)

/-! ### Going on -/

namespace Tracks

theorem advance_eq (h : Tracks sc reader result st before front rest pending draft) :
    Scanner.advance st = { st with place := st.place + 1, token := { st.token with start := byteLength before } } := by
  unfold Scanner.advance
  by_cases hb : st.token.isBlank = true
  · -- Nothing of the token is read, so it begins at the place of the state.
    obtain ⟨rfl, hcommands⟩ := h.shows.isBlank.mp hb
    obtain rfl := h.fresh.mp ⟨rfl, hcommands⟩
    obtain rfl : pending = [] := h.shows.2.2.2.1
    have hplace := h.splits.place
    rw [List.length_nil, Nat.add_zero, List.append_nil] at hplace
    rw [if_pos hb, hplace]
  · have hfront : front ≠ [] := fun hf => hb (h.shows.isBlank.mpr (h.fresh.mpr hf))
    rw [if_neg hb, ← h.start hfront]

theorem place_eq (h : Tracks sc reader result st before front rest [] draft) :
    st.place = byteLength (before ++ front) := h.splits.place

theorem position_eq (h : Tracks sc reader result st before front rest [] draft) :
    sc.offset + byteLength before + byteLength front = sc.offset + st.place := by
  rw [h.place_eq, byteLength_append, Nat.add_assoc]

/-- A part of the open token has been read. -/
theorem extend (h : Tracks sc reader result st before front (part ++ rest) [] draft) {token : OpenToken σ}
    {place : Nat} {draft' : Draft σ} (hplace : place + pending.length = st.place + byteLength part)
    (hbytes : bytesFrom sc.text place = pending ++ bytesOf rest) (hhigh : ∀ x ∈ pending, 128 ≤ x.toNat)
    (hshows : token.Shows before (front ++ part) pending sc.offset draft')
    (hfresh : ¬(draft' = .blank ∧ token.commands = {})) (hstart : token.start = byteLength before)
    (hpart : part ≠ []) (hsolid : Token.Solid part)
    (hread : ∀ more, readOn reader st.seen (st.last.map Prod.fst) st.token.commands (sc.offset + st.place) draft
        (part ++ more) =
      readOn reader st.seen (st.last.map Prod.fst) token.commands (sc.offset + st.place + byteLength part) draft' more) :
    Follows sc reader result { st with place := place, token := token } := by
  refine ⟨before, front ++ part, rest, pending, draft', ?_⟩
  exact {
    splits := by
      have hs := h.splits.append
      rw [List.length_nil, Nat.add_zero, List.append_assoc] at hs
      exact hplace ▸ hs
    bytes := hbytes
    high := hhigh
    shows := hshows
    fresh := iff_of_false hfresh fun hnil => hpart (List.append_eq_nil_iff.mp hnil).2
    start := fun _ => hstart
    partWay := h.partWay.extend hsolid fun more => h.position_eq ▸ hread more
    moves := h.moves
    last := h.last
    result := List.append_assoc front part rest ▸ h.result }

/-- A part that ends with a character has been read. -/
theorem extend_whole (h : Tracks sc reader result st before front (part ++ rest) [] draft) {token : OpenToken σ}
    {draft' : Draft σ} (hshows : token.Shows before (front ++ part) [] sc.offset draft')
    (hfresh : ¬(draft' = .blank ∧ token.commands = {})) (hstart : token.start = byteLength before)
    (hpart : part ≠ []) (hsolid : Token.Solid part)
    (hread : ∀ more, readOn reader st.seen (st.last.map Prod.fst) st.token.commands (sc.offset + st.place) draft
        (part ++ more) =
      readOn reader st.seen (st.last.map Prod.fst) token.commands (sc.offset + st.place + byteLength part) draft' more) :
    Follows sc reader result { st with place := st.place + byteLength part, token := token } := by
  have hbytes : bytesFrom sc.text (st.place + byteLength part) = bytesOf rest := by
    rw [← length_bytesOf]
    exact bytesFrom_add (h.bytes.trans (bytesOf_append part rest))
  exact h.extend rfl hbytes (List.forall_mem_nil _) hshows hfresh hstart hpart hsolid hread

theorem refuses (h : Tracks sc reader result st before front rest [] draft) {t : Token} {ts : List Token}
    (hs : Token.split false rest = t :: ts) (ht : t.text ≠ [])
    (hread : readOn reader st.seen (st.last.map Prod.fst) st.token.commands (sc.offset + st.place) draft t.text =
      error e) : result = error e := by
  rw [h.result, h.partWay.fails hs ht (h.position_eq ▸ hread)]
  rfl

theorem refuses_char (h : Tracks sc reader result st before front (c :: rest) [] draft) (hc : c ≠ '.') (hc' : c ≠ '>')
    (hread : ∀ more, readOn reader st.seen (st.last.map Prod.fst) st.token.commands (sc.offset + st.place) draft
      (c :: more) = error e) : result = error e := by
  obtain ⟨text, closedBy, ts, hs⟩ := Token.split_cons hc hc' rest
  exact h.refuses hs (List.cons_ne_nil c text) (hread text)

theorem unexpected (h : Tracks sc reader result st before front (c :: rest) [] draft) (hc : c ≠ '.') (hc' : c ≠ '>')
    (hread : ∀ more, readOn reader st.seen (st.last.map Prod.fst) st.token.commands (sc.offset + st.place) draft
      (c :: more) = error (.unexpectedToken c (sc.offset + st.place))) :
    Leads sc reader result (error (.unexpected st.place)) := ⟨_, h.refuses_char hc hc' hread, h.splits.means⟩

end Tracks

end TreeQuery
