/-! # Outcomes

When a computation that may fail gives a result: the result of a chain comes from a result of its first
part, and renaming the errors changes no result. -/

namespace TreeQuery.Outcome

section
variable {ε ε' α β : Type}

theorem bind_ok_iff {x : Except ε α} {f : α → Except ε β} {b : β} :
    (x >>= f) = .ok b ↔ ∃ a, x = .ok a ∧ f a = .ok b := by
  cases x <;> simp [bind, Except.bind]

theorem ok_bind {a : α} {f : α → Except ε β} : ((.ok a : Except ε α) >>= f) = f a := rfl

theorem bind_error_iff {x : Except ε α} {f : α → Except ε β} {e : ε} :
    (x >>= f) = .error e ↔ x = .error e ∨ ∃ a, x = .ok a ∧ f a = .error e := by
  cases x <;> simp [bind, Except.bind]

theorem map_bind {γ : Type} {x : Except ε α} {f : α → Except ε β} {g : β → γ} :
    (x >>= f).map g = x >>= fun a => (f a).map g := by
  cases x <;> rfl

theorem map_ok_iff {x : Except ε α} {f : α → β} {b : β} : x.map f = .ok b ↔ ∃ a, x = .ok a ∧ f a = b := by
  cases x <;> simp [Except.map]

theorem map_error_iff {x : Except ε α} {f : α → β} {e : ε} : x.map f = .error e ↔ x = .error e := by
  cases x <;> simp [Except.map]

theorem mapError_ok_iff {x : Except ε α} {f : ε → ε'} {a : α} : x.mapError f = .ok a ↔ x = .ok a := by
  cases x with
  | error e => exact ⟨nofun, nofun⟩
  | ok b => exact ⟨fun h => congrArg Except.ok (Except.ok.inj h), fun h => congrArg Except.ok (Except.ok.inj h)⟩

theorem mapError_error_iff {x : Except ε α} {f : ε → ε'} {e' : ε'} :
    x.mapError f = .error e' ↔ ∃ e, x = .error e ∧ f e = e' := by
  constructor
  · intro h
    cases x with
    | error e => exact ⟨e, rfl, Except.error.inj h⟩
    | ok a => cases h
  · rintro ⟨e, rfl, rfl⟩
    rfl

theorem mapError_bind {x : Except ε α} {f : α → Except ε β} {g : ε → ε'} :
    (x >>= f).mapError g = x.mapError g >>= fun a => (f a).mapError g := by
  cases x <;> rfl

theorem pure_ok_iff {a b : α} : (pure a : Except ε α) = .ok b ↔ a = b := by
  simp [pure, Except.pure]

/-! ### Lists -/

theorem mapM_cons_ok_iff {f : α → Except ε β} {x : α} {xs : List α} {out : List β} :
    (x :: xs).mapM f = .ok out ↔ ∃ y ys, f x = .ok y ∧ xs.mapM f = .ok ys ∧ out = y :: ys := by
  rw [List.mapM_cons, bind_ok_iff]
  refine exists_congr fun y => ?_
  rw [bind_ok_iff]
  exact ⟨fun ⟨hy, ys, hys, h⟩ => ⟨ys, hy, hys, (pure_ok_iff.mp h).symm⟩,
    fun ⟨ys, hy, hys, h⟩ => ⟨hy, ys, hys, pure_ok_iff.mpr h.symm⟩⟩

theorem exists_of_mapM {f : α → Except ε β} {xs : List α} {ys : List β} (h : xs.mapM f = .ok ys) {y : β}
    (hy : y ∈ ys) : ∃ x ∈ xs, f x = .ok y := by
  induction xs generalizing ys with
  | nil =>
    cases h
    cases hy
  | cons x xs ih =>
    obtain ⟨z, zs, hz, hzs, rfl⟩ := mapM_cons_ok_iff.mp h
    rcases List.mem_cons.mp hy with rfl | hy
    · exact ⟨x, List.mem_cons_self, hz⟩
    · obtain ⟨w, hw, hwy⟩ := ih hzs hy
      exact ⟨w, List.mem_cons_of_mem _ hw, hwy⟩

/-- What every step keeps, the whole list keeps. -/
theorem map_of_mapM {γ : Type} {f : α → Except ε β} {seen : α → γ} {seen' : β → γ} {xs : List α} {ys : List β}
    (h : xs.mapM f = .ok ys) (hf : ∀ x y, f x = .ok y → seen' y = seen x) : ys.map seen' = xs.map seen := by
  induction xs generalizing ys with
  | nil =>
    cases h
    rfl
  | cons x xs ih =>
    obtain ⟨y, ys, hy, hys, rfl⟩ := mapM_cons_ok_iff.mp h
    rw [List.map_cons, List.map_cons, hf x y hy, ih hys]

end

/-! ### Outcomes up to what errors say -/

section
variable {ε ε' α β : Type} {forget : ε → ε} {x y : Except ε α}

/-- The same result, or errors that are the same once `forget` has dropped what does not count. -/
def Agree (forget : ε → ε) (x y : Except ε α) : Prop := x.mapError forget = y.mapError forget

theorem agree_iff : Agree forget x y ↔
    (∃ a, x = .ok a ∧ y = .ok a) ∨ ∃ e e', x = .error e ∧ y = .error e' ∧ forget e = forget e' := by
  constructor
  · intro h
    cases x with
    | error e =>
      cases y with
      | error e' => exact Or.inr ⟨e, e', rfl, rfl, Except.error.inj h⟩
      | ok b => cases h
    | ok a =>
      cases y with
      | error e' => cases h
      | ok b => exact Or.inl ⟨a, rfl, congrArg Except.ok (Except.ok.inj h).symm⟩
  · rintro (⟨a, rfl, rfl⟩ | ⟨e, e', rfl, rfl, he⟩)
    · rfl
    · exact congrArg Except.error he

theorem Agree.refl (x : Except ε α) : Agree forget x x := rfl

theorem Agree.ok_iff (h : Agree forget x y) {a : α} : x = .ok a ↔ y = .ok a := by
  rcases agree_iff.mp h with ⟨b, rfl, rfl⟩ | ⟨e, e', rfl, rfl, -⟩
  · rfl
  · exact ⟨nofun, nofun⟩

theorem Agree.bind_left (h : Agree forget x y) (f : α → Except ε β) : Agree forget (x >>= f) (y >>= f) := by
  rcases agree_iff.mp h with ⟨a, rfl, rfl⟩ | ⟨e, e', rfl, rfl, he⟩
  · rfl
  · exact agree_iff.mpr (Or.inr ⟨e, e', rfl, rfl, he⟩)

theorem Agree.bind_right {f g : α → Except ε β} (h : ∀ a, Agree forget (f a) (g a)) :
    Agree forget (x >>= f) (x >>= g) := by
  cases x with
  | error e => rfl
  | ok a => exact h a

theorem Agree.bind {f g : α → Except ε β} (h : Agree forget x y) (hf : ∀ a, Agree forget (f a) (g a)) :
    Agree forget (x >>= f) (y >>= g) :=
  (h.bind_left f).trans (Agree.bind_right hf)

theorem Agree.map (h : Agree forget x y) (f : α → β) : Agree forget (x.map f) (y.map f) := by
  rcases agree_iff.mp h with ⟨a, rfl, rfl⟩ | ⟨e, e', rfl, rfl, he⟩
  · rfl
  · exact agree_iff.mpr (Or.inr ⟨e, e', rfl, rfl, he⟩)

theorem Agree.mapError {forget' : ε' → ε'} {inject : ε → ε'} (h : Agree forget x y)
    (hi : ∀ e, forget' (inject e) = inject (forget e)) :
    Agree forget' (x.mapError inject) (y.mapError inject) := by
  rcases agree_iff.mp h with ⟨a, rfl, rfl⟩ | ⟨e, e', rfl, rfl, he⟩
  · rfl
  · exact agree_iff.mpr (Or.inr ⟨_, _, rfl, rfl, by rw [hi, hi, he]⟩)

end

end TreeQuery.Outcome
