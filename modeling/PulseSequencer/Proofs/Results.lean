/-!
# Results of fallible steps

The stages of the compiler run in `Except`, and the first error ends them. These lemmas take a
successful run apart into its steps, and put it together from steps that succeed.
-/

namespace Except

variable {ε ε' α β : Type}

theorem bind_eq_ok_iff {x : Except ε α} {f : α → Except ε β} {b : β} :
    (x >>= f) = .ok b ↔ ∃ a, x = .ok a ∧ f a = .ok b := by
  cases x with
  | error e =>
    constructor
    · intro ok
      cases ok
    · rintro ⟨a, ok, _⟩
      cases ok
  | ok a =>
    constructor
    · intro ok
      exact ⟨a, rfl, ok⟩
    · rintro ⟨_, same, ok⟩
      cases same
      exact ok

@[simp] theorem ok_bind (a : α) (f : α → Except ε β) : (Except.ok a >>= f) = f a := rfl

@[simp] theorem error_bind (e : ε) (f : α → Except ε β) :
    ((Except.error e : Except ε α) >>= f) = .error e := rfl

@[simp] theorem pure_eq_ok (a : α) : (pure a : Except ε α) = .ok a := rfl

@[simp] theorem throw_eq_error (e : ε) : (throw e : Except ε α) = .error e := rfl

theorem exists_ok_of_isOk {x : Except ε α} (isOk : x.isOk = true) : ∃ a, x = .ok a := by
  cases x with
  | error e => cases isOk
  | ok a => exact ⟨a, rfl⟩

/-- Steps that never fail succeed one after the other. -/
theorem exists_ok_mapM {xs : List α} {f : α → Except ε β} (total : ∀ x ∈ xs, ∃ y, f x = .ok y) :
    ∃ ys, xs.mapM f = .ok ys := by
  induction xs with
  | nil => exact ⟨[], rfl⟩
  | cons x rest ih =>
    obtain ⟨y, ok⟩ := total x List.mem_cons_self
    obtain ⟨ys, okRest⟩ := ih fun x present => total x (List.mem_cons_of_mem _ present)
    exact ⟨y :: ys, by rw [List.mapM_cons, ok, ok_bind, okRest]; rfl⟩

theorem exists_ok_foldlM {xs : List α} {f : β → α → Except ε β} (start : β)
    (total : ∀ x ∈ xs, ∀ b, ∃ result, f b x = .ok result) :
    ∃ result, xs.foldlM f start = .ok result := by
  induction xs generalizing start with
  | nil => exact ⟨start, rfl⟩
  | cons x rest ih =>
    obtain ⟨next, ok⟩ := total x List.mem_cons_self start
    obtain ⟨result, okRest⟩ := ih next fun x present => total x (List.mem_cons_of_mem _ present)
    exact ⟨result, by rw [List.foldlM_cons, ok, ok_bind, okRest]⟩

/-- A run of steps succeeds as it did where each step succeeds as it did. -/
theorem foldlM_of_step {xs : List α} {f : β → α → Except ε β} {g : β → α → Except ε' β}
    {start result : β} (step : ∀ {b x next}, f b x = .ok next → g b x = .ok next)
    (ok : xs.foldlM f start = .ok result) : xs.foldlM g start = .ok result := by
  induction xs generalizing start with
  | nil =>
    cases ok
    rfl
  | cons x rest ih =>
    obtain ⟨next, first, later⟩ := bind_eq_ok_iff.mp ok
    exact bind_eq_ok_iff.mpr ⟨next, step first, ih later⟩

theorem map_eq_ok_iff {x : Except ε α} {f : α → β} {b : β} :
    x.map f = .ok b ↔ ∃ a, x = .ok a ∧ f a = b := by
  cases x <;> simp [Except.map]

theorem map_eq_error_iff {x : Except ε α} {f : α → β} {e : ε} :
    x.map f = .error e ↔ x = .error e := by
  cases x <;> simp [Except.map]

@[simp] theorem mapError_ok (a : α) (f : ε → ε') : (Except.ok a).mapError f = .ok a := rfl

theorem mapError_bind (x : Except ε α) (f : α → Except ε β) (g : ε → ε') :
    (x >>= f).mapError g = x.mapError g >>= fun a => (f a).mapError g := by
  cases x <;> rfl

theorem mapError_eq_ok_iff {x : Except ε α} {f : ε → ε'} {a : α} :
    x.mapError f = .ok a ↔ x = .ok a := by
  cases x with
  | error e =>
    constructor
    · intro ok
      cases ok
    · intro ok
      cases ok
  | ok b =>
    constructor
    · intro ok
      cases ok
      rfl
    · intro ok
      cases ok
      rfl

end Except
