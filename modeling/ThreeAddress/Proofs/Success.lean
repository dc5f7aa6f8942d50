import Mathlib.Tactic

/-!
# Computations that succeed

A chain of computations succeeds when each of its links does.  The lemmas take
a successful chain apart, so that no other module opens `bind`.
-/

namespace ThreeAddress

namespace Success

variable {ε ε' α β : Type}

@[simp] theorem bind_eq_ok_iff
    {x : Except ε α} {f : α → Except ε β} {b : β} :
    (x >>= f) = .ok b ↔ ∃ a, x = .ok a ∧ f a = .ok b := by
  cases x <;> simp [bind, Except.bind]

theorem bind_eq_error_iff
    {x : Except ε α} {f : α → Except ε β} {e : ε} :
    (x >>= f) = .error e ↔
      x = .error e ∨ ∃ a, x = .ok a ∧ f a = .error e := by
  cases x <;> simp [bind, Except.bind]

@[simp] theorem pure_eq_ok_iff
    {a b : α} :
    (pure a : Except ε α) = .ok b ↔ a = b := by
  simp [pure, Except.pure]

@[simp] theorem map_eq_ok_iff
    {x : Except ε α} {f : α → β} {b : β} :
    x.map f = .ok b ↔ ∃ a, x = .ok a ∧ f a = b := by
  cases x <;> simp [Except.map]

/-- A computation of which something was evaluated has succeeded. -/
theorem exists_of_toOption
    {x : Except ε α} {f : α → β} {b : β}
    (h : x.toOption.map f = some b) :
    ∃ a, x = .ok a ∧ f a = b := by
  cases x with
  | error e => cases h
  | ok a => exact ⟨a, rfl, Option.some.inj h⟩

@[simp] theorem mapError_eq_ok_iff
    {x : Except ε α} {f : ε → ε'} {a : α} :
    x.mapError f = .ok a ↔ x = .ok a := by
  cases x <;> simp [Except.mapError]

theorem mapError_eq_error_iff
    {x : Except ε α} {f : ε → ε'} {e : ε'} :
    x.mapError f = .error e ↔ ∃ e', x = .error e' ∧ f e' = e := by
  cases x <;> simp [Except.mapError]

@[simp] theorem mapError_ok
    (f : ε → ε') (a : α) :
    (Except.ok a).mapError f = .ok a := rfl

theorem forM_eq_ok_iff
    {f : α → Except ε Unit} {l : List α} {u : Unit} :
    l.forM f = .ok u ↔ ∀ a ∈ l, f a = .ok () := by
  induction l with
  | nil => simp
  | cons a l ih =>
      change (f a >>= fun _ => l.forM f) = .ok u ↔ _
      rw [bind_eq_ok_iff, List.forall_mem_cons, ← ih]
      constructor
      · rintro ⟨⟨⟩, hfirst, hrest⟩
        exact ⟨hfirst, hrest⟩
      · rintro ⟨hfirst, hrest⟩
        exact ⟨(), hfirst, hrest⟩

@[simp] theorem throw_ne_ok
    (e : ε) (a : α) :
    (throw e : Except ε α) ≠ .ok a := by
  simp [throw, throwThe, MonadExceptOf.throw]

theorem throw_eq_error_iff
    {e e' : ε} :
    (throw e : Except ε α) = .error e' ↔ e = e' := by
  simp [throw, throwThe, MonadExceptOf.throw]

theorem map_bind
    (x : Except ε α) (f : α → β) {γ : Type} (g : β → Except ε γ) :
    (x.map f).bind g = x.bind fun a => g (f a) := by
  cases x <;> rfl

@[simp] theorem ok_bind
    (a : α) (f : α → Except ε β) :
    (Except.ok a >>= f) = f a := rfl

/-! ## Computations seen through functions -/

section Bimap

variable {α' β' δ δ' : Type} {f : ε → ε'} {g : α → α'}

/-- The computation, with its error and its result seen through functions. -/
def bimap (f : ε → ε') (g : α → α') : Except ε α → Except ε' α'
  | .error e => .error (f e)
  | .ok a => .ok (g a)

theorem bimap_eq_ok_iff
    {x : Except ε α} {b : α'} :
    bimap f g x = .ok b ↔ ∃ a, x = .ok a ∧ g a = b := by
  cases x <;> simp [bimap]

theorem bimap_eq_error_iff
    {x : Except ε α} {e : ε'} :
    bimap f g x = .error e ↔ ∃ e', x = .error e' ∧ f e' = e := by
  cases x <;> simp [bimap]

theorem bimap_bind
    {x : Except ε α} {x' : Except ε' α'} {next : α → Except ε β}
    {next' : α' → Except ε' β'} {k : β → β'}
    (hx : bimap f g x = x')
    (hnext : ∀ a, bimap f k (next a) = next' (g a)) :
    bimap f k (x >>= next) = (x' >>= next') := by
  subst hx
  cases x with
  | error e => rfl
  | ok a => exact hnext a

theorem bimap_mapError
    {x : Except ε α} {x' : Except ε' α'} {w : ε → δ} {w' : ε' → δ'}
    {h : δ → δ'}
    (hx : bimap f g x = x')
    (hw : ∀ e, h (w e) = w' (f e)) :
    bimap h g (x.mapError w) = x'.mapError w' := by
  subst hx
  cases x with
  | error e => exact congrArg Except.error (hw e)
  | ok a => rfl

theorem bimap_map
    {x : Except ε α} {x' : Except ε' α'} {w : α → δ} {w' : α' → δ'}
    {h : δ → δ'}
    (hx : bimap f g x = x')
    (hw : ∀ a, h (w a) = w' (g a)) :
    bimap f h (x.map w) = x'.map w' := by
  subst hx
  cases x with
  | error e => rfl
  | ok a => exact congrArg Except.ok (hw a)

end Bimap

end Success

end ThreeAddress
