/-!
When a sequence of checks succeeds: each check in turn succeeded, on what the checks before it gave. And
how it fails: with an error of one of its checks, run on what the checks before it gave.
-/

namespace StakeChain

variable {ε ε' α β : Type} {a : α} {b : β} {e : ε}

theorem bind_eq_ok {x : Except ε α} {f : α → Except ε β} :
    (x >>= f) = .ok b ↔ ∃ a, x = .ok a ∧ f a = .ok b := by
  cases x <;> simp [bind, Except.bind]

theorem ok_bind (a : α) (f : α → Except ε β) : ((.ok a : Except ε α) >>= f) = f a := rfl

theorem pure_eq_ok {c : α} : (pure a : Except ε α) = .ok c ↔ a = c := by simp [pure, Except.pure]

/-- A guard is passed when its condition for failure does not hold. -/
theorem guard_eq_ok {c : Prop} [Decidable c] {f : α → Except ε β} {x : Except ε β} :
    (if c then throw e >>= f else x) = .ok b ↔ ¬ c ∧ x = .ok b := by
  by_cases hc : c <;> simp [hc, bind, Except.bind, throw, throwThe, MonadExceptOf.throw]

theorem map_eq_ok {x : Except ε α} {f : α → β} : x.map f = .ok b ↔ ∃ a, x = .ok a ∧ f a = b := by
  cases x <;> simp [Except.map]

theorem mapError_ok (f : ε → ε') : (Except.ok a : Except ε α).mapError f = .ok a := rfl

theorem mapError_error (f : ε → ε') : (Except.error e : Except ε α).mapError f = .error (f e) := rfl

theorem mapError_eq_ok {x : Except ε α} {f : ε → ε'} : x.mapError f = .ok a ↔ x = .ok a := by
  cases x <;> simp [mapError_ok, mapError_error]

theorem exists_of_isOk {x : Except ε α} (h : x.isOk = true) : ∃ a, x = .ok a := by
  cases x with
  | ok a => exact ⟨a, rfl⟩
  | error e => simp [Except.isOk, Except.toBool] at h

theorem toOption_eq_some {x : Except ε α} : x.toOption = some a ↔ x = .ok a := by
  cases x <;> simp [Except.toOption]

/-! ### The check that fails -/

theorem bind_eq_error {x : Except ε α} {f : α → Except ε β} :
    (x >>= f) = .error e ↔ x = .error e ∨ ∃ a, x = .ok a ∧ f a = .error e := by
  cases x <;> simp [bind, Except.bind]

theorem pure_ne_error : (pure a : Except ε α) ≠ .error e := by simp [pure, Except.pure]

theorem throw_eq_error {e' : ε} : (throw e' : Except ε α) = .error e ↔ e' = e := by
  simp [throw, throwThe, MonadExceptOf.throw]

theorem guard_eq_error {c : Prop} [Decidable c] {e' : ε} {f : α → Except ε β} {x : Except ε β} :
    (if c then throw e' >>= f else x) = .error e ↔ c ∧ e' = e ∨ ¬ c ∧ x = .error e := by
  by_cases hc : c <;> simp [hc, bind, Except.bind, throw, throwThe, MonadExceptOf.throw]

theorem mapError_eq_error {x : Except ε α} {f : ε → ε'} {e' : ε'} :
    x.mapError f = .error e' ↔ ∃ e, x = .error e ∧ f e = e' := by
  cases x <;> simp [mapError_ok, mapError_error]

/-! ### Kinds of failure -/

/-- Where the computation fails, its error is of a kind. -/
def FailsOnly (P : ε → Prop) (x : Except ε α) : Prop := ∀ e, x = .error e → P e

namespace FailsOnly

variable {P Q : ε → Prop} {x : Except ε α}

/-- What succeeds does not fail. -/
theorem of_exists (h : ∃ a, x = .ok a) : FailsOnly P x := by
  obtain ⟨a, rfl⟩ := h
  intro e herror
  simp at herror

theorem ok : FailsOnly P (.ok a : Except ε α) := of_exists ⟨a, rfl⟩

theorem error (h : P e) : FailsOnly P (.error e : Except ε α) := by
  intro e' herror
  exact Except.error.inj herror ▸ h

theorem mono (h : FailsOnly P x) (hPQ : ∀ e, P e → Q e) : FailsOnly Q x :=
  fun e herror => hPQ e (h e herror)

theorem bind {f : α → Except ε β} (hx : FailsOnly P x) (hf : ∀ a, x = .ok a → FailsOnly P (f a)) :
    FailsOnly P (x >>= f) := by
  cases x with
  | error e => exact error (hx e rfl)
  | ok a => exact hf a rfl

theorem ite {c : Prop} [Decidable c] {y : Except ε α} (hx : c → FailsOnly P x)
    (hy : ¬ c → FailsOnly P y) : FailsOnly P (if c then x else y) := by
  by_cases hc : c
  · rw [if_pos hc]
    exact hx hc
  · rw [if_neg hc]
    exact hy hc

theorem guard {c : Prop} [Decidable c] {f : α → Except ε β} {y : Except ε β} (he : c → P e)
    (hy : ¬ c → FailsOnly P y) : FailsOnly P (if c then throw e >>= f else y) :=
  .ite (fun hc => .error (he hc)) hy

theorem map (h : FailsOnly P x) (f : α → β) : FailsOnly P (x.map f) := by
  cases x with
  | error e => exact error (h e rfl)
  | ok a => exact ok

theorem mapError {P : ε' → Prop} {f : ε → ε'} (h : FailsOnly (fun e => P (f e)) x) :
    FailsOnly P (x.mapError f) := by
  cases x with
  | error e => exact error (h e rfl)
  | ok a => exact ok

end FailsOnly

end StakeChain
