import Dalvik.Semantics.Run

/-!
What computations end with. `Ends` speaks about a result and an error at once, so that one statement
about an instruction says what it does and how it may fail.
-/

namespace Dalvik

variable {α β : Type}

/-- A result satisfies one condition, or else an error satisfies the other. -/
def Ends (r : Except Error α) (Q : α → Prop) (E : Error → Prop) : Prop :=
  match r with
  | .ok v => Q v
  | .error e => E e

@[simp] theorem ends_ok {v : α} {Q : α → Prop} {E : Error → Prop} :
    Ends (.ok v) Q E ↔ Q v := Iff.rfl

@[simp] theorem ends_pure {v : α} {Q : α → Prop} {E : Error → Prop} :
    Ends (pure v) Q E ↔ Q v := Iff.rfl

@[simp] theorem ends_error {e : Error} {Q : α → Prop} {E : Error → Prop} :
    Ends (.error e) Q E ↔ E e := Iff.rfl

@[simp] theorem ends_bind {r : Except Error α} {f : α → Except Error β} {Q : β → Prop}
    {E : Error → Prop} : Ends (r >>= f) Q E ↔ Ends r (fun v => Ends (f v) Q E) E := by
  cases r <;> rfl

@[simp] theorem ends_map {r : Except Error α} {f : α → β} {Q : β → Prop} {E : Error → Prop} :
    Ends (r.map f) Q E ↔ Ends r (fun v => Q (f v)) E := by
  cases r <;> rfl

theorem Ends.imp {r : Except Error α} {Q Q' : α → Prop} {E E' : Error → Prop} (h : Ends r Q E)
    (hResult : ∀ v, Q v → Q' v) (hError : ∀ e, E e → E' e) : Ends r Q' E' := by
  cases r with
  | ok v => exact hResult v h
  | error e => exact hError e h

theorem ends_of_all {r : Except Error α} {Q : α → Prop} (h : ∀ v, Q v) :
    Ends r Q fun _ => True := by
  cases r with
  | ok v => exact h v
  | error e => trivial

theorem ends_of_eq {r : Except Error α} {Q : α → Prop} (h : ∀ v, r = .ok v → Q v) :
    Ends r Q fun _ => True := by
  cases r with
  | ok v => exact h v rfl
  | error e => trivial

theorem Ends.of_eq_ok {r : Except Error α} {v : α} {Q : α → Prop} {E : Error → Prop}
    (h : Ends r Q E) (hr : r = .ok v) : Q v := by
  rwa [hr, ends_ok] at h

theorem except_bind_eq_ok {ε : Type} {r : Except ε α} {f : α → Except ε β} {v : β} :
    r >>= f = .ok v ↔ ∃ u, r = .ok u ∧ f u = .ok v := by
  cases r with
  | ok u => simp [bind, Except.bind]
  | error e => simp [bind, Except.bind]

/-- How two parts of a computation with a state and errors follow each other. -/
theorem stateful_bind_apply {ε σ : Type} (r : ExceptT ε (StateM σ) α)
    (f : α → ExceptT ε (StateM σ) β) (s : σ) :
    (r >>= f) s =
      match r s with
      | (.ok v, s) => f v s
      | (.error e, s) => (.error e, s) := by
  change ExceptT.bind r f s = _
  simp only [ExceptT.bind, ExceptT.mk]
  change (match r s with | (v, s) => ExceptT.bindCont f v s) = _
  rcases r s with ⟨_ | _, _⟩ <;> rfl

theorem stateful_tryCatch_apply {ε σ : Type} (r : ExceptT ε (StateM σ) α)
    (f : ε → ExceptT ε (StateM σ) α) (s : σ) :
    tryCatch r f s =
      match r s with
      | (.ok v, s) => (.ok v, s)
      | (.error e, s) => f e s := by
  change ExceptT.tryCatch r f s = _
  simp only [ExceptT.tryCatch, ExceptT.mk, bind, StateT.bind]
  rcases r s with ⟨_ | _, _⟩ <;> rfl

/-- If a computation with a state and errors succeeds, then with a result and a state that satisfy a
condition. -/
def Leads {ε σ : Type} (r : ExceptT ε (StateM σ) α) (s : σ) (Q : α → σ → Prop) : Prop :=
  match r s with
  | (.ok v, s) => Q v s
  | (.error _, _) => True

theorem leads_bind {ε σ : Type} {r : ExceptT ε (StateM σ) α} {f : α → ExceptT ε (StateM σ) β} {s : σ}
    {Q : β → σ → Prop} : Leads (r >>= f) s Q ↔ Leads r s fun v t => Leads (f v) t Q := by
  unfold Leads
  rw [stateful_bind_apply]
  rcases r s with ⟨_ | _, _⟩ <;> rfl

@[simp] theorem leads_pure {ε σ : Type} {v : α} {s : σ} {Q : α → σ → Prop} :
    Leads (pure v : ExceptT ε (StateM σ) α) s Q ↔ Q v s := Iff.rfl

@[simp] theorem leads_throw {ε σ : Type} {e : ε} {s : σ} {Q : α → σ → Prop} :
    Leads (throw e : ExceptT ε (StateM σ) α) s Q ↔ True := Iff.rfl

theorem Leads.imp {ε σ : Type} {r : ExceptT ε (StateM σ) α} {s : σ} {Q Q' : α → σ → Prop}
    (h : Leads r s Q) (hResult : ∀ v t, Q v t → Q' v t) : Leads r s Q' := by
  revert h
  unfold Leads
  rcases r s with ⟨_ | _, _⟩
  · exact fun h => h
  · exact hResult _ _

/-- What a computation leads to is what it gives. -/
theorem Leads.noting {ε σ : Type} {r : ExceptT ε (StateM σ) α} {s : σ} {Q : α → σ → Prop}
    (h : Leads r s Q) : Leads r s fun v t => r s = (.ok v, t) ∧ Q v t := by
  revert h
  unfold Leads
  rcases r s with ⟨_ | _, _⟩
  · exact id
  · exact fun h => ⟨rfl, h⟩

/-- A computation with a state and errors succeeds, with a result and a state that satisfy a
condition. -/
def Yields {ε σ : Type} (r : ExceptT ε (StateM σ) α) (s : σ) (Q : α → σ → Prop) : Prop :=
  match r s with
  | (.ok v, s) => Q v s
  | (.error _, _) => False

theorem yields_bind {ε σ : Type} {r : ExceptT ε (StateM σ) α} {f : α → ExceptT ε (StateM σ) β} {s : σ}
    {Q : β → σ → Prop} : Yields (r >>= f) s Q ↔ Yields r s fun v t => Yields (f v) t Q := by
  unfold Yields
  rw [stateful_bind_apply]
  rcases r s with ⟨_ | _, _⟩ <;> rfl

theorem yields_of_eq {ε σ : Type} {r : ExceptT ε (StateM σ) α} {s t : σ} {v : α} {Q : α → σ → Prop}
    (h : r s = (.ok v, t)) (hResult : Q v t) : Yields r s Q := by
  unfold Yields
  rw [h]
  exact hResult

theorem Yields.exists_eq {ε σ : Type} {r : ExceptT ε (StateM σ) α} {s : σ} {Q : α → σ → Prop}
    (h : Yields r s Q) : ∃ v t, r s = (.ok v, t) ∧ Q v t := by
  unfold Yields at h
  split at h
  · rename_i v t hRun
    exact ⟨v, t, hRun, h⟩
  · cases h

theorem Yields.imp {ε σ : Type} {r : ExceptT ε (StateM σ) α} {s : σ} {Q Q' : α → σ → Prop}
    (h : Yields r s Q) (hResult : ∀ v t, Q v t → Q' v t) : Yields r s Q' := by
  obtain ⟨v, t, hRun, hQ⟩ := h.exists_eq
  exact yields_of_eq hRun (hResult v t hQ)

/-- A computation with a state and errors ends with a result and a state that satisfy a condition, or with an error that
satisfies another one. -/
def Concludes {ε σ : Type} (r : ExceptT ε (StateM σ) α) (s : σ) (Q : α → σ → Prop) (E : ε → Prop) : Prop :=
  match r s with
  | (.ok v, s) => Q v s
  | (.error e, _) => E e

theorem concludes_bind {ε σ : Type} {r : ExceptT ε (StateM σ) α} {f : α → ExceptT ε (StateM σ) β} {s : σ}
    {Q : β → σ → Prop} {E : ε → Prop} :
    Concludes (r >>= f) s Q E ↔ Concludes r s (fun v t => Concludes (f v) t Q E) E := by
  unfold Concludes
  rw [stateful_bind_apply]
  rcases r s with ⟨_ | _, _⟩ <;> rfl

theorem Concludes.imp {ε σ : Type} {r : ExceptT ε (StateM σ) α} {s : σ} {Q Q' : α → σ → Prop} {E : ε → Prop}
    (h : Concludes r s Q E) (hResult : ∀ v t, Q v t → Q' v t) : Concludes r s Q' E := by
  unfold Concludes at h ⊢
  split at h
  · exact hResult _ _ h
  · exact h

theorem Concludes.weaken {ε σ : Type} {r : ExceptT ε (StateM σ) α} {s : σ} {Q : α → σ → Prop} {E E' : ε → Prop}
    (h : Concludes r s Q E) (hError : ∀ e, E e → E' e) : Concludes r s Q E' := by
  unfold Concludes at h ⊢
  split at h
  · exact h
  · exact hError _ h

theorem Concludes.and_leads {ε σ : Type} {r : ExceptT ε (StateM σ) α} {s : σ} {Q Q' : α → σ → Prop} {E : ε → Prop}
    (h : Concludes r s Q E) (h' : Leads r s Q') : Concludes r s (fun v t => Q v t ∧ Q' v t) E := by
  revert h h'
  unfold Concludes Leads
  rcases r s with ⟨_ | _, _⟩
  · exact fun h _ => h
  · exact fun h h' => ⟨h, h'⟩

/-- A computation ends with what it gives. -/
theorem Concludes.noting {ε σ : Type} {r : ExceptT ε (StateM σ) α} {s : σ} {Q : α → σ → Prop} {E : ε → Prop}
    (h : Concludes r s Q E) : Concludes r s (fun v t => r s = (.ok v, t) ∧ Q v t) E := by
  revert h
  unfold Concludes
  rcases r s with ⟨_ | _, _⟩
  · exact id
  · exact fun h => ⟨rfl, h⟩

/-- What cannot end with an error succeeds. -/
theorem Concludes.yields {ε σ : Type} {r : ExceptT ε (StateM σ) α} {s : σ} {Q : α → σ → Prop} {E : ε → Prop}
    (h : Concludes r s Q E) (hNone : ∀ e, ¬E e) : Yields r s Q := by
  unfold Concludes at h
  unfold Yields
  split at h
  · exact h
  · exact hNone _ h

/-- What only leads somewhere may end with any error. -/
theorem leads_iff_concludes {ε σ : Type} {r : ExceptT ε (StateM σ) α} {s : σ} {Q : α → σ → Prop} :
    Leads r s Q ↔ Concludes r s Q fun _ => True := by
  unfold Leads Concludes
  rcases r s with ⟨_ | _, _⟩ <;> exact Iff.rfl

/-- What succeeds ends with no error at all. -/
theorem Yields.concludes {ε σ : Type} {r : ExceptT ε (StateM σ) α} {s : σ} {Q : α → σ → Prop} {E : ε → Prop}
    (h : Yields r s Q) : Concludes r s Q E := by
  unfold Concludes
  obtain ⟨v, t, hRun, hResult⟩ := h.exists_eq
  rw [hRun]
  exact hResult

namespace Run

/-- A computation that starts from a supply ends with a result that satisfies one condition, or else
with an error that satisfies the other. -/
def Ends (r : Run α) (s : Supply) (Q : α → Supply → Prop) (E : Error → Supply → Prop) : Prop :=
  match r s with
  | (.ok v, s) => Q v s
  | (.error e, s) => E e s

variable {s : Supply} {Q : α → Supply → Prop} {E : Error → Supply → Prop}

theorem pure_eq_ok {v u : α} {t : Supply} (h : (pure v : Run α) s = (.ok u, t)) : u = v ∧ t = s := by
  obtain ⟨hResult, rfl⟩ := Prod.mk.inj h
  exact ⟨(Except.ok.inj hResult).symm, rfl⟩

@[simp] theorem ends_pure {v : α} : Ends (pure v) s Q E ↔ Q v s := Iff.rfl

@[simp] theorem ends_throw {e : Error} : Ends (throw e) s Q E ↔ E e s := Iff.rfl

@[simp] theorem ends_bind {r : Run α} {f : α → Run β} {Q : β → Supply → Prop} :
    Ends (r >>= f) s Q E ↔ Ends r s (fun v s => Ends (f v) s Q E) E := by
  unfold Ends
  rw [stateful_bind_apply]
  rcases r s with ⟨_ | _, _⟩ <;> rfl

@[simp] theorem ends_ofExcept {r : Except Error α} :
    Ends (ofExcept r) s Q E ↔ Dalvik.Ends r (fun v => Q v s) (fun e => E e s) := by
  cases r <;> rfl

@[simp] theorem ends_onHeap {f : Heap → α × Heap} :
    Ends (onHeap f) s Q E ↔ Q (f s.heap).1 { s with heap := (f s.heap).2 } := Iff.rfl

theorem ends_onHeap? {f : Heap → Except Error (α × Heap)} :
    Ends (onHeap? f) s Q E ↔
      Dalvik.Ends (f s.heap) (fun p => Q p.1 { s with heap := p.2 }) (fun e => E e s) := by
  unfold Ends onHeap?
  cases f s.heap <;> rfl

@[simp] theorem ends_budget {Q : Nat → Supply → Prop} : Ends budget s Q E ↔ Q s.budget s := Iff.rfl

@[simp] theorem ends_charge {Q : Unit → Supply → Prop} :
    Ends charge s Q E ↔ Q () { s with budget := s.budget - 1 } := Iff.rfl

theorem ends_attempt {r : Run α} {Q : Except Error α → Supply → Prop} :
    Ends (attempt r) s Q E ↔ Ends r s (fun v => Q (.ok v)) (fun e => Q (.error e)) := by
  unfold Ends attempt
  rcases r s with ⟨_ | _, _⟩ <;> rfl

theorem Ends.imp {r : Run α} {Q' : α → Supply → Prop} {E' : Error → Supply → Prop}
    (h : Ends r s Q E) (hResult : ∀ v t, Q v t → Q' v t) (hError : ∀ e t, E e t → E' e t) :
    Ends r s Q' E' := by
  revert h
  unfold Ends
  rcases r s with ⟨_ | _, _⟩
  · exact hError _ _
  · exact hResult _ _

/-- A computation ends with what it gives. -/
theorem Ends.noting {r : Run α} (h : Ends r s Q E) :
    Ends r s (fun v t => r s = (.ok v, t) ∧ Q v t) E := by
  revert h
  unfold Ends
  rcases r s with ⟨_ | _, _⟩
  · exact id
  · exact fun h => ⟨rfl, h⟩

theorem ends_of_forall {r : Run α} (hResult : ∀ v t, Q v t) (hError : ∀ e t, E e t) :
    Ends r s Q E := by
  unfold Ends
  rcases r s with ⟨_ | _, _⟩
  · exact hError _ _
  · exact hResult _ _

end Run

end Dalvik
