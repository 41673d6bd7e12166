import Dalvik.Proofs.Bonds
import Dalvik.Proofs.Step

/-!
States of one run that stand for states of another, and computations that keep them so. What succeeds in
the second run does so in the first, unless that is loose.
-/

namespace Dalvik

open Value (Stands)

/-- A computation follows another one: if that succeeds it does, too, unless the run is loose, with a
result that is related. -/
def Tracks {α β : Type} (Λ : Links) (r : Except Error α) (q : Except Error β)
    (Q : α → β → Prop) : Prop :=
  ∀ v, q = .ok v → Ends r (fun w => Q w v) fun _ => Λ.loose

section

variable {α β γ δ : Type} {Λ : Links} {r : Except Error α} {q : Except Error β}

theorem tracks_pure {w : α} {v : β} {Q : α → β → Prop} (h : Q w v) :
    Tracks Λ (pure w) (pure v) Q := by
  rintro _ ⟨⟩
  exact h

theorem Tracks.imp {Q Q' : α → β → Prop} (h : Tracks Λ r q Q) (hImp : ∀ w v, Q w v → Q' w v) :
    Tracks Λ r q Q' := fun v hv => (h v hv).imp (fun w hw => hImp w v hw) fun _ he => he

/-- Results keep where they come from. -/
theorem Tracks.noting {Q : α → β → Prop} (h : Tracks Λ r q Q) :
    Tracks Λ r q fun w v => Q w v ∧ r = .ok w ∧ q = .ok v := by
  intro v hv
  have hBoth := h v hv
  cases r with
  | ok w => exact ⟨hBoth, rfl, hv⟩
  | error e => exact hBoth

theorem Tracks.bind {f : α → Except Error γ} {g : β → Except Error δ} {P : α → β → Prop}
    {Q : γ → δ → Prop} (h : Tracks Λ r q P) (hNext : ∀ w v, P w v → Tracks Λ (f w) (g v) Q) :
    Tracks Λ (r >>= f) (q >>= g) Q := by
  intro u hu
  obtain ⟨v, hv, hRest⟩ := except_bind_eq_ok.mp hu
  rw [ends_bind]
  exact (h v hv).imp (fun w hw => hNext w v hw u hRest) fun _ he => he

/-- In a loose run the first part of a computation may be one of its own. -/
theorem Tracks.bind_first {r : Except Error γ} {f : γ → Except Error α} {Q : α → β → Prop}
    (hl : Λ.loose) (hNext : ∀ u, r = .ok u → Tracks Λ (f u) q Q) : Tracks Λ (r >>= f) q Q := by
  intro v hv
  rw [ends_bind]
  cases r with
  | ok u => exact hNext u rfl v hv
  | error e => exact hl

theorem Tracks.map {f : α → γ} {g : β → δ} {Q : γ → δ → Prop}
    (h : Tracks Λ r q fun w v => Q (f w) (g v)) : Tracks Λ (r.map f) (q.map g) Q := by
  intro u hu
  cases q with
  | error e => cases hu
  | ok v =>
      obtain rfl := Except.ok.inj hu
      rw [ends_map]
      exact h v rfl

end

namespace Run

/-- A computation on one heap follows one on another: what has been linked stays so. -/
def Tracks {α β : Type} (Λ : Links) (r : Run α) (q : Run β) (s t : Supply)
    (Q : Links → α → β → Prop) : Prop :=
  ∀ v t', q t = (.ok v, t') →
    Run.Ends r s (fun w s' => ∃ Λ', Λ.Advances s.heap t.heap Λ' s'.heap t'.heap ∧ Q Λ' w v)
      fun _ _ => Λ.loose

variable {α β γ δ : Type} {Λ : Links} {s t : Supply} {r : Run α} {q : Run β}
  {Q : Links → α → β → Prop}

theorem bind_eq_ok {k : β → Run γ} {u : γ} {t' : Supply} (h : (q >>= k) t = (.ok u, t')) :
    ∃ v t₁, q t = (.ok v, t₁) ∧ k v t₁ = (.ok u, t') := by
  rw [stateful_bind_apply] at h
  cases hq : q t with
  | mk result t₁ =>
      rw [hq] at h
      cases result with
      | error e => cases h
      | ok v => exact ⟨v, t₁, rfl, h⟩

theorem onHeap?_eq_ok {g : Heap → Except Error (β × Heap)} {v : β} {t' : Supply}
    (h : onHeap? g t = (.ok v, t')) : ∃ p, g t.heap = .ok p ∧ p.1 = v ∧ t'.heap = p.2 := by
  unfold onHeap? at h
  cases hg : g t.heap with
  | error e =>
      rw [hg] at h
      cases h
  | ok p =>
      rw [hg] at h
      cases h
      exact ⟨p, rfl, rfl, rfl⟩

theorem tracks_ofExcept {r : Except Error α} {q : Except Error β} (hBond : Λ.Bond s.heap t.heap)
    (h : Dalvik.Tracks Λ r q (Q Λ)) : Tracks Λ (ofExcept r) (ofExcept q) s t Q := by
  intro v t' hq
  obtain ⟨hv, rfl⟩ := Prod.mk.inj hq
  rw [ends_ofExcept]
  exact (h v hv).imp (fun w hw => ⟨Λ, .refl hBond, hw⟩) fun _ he => he

theorem tracks_pure (hBond : Λ.Bond s.heap t.heap) {w : α} {v : β} (h : Q Λ w v) :
    Tracks Λ (pure w) (pure v) s t Q := tracks_ofExcept hBond (Dalvik.tracks_pure h)

/-- Results of the second run keep what is known of them. -/
theorem Tracks.noting {P : β → Supply → Prop} {E : Error → Supply → Prop} (h : Tracks Λ r q s t Q)
    (hq : Run.Ends q t P E) : Tracks Λ r q s t fun Λ' w v => Q Λ' w v ∧ ∃ u, P v u := by
  intro v t' hRun
  have hNoted : P v t' := by
    unfold Run.Ends at hq
    rwa [hRun] at hq
  exact (h v t' hRun).imp (fun _ _ ⟨Λ', hΛ, hw⟩ => ⟨Λ', hΛ, hw, t', hNoted⟩) fun _ _ he => he

theorem Tracks.bind {f : α → Run γ} {g : β → Run δ} {P : Links → α → β → Prop}
    {Q : Links → γ → δ → Prop} (h : Tracks Λ r q s t P)
    (hNext : ∀ Λ' s' t' w v, Λ.Advances s.heap t.heap Λ' s'.heap t'.heap → P Λ' w v →
      Tracks Λ' (f w) (g v) s' t' Q) : Tracks Λ (r >>= f) (q >>= g) s t Q := by
  intro u t' hu
  obtain ⟨v, t₁, hq, hRest⟩ := bind_eq_ok hu
  rw [ends_bind]
  refine (h v t₁ hq).imp (fun w s₁ ⟨Λ₁, hΛ₁, hw⟩ => ?_) fun _ _ he => he
  exact (hNext Λ₁ s₁ t₁ w v hΛ₁ hw u t' hRest).imp
    (fun _ _ ⟨Λ₂, hΛ₂, hu⟩ => ⟨Λ₂, hΛ₁.trans hΛ₂, hu⟩) fun _ _ hl => hΛ₁.grows.loose.mp hl

/-- What does not touch the heaps leaves the links as they are. -/
theorem tracks_ofExcept_bind {r : Except Error γ} {q : Except Error δ} {f : γ → Run α}
    {g : δ → Run β} {P : γ → δ → Prop} (h : Dalvik.Tracks Λ r q P)
    (hNext : ∀ w v, P w v → Tracks Λ (f w) (g v) s t Q) :
    Tracks Λ (ofExcept r >>= f) (ofExcept q >>= g) s t Q := by
  intro u t' hu
  obtain ⟨v, t₁, hq, hRest⟩ := bind_eq_ok hu
  obtain ⟨hv, rfl⟩ := Prod.mk.inj hq
  rw [ends_bind, ends_ofExcept]
  exact (h v hv).imp (fun w hw => hNext w v hw u t' hRest) fun _ he => he

theorem ofExcept_bind (r : Except Error α) (f : α → Except Error β) :
    ofExcept (r >>= f) = ofExcept r >>= fun v => ofExcept (f v) := by
  funext s
  rw [stateful_bind_apply]
  cases r <;> rfl

/-- Both runs draw on their heaps. -/
theorem tracks_onHeap {f : Heap → α × Heap} {g : Heap → β × Heap}
    (h : ∃ Λ', Λ.Advances s.heap t.heap Λ' (f s.heap).2 (g t.heap).2 ∧ Q Λ' (f s.heap).1 (g t.heap).1) :
    Tracks Λ (onHeap f) (onHeap g) s t Q := by
  intro v t' hq
  cases hq
  exact h

theorem tracks_onHeap? {f : Heap → Except Error (α × Heap)} {g : Heap → Except Error (β × Heap)}
    (h : Dalvik.Tracks Λ (f s.heap) (g t.heap) fun p q =>
      ∃ Λ', Λ.Advances s.heap t.heap Λ' p.2 q.2 ∧ Q Λ' p.1 q.1) :
    Tracks Λ (onHeap? f) (onHeap? g) s t Q := by
  intro v t' hq
  obtain ⟨p, hg, rfl, hHeap⟩ := onHeap?_eq_ok hq
  rw [ends_onHeap?, hHeap]
  exact h p hg

/-- The second run draws on its heap by itself. -/
theorem tracks_onHeap_second {g : Heap → γ × Heap} {k : γ → Run β} (hBond : Λ.Bond s.heap t.heap)
    (hGrows : t.heap.Grows (g t.heap).2)
    (h : Tracks (Λ.raise s.heap.next) r (k (g t.heap).1) s { t with heap := (g t.heap).2 } Q) :
    Tracks Λ r (onHeap g >>= k) s t Q := by
  intro v t' hq
  exact (h v t' hq).imp
    (fun _ _ ⟨Λ', hΛ', hw⟩ => ⟨Λ', (hBond.advances (.refl _) hGrows).trans hΛ', hw⟩) fun _ _ he => he

/-- The first run draws on its heap by itself. -/
theorem tracks_onHeap_first {f : Heap → γ × Heap} {k : γ → Run α} (hBond : Λ.Bond s.heap t.heap)
    (hGrows : s.heap.Grows (f s.heap).2)
    (h : Tracks (Λ.raise (f s.heap).2.next) (k (f s.heap).1) q { s with heap := (f s.heap).2 } t Q) :
    Tracks Λ (onHeap f >>= k) q s t Q := by
  intro v t' hq
  exact (h v t' hq).imp
    (fun _ _ ⟨Λ', hΛ', hw⟩ => ⟨Λ', (hBond.advances hGrows (.refl _)).trans hΛ', hw⟩) fun _ _ he => he

end Run

/-- The registers of a state stand for those of another one. -/
structure State.Stands (Λ : Links) (s t : State) : Prop where
  shape : s.SameShape t
  registers : List.Forall₂ (Option.Rel (Value.Stands Λ)) s.registers t.registers

/-- Besides the registers, what passes from one instruction to the next stands for what does there. -/
structure State.Follows (Λ : Links) (s t : State) : Prop where
  stands : s.Stands Λ t
  result : Value.Stands Λ (s.result.getD (.unknown .object)) (t.result.getD (.unknown .object))
  exception : Value.Stands Λ (s.exception.getD (.unknown .throwable))
    (t.exception.getD (.unknown .throwable))

/-- Two states in which nothing passes to the next instruction. -/
structure State.Rests (Λ : Links) (s t : State) : Prop where
  stands : s.Stands Λ t
  first : s.result = none ∧ s.exception = none
  second : t.result = none ∧ t.exception = none

/-- Whatever atom a register of the second state holds is in the same register of the first. -/
def State.Shows (s t : State) : Prop :=
  ∀ r v, v.isAtom = true → t.peek? r = some v → s.peek? r = some v

namespace State

variable {Λ Λ' : Links} {s t s' t' : State} {w v : Value}

theorem Stands.grow (h : s.Stands Λ t) (hΛ : Λ.Grows Λ') : s.Stands Λ' t :=
  ⟨h.shape, h.registers.imp fun _ _ hRel => by
    cases hRel with
    | none => exact .none
    | some hStands => exact .some (hStands.grow hΛ)⟩

theorem Rests.grow (h : s.Rests Λ t) (hΛ : Λ.Grows Λ') : s.Rests Λ' t :=
  ⟨h.stands.grow hΛ, h.first, h.second⟩

/-- What passes to the next instruction has no part in the registers. -/
theorem Stands.pass (h : s.Stands Λ t) (x y x' y' : Option Value) :
    ({ s with result := x, exception := y } : State).Stands Λ
      { t with result := x', exception := y' } :=
  ⟨⟨h.shape.locals, h.shape.params⟩, h.registers⟩

theorem Rests.follows (h : s.Rests Λ t) : s.Follows Λ t := by
  refine ⟨h.stands, ?_, ?_⟩
  · rw [h.first.1, h.second.1]
    exact .unknown _
  · rw [h.first.2, h.second.2]
    exact .unknown _

theorem Stands.getElem? (h : s.Stands Λ t) (r : Register) :
    Option.Rel (Option.Rel (Value.Stands Λ)) s.registers[r]? t.registers[r]? := by
  obtain ⟨hLength, hAll⟩ := List.forall₂_iff_get.mp h.registers
  by_cases hr : r < t.registers.length
  · rw [List.getElem?_eq_getElem hr, List.getElem?_eq_getElem (hLength ▸ hr)]
    exact .some (hAll r (hLength ▸ hr) hr)
  · rw [List.getElem?_eq_none (Nat.le_of_not_lt hr),
      List.getElem?_eq_none (hLength ▸ Nat.le_of_not_lt hr)]
    exact .none

theorem Stands.peek? (h : s.Stands Λ t) (r : Register) :
    Option.Rel (Value.Stands Λ) (s.peek? r) (t.peek? r) := by
  have hRegister := h.getElem? r
  unfold State.peek?
  generalize s.registers[r]? = x, t.registers[r]? = y at hRegister
  cases hRegister with
  | none => exact .none
  | some hRel => exact hRel

theorem Stands.shows (h : s.Stands Λ t) : s.Shows t := by
  intro r v hv hPeek
  have hRel := h.peek? r
  rw [hPeek] at hRel
  cases hRegister : s.peek? r with
  | none =>
      rw [hRegister] at hRel
      cases hRel
  | some w =>
      rw [hRegister] at hRel
      cases hRel with
      | some hStands =>
          cases hStands <;> first | rfl | cases hv

theorem Stands.read (h : s.Stands Λ t) (r : Register) :
    Tracks Λ (s.read r) (t.read r) (Value.Stands Λ) := by
  intro v hv
  have hRegister := h.getElem? r
  unfold State.read at hv ⊢
  rw [h.shape.registerCount]
  generalize s.registers[r]? = x, t.registers[r]? = y at hRegister hv
  cases hRegister with
  | none => cases hv
  | some hRel =>
      obtain rfl := Except.ok.inj hv
      cases hRel with
      | none => exact .unknown _
      | some hStands => exact hStands

theorem registers_assign {r : Register} (h : s.assign r v = .ok s') :
    s'.registers = s.registers.set r (some v) ∧ s'.result = s.result ∧
      s'.exception = s.exception := by
  unfold assign at h
  unfold registers
  split at h
  · rename_i hLocal
    obtain rfl := Except.ok.inj h
    exact ⟨(List.set_append_left _ _ hLocal).symm, rfl, rfl⟩
  · rename_i hLocal
    split at h
    · obtain rfl := Except.ok.inj h
      exact ⟨(List.set_append_right _ _ (Nat.le_of_not_lt hLocal)).symm, rfl, rfl⟩
    · cases h

theorem forall₂_set {α β : Type} {R : α → β → Prop} {as : List α} {bs : List β}
    (h : List.Forall₂ R as bs) {a : α} {b : β} (hab : R a b) (n : Nat) :
    List.Forall₂ R (as.set n a) (bs.set n b) := by
  induction h generalizing n with
  | nil => exact .nil
  | cons hHead hTail ih =>
      cases n with
      | zero => exact .cons hab hTail
      | succ n => exact .cons hHead (ih n)

/-- The same register is assigned in both states, or in neither. -/
theorem Stands.assign (h : s.Stands Λ t) (hv : Value.Stands Λ w v) (r : Register) :
    Tracks Λ (s.assign r w) (t.assign r v) fun s' t' =>
      s'.Stands Λ t' ∧ (s'.result = s.result ∧ s'.exception = s.exception) ∧
        t'.result = t.result ∧ t'.exception = t.exception := by
  intro t' ht
  have hExists : ∃ s', s.assign r w = .ok s' := by
    unfold State.assign at ht ⊢
    rw [h.shape.locals, h.shape.registerCount]
    split at ht
    · rename_i hLocal
      exact ⟨_, if_pos hLocal⟩
    · rename_i hLocal
      split at ht
      · rename_i hBound
        exact ⟨_, by rw [if_neg hLocal, if_pos hBound]⟩
      · cases ht
  obtain ⟨s', hs⟩ := hExists
  rw [hs]
  obtain ⟨hFirst, hKeepsFirst⟩ := registers_assign hs
  obtain ⟨hSecond, hKeepsSecond⟩ := registers_assign ht
  have hShapeFirst := ((SameShape.refl s).ends_assign r w).of_eq_ok hs
  have hShapeSecond := ((SameShape.refl t).ends_assign r v).of_eq_ok ht
  refine ⟨⟨⟨?_, ?_⟩, ?_⟩, hKeepsFirst, hKeepsSecond⟩
  · exact hShapeFirst.locals.trans (h.shape.locals.trans hShapeSecond.locals.symm)
  · exact hShapeFirst.params.trans (h.shape.params.trans hShapeSecond.params.symm)
  · rw [hFirst, hSecond]
    exact forall₂_set h.registers (.some hv) r

theorem Rests.assign (h : s.Rests Λ t) (hv : Value.Stands Λ w v) (r : Register) :
    Tracks Λ (s.assign r w) (t.assign r v) (Rests Λ) :=
  (h.stands.assign hv r).imp fun _ _ ⟨hStands, hFirst, hSecond⟩ =>
    ⟨hStands, ⟨hFirst.1.trans h.first.1, hFirst.2.trans h.first.2⟩,
      ⟨hSecond.1.trans h.second.1, hSecond.2.trans h.second.2⟩⟩

theorem peek?_of_read {r : Register} (h : s.read r = .ok w) (hw : w.isKnown = true) :
    s.peek? r = some w := by
  obtain ⟨_, hRead⟩ := (read_eq_ok_iff s r w).mp h
  cases hPeek : s.peek? r with
  | none =>
      rw [hPeek] at hRead
      rw [← hRead] at hw
      cases hw
  | some u =>
      rw [hPeek] at hRead
      exact congrArg some hRead

/-- What a register of the first state holds may stand for what is assigned in the second. -/
theorem Rests.assign_second (h : s.Rests Λ t) {r : Register} (hPeek : s.peek? r = some w)
    (hv : Value.Stands Λ w v) (ht : t.assign r v = .ok t') : s.Rests Λ t' := by
  obtain ⟨hRegisters, hKeeps⟩ := registers_assign ht
  have hShape := ((SameShape.refl t).ends_assign r v).of_eq_ok ht
  refine ⟨⟨⟨?_, ?_⟩, ?_⟩, h.first, hKeeps.1.trans h.second.1, hKeeps.2.trans h.second.2⟩
  · exact h.stands.shape.locals.trans hShape.locals.symm
  · exact h.stands.shape.params.trans hShape.params.symm
  · have hSame : s.registers.set r (some w) = s.registers := by
      unfold State.peek? at hPeek
      refine List.ext_getElem? fun n => ?_
      rw [List.getElem?_set]
      split
      · rename_i hHere
        subst hHere
        cases hRegister : s.registers[r]? with
        | none =>
            rw [hRegister] at hPeek
            cases hPeek
        | some u =>
            rw [hRegister] at hPeek
            have hBound := (List.getElem?_eq_some_iff.mp hRegister).1
            rw [if_pos hBound, show u = some w from hPeek]
      · rfl
    rw [hRegisters, ← hSame]
    exact forall₂_set h.stands.registers (.some hv) r

theorem peek?_assign {r : Register} (h : t.assign r v = .ok t') (q : Register) :
    t'.peek? q = if q = r then some v else t.peek? q := by
  have hBound : r < t.registers.length := by
    rw [length_registers]
    unfold assign at h
    split at h
    · rename_i hLocal
      exact Nat.lt_of_lt_of_le hLocal (Nat.le_add_right _ _)
    · split at h
      · assumption
      · cases h
  unfold State.peek?
  rw [(registers_assign h).1, List.getElem?_set]
  by_cases hq : q = r
  · subst hq
    simp [hBound]
  · simp [hq, Ne.symm hq]

/-- An assignment that the first state lacks is of no atom. -/
theorem Shows.of_assign (h : s.Shows t) {r : Register} (hv : v.isAtom = false)
    (ht : t.assign r v = .ok t') : s.Shows t' := by
  intro q u hu hPeek
  rw [peek?_assign ht] at hPeek
  split at hPeek
  · obtain rfl := Option.some.inj hPeek
    rw [hv] at hu
    cases hu
  · exact h q u hu hPeek

theorem mem_ids_of_id? {i : Nat} (h : w.id? = some i) : i ∈ w.ids := by
  cases w with
  | array id d n es => cases es <;> (obtain rfl := Option.some.inj h; simp [Value.ids])
  | string id _ | boxed id _ _ | method id _ _ | object id _ =>
      obtain rfl := Option.some.inj h
      simp [Value.ids]
  | _ => cases h

/-- What has an instance stands for what has the linked one. -/
theorem id?_cases (h : Value.Stands Λ w v) :
    (v.id? = none ∧ (w.id? = none ∨ Λ.loose ∧ w.Hidden Λ)) ∨
      ∃ i j, w.id? = some i ∧ v.id? = some j ∧ Λ.same i j := by
  cases h with
  | unknown d => exact .inl ⟨rfl, .inl rfl⟩
  | hidden d hl hw => exact .inl ⟨rfl, .inr ⟨hl, hw⟩⟩
  | null d e => exact .inl ⟨rfl, .inl rfl⟩
  | atom h => cases w <;> first | exact .inl ⟨rfl, .inl rfl⟩ | cases h
  | string s hLink => exact .inr ⟨_, _, rfl, rfl, hLink.1⟩
  | boxed d hLink _ _ => exact .inr ⟨_, _, rfl, rfl, hLink.1⟩
  | method d m hLink => exact .inr ⟨_, _, rfl, rfl, hLink.1⟩
  | object d hLink => exact .inr ⟨_, _, rfl, rfl, hLink.1⟩
  | array d n hLink _ _ => exact .inr ⟨_, _, rfl, rfl, hLink.1⟩
  | untracked d n hLink => exact .inr ⟨_, _, rfl, rfl, hLink.1⟩
  | tracked d m n hLink _ _ _ => exact .inr ⟨_, _, rfl, rfl, hLink.1⟩

variable {i j : Nat}

/-- Linked instances are replaced together. -/
theorem stands_replaceInstance (hΛ : Λ.Injective) (hLink : Λ.Changes i j) (hNew : Value.Stands Λ w v)
    {w' v' : Value} (h : Value.Stands Λ w' v') :
    Value.Stands Λ (replaceInstance i w w') (replaceInstance j v v') := by
  unfold replaceInstance
  rcases id?_cases h with ⟨hSecond, hFirst⟩ | ⟨a, b, hFirst, hSecond, hSame⟩
  · have hOther : w'.id? ≠ some i := by
      rcases hFirst with hNone | ⟨hl, hHidden⟩
      · simp [hNone]
      · exact fun hId => (hHidden.free i (mem_ids_of_id? hId)).2 (hLink.2 hl)
    rw [if_neg hOther, if_neg (by simp [hSecond])]
    exact h
  · rw [hFirst, hSecond]
    have hIff := hΛ.eq_iff hSame hLink.1
    by_cases hHere : a = i
    · rw [if_pos (by rw [hHere]), if_pos (by rw [hIff.mp hHere])]
      exact hNew
    · rw [if_neg (by simpa using hHere), if_neg (by simpa using fun hb => hHere (hIff.mpr hb))]
      exact h

/-- What stands for nothing is replaced behind unknown values only. -/
theorem stands_replaceInstance_first (hl : Λ.loose) (hLone : ∀ j, ¬ Λ.same i j) (hNew : w.Hidden Λ)
    {w' v' : Value} (h : Value.Stands Λ w' v') : Value.Stands Λ (replaceInstance i w w') v' := by
  unfold replaceInstance
  by_cases hHere : w'.id? = some i
  · rw [if_pos hHere]
    rcases h.known_or with hv | ⟨d, rfl, _⟩
    · rcases id?_cases h with ⟨_, hFirst⟩ | ⟨a, b, hFirst, _, hSame⟩
      · cases h with
        | unknown d => cases hv
        | hidden d _ _ => cases hv
        | null d e => cases hHere
        | atom h => cases w' <;> first | (cases h; done) | cases hHere
        | string s hLink => cases hHere; exact absurd hLink.1 (hLone _)
        | boxed d hLink _ _ => cases hHere; exact absurd hLink.1 (hLone _)
        | method d m hLink => cases hHere; exact absurd hLink.1 (hLone _)
        | object d hLink => cases hHere; exact absurd hLink.1 (hLone _)
        | array d n hLink _ _ => cases hHere; exact absurd hLink.1 (hLone _)
        | untracked d n hLink => cases hHere; exact absurd hLink.1 (hLone _)
        | tracked d m n hLink _ _ _ => cases hHere; exact absurd hLink.1 (hLone _)
      · rw [hHere] at hFirst
        obtain rfl := Option.some.inj hFirst
        exact absurd hSame (hLone b)
    · exact .hidden d hl hNew
  · rwa [if_neg hHere]

theorem registers_updateInstance (s : State) (id : Nat) (v : Value) :
    (s.updateInstance id v).registers = s.registers.map (Option.map (replaceInstance id v)) := by
  simp [registers, updateInstance]

theorem Stands.updateInstance (h : s.Stands Λ t) (hΛ : Λ.Injective) (hLink : Λ.Changes i j)
    (hNew : Value.Stands Λ w v) : (s.updateInstance i w).Stands Λ (t.updateInstance j v) := by
  refine ⟨⟨?_, ?_⟩, ?_⟩
  · simpa [State.updateInstance] using h.shape.locals
  · simpa [State.updateInstance] using h.shape.params
  · rw [registers_updateInstance, registers_updateInstance, List.forall₂_map_left_iff,
      List.forall₂_map_right_iff]
    refine h.registers.imp fun x y hRel => ?_
    cases hRel with
    | none => exact .none
    | some hStands => exact .some (stands_replaceInstance hΛ hLink hNew hStands)

theorem Stands.updateInstance_first (h : s.Stands Λ t) (hl : Λ.loose) (hLone : ∀ j, ¬ Λ.same i j)
    (hNew : w.Hidden Λ) : (s.updateInstance i w).Stands Λ t := by
  refine ⟨⟨?_, ?_⟩, ?_⟩
  · simpa [State.updateInstance] using h.shape.locals
  · simpa [State.updateInstance] using h.shape.params
  · rw [registers_updateInstance, List.forall₂_map_left_iff]
    refine h.registers.imp fun x y hRel => ?_
    cases hRel with
    | none => exact .none
    | some hStands => exact .some (stands_replaceInstance_first hl hLone hNew hStands)

theorem Rests.updateInstance (h : s.Rests Λ t) (hΛ : Λ.Injective) (hLink : Λ.Changes i j)
    (hNew : Value.Stands Λ w v) : (s.updateInstance i w).Rests Λ (t.updateInstance j v) :=
  ⟨h.stands.updateInstance hΛ hLink hNew, ⟨by simp [State.updateInstance, h.first.1], h.first.2⟩,
    ⟨by simp [State.updateInstance, h.second.1], h.second.2⟩⟩

theorem Rests.updateInstance_first (h : s.Rests Λ t) (hl : Λ.loose) (hLone : ∀ j, ¬ Λ.same i j)
    (hNew : w.Hidden Λ) : (s.updateInstance i w).Rests Λ t :=
  ⟨h.stands.updateInstance_first hl hLone hNew,
    ⟨by simp [State.updateInstance, h.first.1], h.first.2⟩, h.second⟩

theorem peek?_updateInstance (t : State) (id : Nat) (v : Value) (r : Register) :
    (t.updateInstance id v).peek? r = (t.peek? r).map (replaceInstance id v) := by
  unfold State.peek?
  rw [registers_updateInstance, List.getElem?_map]
  cases t.registers[r]? <;> simp

theorem Shows.updateInstance (h : s.Shows t) {id : Nat} (hv : v.isAtom = false) :
    s.Shows (t.updateInstance id v) := by
  intro r u hu hPeek
  rw [peek?_updateInstance] at hPeek
  obtain ⟨x, hx, hSame⟩ := Option.map_eq_some_iff.mp hPeek
  unfold replaceInstance at hSame
  split at hSame
  · subst hSame
    rw [hv] at hu
    cases hu
  · subst hSame
    exact h r x hu hx

end State

end Dalvik
