import Dalvik.Exploration
import Dalvik.Proofs.Routing

/-!
Which handlers an exception enters. Control gets to the place of every handler that the exception may
get as far as; with the exception it gets there unless it has reached the place before.
-/

namespace Dalvik

/-- An instruction raises an exception for certain, or may raise it. -/
def Outcome.MayRaise (o : Outcome) (x : Value) : Prop := o.flow = .raise x ∨ o.hazard = some x

namespace Handler

variable {h : Handler} {hs before : List Handler} {x v : Value}

/-- It is certain that a handler catches an exception. -/
def Catches (h : Handler) (x : Value) : Prop := Classes.catches? h.type x.descriptor = some true

/-- It is not certain that a handler lets an exception pass. -/
def MayCatch (h : Handler) (x : Value) : Prop := Classes.catches? h.type x.descriptor ≠ some false

instance : Decidable (h.MayCatch x) := inferInstanceAs (Decidable (_ ≠ _))

/-- An exception may get as far as a handler that stands after some others, and be caught by it. -/
structure Meets (h : Handler) (hs before : List Handler) (x : Value) : Prop where
  stands : before ++ [h] <+: hs
  passed : ∀ g ∈ before, ¬ g.Catches x
  mayCatch : h.MayCatch x

/-- What a handler is entered with. An exception that is known is passed on as it is, and so is any that
the handler certainly catches; of any other nothing is known but the type that is declared. -/
structure Receives (h : Handler) (x v : Value) : Prop where
  same : h.Catches x ∨ x.isKnown = true → v = x
  declared : ¬ h.Catches x → x.isKnown = false → ∃ d, h.type = some d ∧ v = .unknown d

theorem receives_caught {certain : Bool} (hCertain : certain = true ↔ h.Catches x) :
    h.Receives x (Semantics.Context.caught h x certain) := by
  constructor
  · rintro (hCatches | hKnown)
    · obtain rfl := hCertain.mpr hCatches
      cases x <;> rfl
    · cases x <;> first | rfl | cases hKnown
  · intro hNot hUnknown
    obtain rfl : certain = false := by
      cases certain with
      | false => rfl
      | true => exact absurd (hCertain.mp rfl) hNot
    obtain ⟨d, hType⟩ : ∃ d, h.type = some d := by
      cases hType : h.type with
      | none => exact absurd (by rw [Catches, hType]; rfl) hNot
      | some d => exact ⟨d, rfl⟩
    refine ⟨d, hType, ?_⟩
    cases x with
    | unknown thrown => simp [Semantics.Context.caught, hType]
    | _ => cases hUnknown

end Handler

namespace Semantics.Context

variable {h : Handler} {hs before : List Handler} {x : Value} {A ps : List (Address × State)}

/-- Among the handlers that are entered stands every one that the exception may get as far as, after some
of those before it. -/
theorem entries_of_meets (hMeets : h.Meets hs before x) :
    ∃ v front rest, entries x hs = front ++ (h.target, v) :: rest ∧ h.Receives x v ∧
      ∀ q ∈ front, ∃ g ∈ before, g.MayCatch x ∧ q.1 = g.target := by
  obtain ⟨⟨after, rfl⟩, hPassed, hMay⟩ := hMeets
  induction before with
  | nil =>
      change ∃ v front rest, entries x (h :: after) = _ ∧ _
      rw [entries_cons]
      cases hCatches : Classes.catches? h.type x.descriptor with
      | none =>
          refine ⟨_, [], _, rfl, Handler.receives_caught ?_, by simp⟩
          simp [Handler.Catches, hCatches]
      | some certain =>
          cases certain with
          | false => exact absurd hCatches hMay
          | true =>
              refine ⟨_, [], [], rfl, Handler.receives_caught ?_, by simp⟩
              simp [Handler.Catches, hCatches]
  | cons g before ih =>
      obtain ⟨v, front, rest, hEntries, hReceives, hFront⟩ :=
        ih fun g' hg' => hPassed g' (.tail _ hg')
      have hLater : ∀ q ∈ front, ∃ g' ∈ g :: before, g'.MayCatch x ∧ q.1 = g'.target := by
        intro q hq
        obtain ⟨g', hg', hCaught⟩ := hFront q hq
        exact ⟨g', .tail _ hg', hCaught⟩
      change ∃ v front rest, entries x (g :: (before ++ [h] ++ after)) = _ ∧ _
      rw [entries_cons, hEntries]
      cases hCatches : Classes.catches? g.type x.descriptor with
      | none =>
          refine ⟨v, (g.target, caught g x false) :: front, rest, rfl, hReceives, fun q hq => ?_⟩
          rcases List.mem_cons.mp hq with rfl | hq
          · exact ⟨g, .head _, by simp [Handler.MayCatch, hCatches], rfl⟩
          · exact hLater q hq
      | some certain =>
          cases certain with
          | false => exact ⟨v, front, rest, rfl, hReceives, hLater⟩
          | true => exact absurd hCatches (hPassed g (.head _))

/-- What is added for a place that control has not reached stays as it is. -/
theorem mem_addAll_of_first {front rest : List (Address × State)} {p : Address × State}
    (hA : ∀ q ∈ A, q.1 ≠ p.1) (hFront : ∀ q ∈ front, q.1 ≠ p.1) :
    p ∈ addAll A (front ++ p :: rest) := by
  induction front generalizing A with
  | nil =>
      refine subset_addAll (addSuccessor A p.1 p.2) rest ?_
      unfold addSuccessor
      rw [if_neg]
      · simp
      · intro hAny
        obtain ⟨q, hq, hHere⟩ := List.any_eq_true.mp hAny
        exact hA q hq (by simpa using hHere)
  | cons q front ih =>
      refine ih (A := addSuccessor A q.1 q.2) (fun r hr => ?_) fun r hr => hFront r (.tail _ hr)
      rcases mem_addSuccessor hr with hOld | rfl
      · exact hA r hOld
      · exact hFront q (.head _)

variable {c : Context} {a : Address} {i : Instruction Address} {pre : State} {s t : Supply} {o : Outcome}

/-- What control reaches by routing an exception besides what it reaches already. -/
structure RoutesTo (pre : State) (x : Value) (before : List Handler) (h : Handler)
    (A successors : List (Address × State)) : Prop where
  reaches : ∃ p ∈ successors, p.1 = h.target
  enters : (∀ p ∈ A, p.1 ≠ h.target) → (∀ g ∈ before, g.MayCatch x → g.target ≠ h.target) →
    ∃ v, h.Receives x v ∧ (h.target, entering pre v) ∈ successors

theorem routesTo_route (hMeets : h.Meets hs before x) :
    RoutesTo pre x before h A (route pre x A hs) := by
  obtain ⟨v, front, rest, hEntries, hReceives, hFront⟩ := entries_of_meets hMeets
  rw [route_eq, hEntries, List.map_append, List.map_cons]
  constructor
  · exact reaches_addAll (q := (h.target, entering pre v)) (by simp)
  · intro hNew hFirst
    refine ⟨v, hReceives, mem_addAll_of_first hNew fun q hq => ?_⟩
    obtain ⟨r, hr, rfl⟩ := List.mem_map.mp hq
    obtain ⟨g, hg, hMay, hPlace⟩ := hFront r hr
    rw [hPlace]
    exact hFirst g hg hMay

/-- More successors are no obstacle. -/
theorem RoutesTo.mono {B C : List (Address × State)} (hRoutes : RoutesTo pre x before h A B)
    (hMore : B ⊆ C) : RoutesTo pre x before h A C := by
  obtain ⟨⟨p, hp, hPlace⟩, hEnters⟩ := hRoutes
  refine ⟨⟨p, hMore hp, hPlace⟩, fun hNew hFirst => ?_⟩
  obtain ⟨v, hReceives, hMem⟩ := hEnters hNew hFirst
  exact ⟨v, hReceives, hMore hMem⟩

/-- The places of a step that may raise an exception besides. -/
theorem subset_raised (hazard : Option Value) :
    A ⊆ match hazard with
      | some y => route pre y A hs
      | none => A := by
  cases hazard with
  | none => exact List.Subset.refl A
  | some y =>
      dsimp only
      rw [route_eq]
      exact subset_addAll A _

theorem apply_of_execute (hi : c.method.code.at? a = some i)
    (hDoes : c.execute a i pre { pre with result := none, exception := none } s = (.ok o, t))
    (hGoes : c.flowSuccessors a pre o.post o.flow = .ok A) :
    c.apply a pre s =
      (.ok ⟨o.post, match o.hazard with
        | some y => route pre y A (c.method.handlersAt a)
        | none => A⟩, t) := by
  rw [apply_eq c pre hi, stateful_bind_apply, hDoes]
  dsimp only [successors]
  rw [hGoes]
  rfl

/-- An instruction that may raise an exception sends control to every handler that the exception may get
as far as. The handler is entered with the exception, unless control gets to its place anyway, or by a
handler before it. -/
theorem apply_enters (hi : c.method.code.at? a = some i)
    (hDoes : c.execute a i pre { pre with result := none, exception := none } s = (.ok o, t))
    (hGoes : c.flowSuccessors a pre o.post o.flow = .ok A) (hRaises : o.MayRaise x)
    (hMeets : h.Meets (c.method.handlersAt a) before x) :
    ∃ step, c.apply a pre s = (.ok step, t) ∧ step.post = o.post ∧
      (∃ p ∈ step.successors, p.1 = h.target) ∧
      ((o.hazard = some x → ∀ p ∈ A, p.1 ≠ h.target) →
        (∀ g ∈ before, g.MayCatch x → g.target ≠ h.target) →
          ∃ v, h.Receives x v ∧ (h.target, entering pre v) ∈ step.successors) := by
  refine ⟨_, apply_of_execute hi hDoes hGoes, rfl, ?_⟩
  rcases hRaises with hFlow | hHazard
  · have hRoutes : RoutesTo pre x before h [] A := by
      rw [hFlow] at hGoes
      cases hGoes
      exact routesTo_route hMeets
    obtain ⟨hReaches, hEnters⟩ := hRoutes.mono (subset_raised o.hazard)
    exact ⟨hReaches, fun _ hFirst => hEnters (by simp) hFirst⟩
  · rw [hHazard]
    obtain ⟨hReaches, hEnters⟩ : RoutesTo pre x before h A (route pre x A (c.method.handlersAt a)) :=
      routesTo_route hMeets
    exact ⟨hReaches, fun hNew => hEnters (hNew rfl)⟩

/-- A method that divides by its argument, with a handler of the exception that this may raise. -/
def dividingMethod (target : Address) : Method where
  reference := ⟨⟨"La;"⟩, "run", [.int], .void⟩
  flags := { static := true }
  locals := 1
  code := [.binary .div .int 0 1 (.register 1), .moveException 0, .returnVoid]
  tries := [⟨0, 2, [⟨some .arithmeticException, target⟩]⟩]

/-- What a step of `dividingMethod` depends on. -/
def dividingContext (target : Address) : Semantics.Context :=
  (⟨.empty, {}⟩ : Machine).context (dividingMethod target) 0

/-- A supply for one step of `dividingMethod`. -/
def dividingSupply : Supply := ⟨.after (Machine.initialState (dividingMethod 0)), 1⟩

/-- What dividing by an argument of which nothing is known does. -/
def dividingOutcome : Outcome :=
  ⟨.next, { Machine.initialState (dividingMethod 0) with locals := [some (.unknown .int)] },
    someException .arithmeticException⟩

theorem apply_enters_dividingMethod :
    ∃ step, (dividingContext 3).apply 0 (Machine.initialState (dividingMethod 3)) dividingSupply =
        (.ok step, dividingSupply) ∧ step.post = dividingOutcome.post ∧
      (∃ p ∈ step.successors, p.1 = 3) ∧
      ((dividingOutcome.hazard = some (.unknown .arithmeticException) →
          ∀ p ∈ [((2 : Address), dividingOutcome.post)], p.1 ≠ 3) →
        (∀ g ∈ ([] : List Handler), g.MayCatch (.unknown .arithmeticException) → g.target ≠ 3) →
          ∃ v, Handler.Receives ⟨some .arithmeticException, 3⟩ (.unknown .arithmeticException) v ∧
            (3, entering (Machine.initialState (dividingMethod 3)) v) ∈ step.successors) :=
  apply_enters (i := .binary .div .int 0 1 (.register 1)) (h := ⟨some .arithmeticException, 3⟩) rfl rfl
    rfl (.inr rfl) ⟨⟨[], rfl⟩, by simp, by decide +kernel⟩

/-- The handler of `dividingMethod 2` is where control goes on. -/
theorem not_enters_of_next :
    ¬ ∀ (m : Machine) (method : Method) (depth : Nat) (a : Address) (i : Instruction Address)
        (pre : State) (s t : Supply) (o : Outcome) (x : Value) (before : List Handler) (h : Handler),
      method.validate = .ok () → method.code.at? a = some i →
        (m.context method depth).execute a i pre { pre with result := none, exception := none } s =
          (.ok o, t) →
        o.MayRaise x → h.Meets (method.handlersAt a) before x →
          ∃ step t', (m.context method depth).apply a pre s = (.ok step, t') ∧
            ∃ v, h.Receives x v ∧ (h.target, entering pre v) ∈ step.successors := by
  intro hAll
  obtain ⟨step, t, hStep, v, _, hMem⟩ := hAll ⟨.empty, {}⟩ (dividingMethod 2) 0 0
    (.binary .div .int 0 1 (.register 1)) (Machine.initialState (dividingMethod 2)) dividingSupply
    dividingSupply dividingOutcome (.unknown .arithmeticException) []
    ⟨some .arithmeticException, 2⟩ rfl rfl rfl (.inr rfl) ⟨⟨[], rfl⟩, by simp, by decide +kernel⟩
  obtain rfl : step = ⟨dividingOutcome.post, [(2, dividingOutcome.post)]⟩ :=
    (Except.ok.inj (Prod.mk.inj hStep).1).symm.trans (by decide +kernel)
  obtain hSame := congrArg (fun p => p.2.exception) (List.mem_singleton.mp hMem)
  cases hSame

end Semantics.Context

end Dalvik
