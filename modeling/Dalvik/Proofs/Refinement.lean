import Dalvik.Proofs.Simulation

/-!
What an execution of which less is known says of one of which more is. The second run starts in a state
with unknown values, the first in one in which they are known.
-/

namespace Dalvik

namespace Value

variable {Λ : Links} {v w : Value}

/-- No instance but the value itself is in it. -/
def Flat (v : Value) : Prop := v.ids = v.id?.toList

theorem eq_unknown_of_isKnown (h : v.isKnown = false) : ∃ d, v = .unknown d := by
  cases v with
  | unknown d => exact ⟨d, rfl⟩
  | _ => cases h

theorem hidden_of_ids (h : v.ids = []) : v.Hidden Λ := by
  cases v with
  | array id d n es => cases es <;> simp [ids] at h
  | string _ _ | boxed _ _ _ | method _ _ _ | object _ _ => simp [ids] at h
  | _ => constructor <;> simp [ids, stores]

theorem stands_of_ids (h : v.ids = []) : Stands Λ v v := by
  cases v with
  | array id d n es => cases es <;> simp [ids] at h
  | string _ _ | boxed _ _ _ | method _ _ _ | object _ _ => simp [ids] at h
  | null d => exact .null d d
  | unknown d => exact .unknown d
  | _ => exact .atom rfl

theorem ids_of_mem {vs : List Value} (h : allIds vs = []) {v : Value} (hv : v ∈ vs) : v.ids = [] := by
  by_contra hSome
  obtain ⟨i, hi⟩ := List.exists_mem_of_ne_nil _ hSome
  have hAll : i ∈ allIds vs := mem_allIds.mpr ⟨v, hv, hi⟩
  rw [h] at hAll
  cases hAll

/-- A value with no other instance in it stands for itself as soon as its instance does. -/
theorem Flat.stands (h : v.Flat) (hFixed : v.stores = [] → ∀ i, v.id? = some i → Λ.Fixed i i)
    (hChanges : v.stores ≠ [] → ∀ i, v.id? = some i → Λ.Changes i i) : Stands Λ v v := by
  unfold Flat at h
  cases v with
  | string i s => exact .string s (hFixed rfl i rfl)
  | boxed i d v =>
      have hNone : v.ids = [] := by simpa [ids, id?] using h
      have hStores : v.stores = [] := by
        by_contra hSome
        obtain ⟨j, hj⟩ := List.exists_mem_of_ne_nil _ hSome
        cases v with
        | array id d n es => cases es <;> simp [ids] at hNone
        | string _ _ | boxed _ _ _ | method _ _ _ | object _ _ => simp [ids] at hNone
        | _ => simp [stores] at hj
      exact .boxed d (hFixed hStores i rfl) (stands_of_ids hNone) fun _ => hidden_of_ids hNone
  | method i d m => exact .method d m (hFixed rfl i rfl)
  | object i d => exact .object d (hChanges (by simp [stores]) i rfl)
  | array i d n es =>
      cases es with
      | none => exact .untracked d n (hChanges (by simp [stores]) i rfl)
      | some vs =>
          have hNone : allIds vs = [] := by simpa [ids, id?] using h
          refine .array d n (hChanges (by simp [stores]) i rfl) ?_ fun _ w hw =>
            hidden_of_ids (ids_of_mem hNone hw)
          exact List.forall₂_same.mpr fun w hw => stands_of_ids (ids_of_mem hNone hw)
  | null d => exact .null d d
  | unknown d => exact .unknown d
  | _ => exact .atom rfl

theorem mem_ids_of_mem_stores {i : Nat} : ∀ v : Value, i ∈ v.stores → i ∈ v.ids := by
  refine nested (fun id d v ih h => ?_) (fun id d n vs ih h => ?_) fun v hBoxed hArray h => ?_
  · exact .tail _ (ih h)
  · rcases List.mem_cons.mp h with rfl | hRest
    · exact .head _
    · obtain ⟨v, hv, hi⟩ := mem_allStores.mp hRest
      exact .tail _ (mem_allIds.mpr ⟨v, hv, ih v hv hi⟩)
  · cases v with
    | boxed id d v => exact absurd rfl (hBoxed id d v)
    | array id d n es =>
        cases es with
        | none => exact h
        | some vs => exact absurd rfl (hArray id d n vs)
    | object id d => exact h
    | _ => cases h

/-- What is flat and has only instances that are free and stand for nothing can be hidden. -/
theorem Flat.hidden (h : v.Flat) (hFree : ∀ i, v.id? = some i → Λ.Free i)
    (hLone : v.stores ≠ [] → ∀ i, v.id? = some i → Λ.lone i) : v.Hidden Λ := by
  have hOwn : ∀ i ∈ v.ids, v.id? = some i := fun i hi => by
    rw [h] at hi
    exact Option.mem_toList.mp hi
  exact ⟨fun i hi => hFree i (hOwn i hi),
    fun i hi => hLone (List.ne_nil_of_mem hi) i (hOwn i (mem_ids_of_mem_stores v hi))⟩

end Value

namespace State

variable {s e E : State} {i : Nat}

/-- A register refers to an instance. -/
def Holds (s : State) (i : Nat) : Prop := ∃ v, some v ∈ s.registers ∧ v.id? = some i

/-- A register refers to an array or to an object whose contents are not tracked. -/
def HoldsStore (s : State) (i : Nat) : Prop :=
  ∃ v, some v ∈ s.registers ∧ v.id? = some i ∧ v.stores ≠ []

/-- Instances are directly in registers, and what refers to one instance is of one kind. -/
structure Plain (s : State) : Prop where
  flat : ∀ v, some v ∈ s.registers → v.Flat
  kinds : ∀ v w, some v ∈ s.registers → some w ∈ s.registers → v.id? = w.id? → v.id? ≠ none →
    (v.stores = [] ↔ w.stores = [])
  passes : s.result = none ∧ s.exception = none

/-- A state differs from another one only in that values are known of which there only the type is; their
instances are not known there, either. -/
structure Refines (e E : State) : Prop where
  shape : e.SameShape E
  registers : List.Forall₂ (Option.Rel fun w v => w = v ∨
    v.isKnown = false ∧ w.descriptor = v.descriptor ∧ ∀ i, w.id? = some i → ¬ E.Holds i)
    e.registers E.registers

theorem HoldsStore.holds (h : s.HoldsStore i) : s.Holds i := by
  obtain ⟨v, hv, hi, _⟩ := h
  exact ⟨v, hv, hi⟩

theorem Plain.store_of_holds (h : s.Plain) {v : Value} (hv : some v ∈ s.registers)
    (hi : v.id? = some i) (hStore : s.HoldsStore i) : v.stores ≠ [] := by
  obtain ⟨w, hw, hSame, hStores⟩ := hStore
  have hKinds := h.kinds v w hv hw (hi.trans hSame.symm) (by simp [hi])
  exact fun hNone => hStores (hKinds.mp hNone)

/-- What is referred to in the state of which less is known is so in the other one. -/
theorem Refines.holds (h : e.Refines E) (hi : E.Holds i) : e.Holds i := by
  obtain ⟨v, hv, hId⟩ := hi
  obtain ⟨n, hLess, hAt⟩ := List.mem_iff_getElem.mp hv
  obtain ⟨hLength, hAll⟩ := List.forall₂_iff_get.mp h.registers
  have hRel := hAll n (hLength ▸ hLess) hLess
  rw [List.get_eq_getElem, List.get_eq_getElem, hAt] at hRel
  generalize hw : e.registers[n] = x at hRel
  cases hRel with
  | @some w _ hRel =>
      refine ⟨w, hw ▸ List.getElem_mem _, ?_⟩
      rcases hRel with rfl | ⟨hUnknown, _⟩
      · exact hId
      · obtain ⟨d, rfl⟩ := Value.eq_unknown_of_isKnown hUnknown
        cases hId

end State

namespace Links

variable {e E : State} {k h : Heap}

/-- The links of two runs when they begin: the instances of the state of which less is known stand for
themselves. -/
def atEntry (e E : State) (bound : Nat) : Links where
  loose := True
  same i j := i = j ∧ E.Holds i
  changing := E.HoldsStore
  lone i := ¬ E.Holds i ∧ e.HoldsStore i
  bound := bound

/-- Heaps from which two runs may begin: both have handed out the instances of the states, and agree on
which of those are literals. -/
structure Ready (e E : State) (k h : Heap) : Prop where
  first : k.Sound
  second : h.Sound
  below : ∀ i, e.Holds i → i < k.next
  below' : ∀ i, E.Holds i → i < h.next
  interned : ∀ i, E.Holds i → ∀ t, k.interned.lookup t = some i ↔ h.interned.lookup t = some i
  stores : ∀ i, e.HoldsStore i ∨ E.HoldsStore i → ∀ t, k.interned.lookup t ≠ some i

theorem bond_atEntry (hRefines : e.Refines E) (hReady : Ready e E k h) :
    (atEntry e E k.next).Bond k h where
  injective := by
    refine ⟨?_, ?_⟩
    · rintro i j j' ⟨rfl, _⟩ ⟨rfl, _⟩
      rfl
    · rintro i i' j ⟨rfl, _⟩ ⟨rfl, _⟩
      rfl
  below := by
    rintro i j ⟨rfl, hi⟩
    exact ⟨hReady.below i (hRefines.holds hi), hReady.below' i hi⟩
  bound := Nat.le_refl _
  interned := by
    rintro i j ⟨rfl, hi⟩ t
    exact hReady.interned i hi t
  changing i hi := ⟨hReady.below i (hRefines.holds hi.holds), hReady.stores i (.inr hi)⟩
  lone i hi := ⟨hReady.below i hi.2.holds, fun j hSame => hi.1 hSame.2, hReady.stores i (.inl hi.2)⟩
  first := hReady.first
  second := hReady.second

theorem stands_atEntry (hRefines : e.Refines E) (hReady : Ready e E k h) (he : e.Plain)
    (hE : E.Plain) : e.Stands (atEntry e E k.next) E := by
  refine ⟨hRefines.shape, ?_⟩
  obtain ⟨hLength, hAll⟩ := List.forall₂_iff_get.mp hRefines.registers
  refine List.forall₂_iff_get.mpr ⟨hLength, fun n hn hn' => ?_⟩
  have hRel := hAll n hn hn'
  have hMem : e.registers.get ⟨n, hn⟩ ∈ e.registers := List.get_mem _ _
  have hMem' : E.registers.get ⟨n, hn'⟩ ∈ E.registers := List.get_mem _ _
  generalize e.registers.get ⟨n, hn⟩ = x, E.registers.get ⟨n, hn'⟩ = y at hRel hMem hMem'
  cases hRel with
  | none => exact .none
  | @some w v hRel =>
      refine .some ?_
      rcases hRel with rfl | ⟨hUnknown, _, hNew⟩
      · -- a value that both states hold
        refine (he.flat w hMem).stands (fun hFixed i hi => ?_) fun hStore i hi => ?_
        · refine ⟨⟨rfl, w, hMem', hi⟩, fun _ => ⟨hReady.below i ⟨w, hMem, hi⟩, fun hChanging => ?_⟩⟩
          exact hE.store_of_holds hMem' hi hChanging hFixed
        · exact ⟨⟨rfl, w, hMem', hi⟩, fun _ => ⟨w, hMem', hi, hStore⟩⟩
      · -- a value that only the first state knows
        obtain ⟨d, rfl⟩ := Value.eq_unknown_of_isKnown hUnknown
        refine .hidden d trivial ((he.flat w hMem).hidden (fun i hi => ?_) fun hStore i hi => ?_)
        · exact ⟨hReady.below i ⟨w, hMem, hi⟩, fun hChanging => hNew i hi hChanging.holds⟩
        · exact ⟨hNew i hi, w, hMem, hi, hStore⟩

theorem follows_atEntry (hRefines : e.Refines E) (hReady : Ready e E k h) (he : e.Plain)
    (hE : E.Plain) : e.Follows (atEntry e E k.next) E :=
  (State.Rests.mk (stands_atEntry hRefines hReady he hE) he.passes hE.passes).follows

end Links

namespace Heap

theorem le_foldl_max (ids : List Nat) (bound : Nat) :
    bound ≤ ids.foldl (fun next id => max next (id + 1)) bound ∧
      ∀ i ∈ ids, i < ids.foldl (fun next id => max next (id + 1)) bound := by
  induction ids generalizing bound with
  | nil => exact ⟨Nat.le_refl _, by simp⟩
  | cons j ids ih =>
      obtain ⟨hBound, hAll⟩ := ih (max bound (j + 1))
      refine ⟨Nat.le_trans (Nat.le_max_left _ _) hBound, fun i hi => ?_⟩
      rcases List.mem_cons.mp hi with rfl | hRest
      · exact Nat.lt_of_lt_of_le (Nat.lt_succ_self _) (Nat.le_trans (Nat.le_max_right _ _) hBound)
      · exact hAll i hRest

/-- The heap of an execution has handed out the instances of its entry. -/
theorem lt_next_after {s : State} {i : Nat} (h : s.Holds i) : i < (after s).next := by
  obtain ⟨v, hv, hi⟩ := h
  obtain ⟨r, hLess, hAt⟩ := List.mem_iff_getElem.mp hv
  refine (le_foldl_max _ 0).2 i (List.mem_filterMap.mpr ⟨(r, v), ?_, hi⟩)
  refine List.mem_filterMap.mpr ⟨(some v, r), ?_, rfl⟩
  exact List.mk_mem_zipIdx_iff_getElem?.mpr (List.getElem?_eq_some_iff.mpr ⟨hLess, hAt⟩)

theorem ready_after (e E : State) : Links.Ready e E (after e) (after E) where
  first := sound_after e
  second := sound_after E
  below _ hi := lt_next_after hi
  below' _ hi := lt_next_after hi
  interned i _ t := by simp [after]
  stores i _ t := by simp [after]

end Heap

namespace Graph

/-- What a graph with unknown values has to satisfy so that nothing happens, when more is known, that it
leaves out: no local method with a body is called, no handler is where control gets to anyway, and
wherever an exception depends on a value that may be unknown the value is known or nothing handles it. -/
structure Forthright (G : Graph) (c : Semantics.Context) : Prop where
  calls : ∀ a i, c.method.code.at? a = some i → c.RunsNoBody i
  apart : ∀ a i, c.method.code.at? a = some i → Semantics.Context.Apart id c a i
  candid : ∀ k N i, G.node? k = some N → c.method.code.at? N.address = some i →
    Semantics.Candid (c.method.handlersAt N.address) i N.pre

variable {g G : Graph} {c c' : Semantics.Context} {maxVisits maxVisits' : Nat} {e E : State}
  {s s' t t' : Supply} {log log' : List Performance}

theorem handlers_retarget (hs : List Handler) : hs = hs.map (Handler.retarget id) := by
  induction hs with
  | nil => rfl
  | cons h hs ih => rw [List.map_cons, ← ih]; rfl

/-- A step in a state of which more is known is one that the graph allows for. -/
theorem Forthright.tracks (h : G.Forthright c') (hMethod : c.method = c'.method)
    (hClasses : c.classes = c'.classes) (hLapse : c'.CallsLapse) {Λ : Links} {K : NodeId}
    {n N : Node} {r R : Performance} (hN : G.node? K = some N) (hRecords : N.Records G c' R)
    (hPartners : Partners Λ id n N r R) :
    Run.Tracks Λ (c.apply n.address n.pre) (c'.apply N.address N.pre) r.before R.before
      fun Λ' => Step.Covers Λ' id fun b => c'.method.isHandler b = true := by
  have hPlace : n.address = N.address := hPartners.place
  obtain ⟨i, hi⟩ := Semantics.Context.exists_instruction hRecords.applied
  rw [hPlace]
  refine Semantics.Context.apply_tracks hClasses hPartners.bond hi ?_
    ⟨hPartners.follows.stands, fun _ _ => hPartners.follows.result, fun _ _ => hPartners.follows.exception⟩
    ?_ (fun n' hNext => ?_) (h.apart _ _ hi) hLapse (h.calls _ _ hi) fun _ => h.candid K N i hN hi
  · rw [Instruction.mapTargets_id, hMethod]
    exact hi
  · rw [hMethod]
    exact handlers_retarget _
  · unfold Semantics.Context.next at hNext ⊢
    rw [hMethod]
    exact hNext

/-- Every execution with more known values is one of the complete graph with unknown ones. -/
theorem exists_partner_of_refines (hg : g.Recording c maxVisits e s log t)
    (hG : G.Recording c' maxVisits' E s' log' t') (hDone : G.status = .completed)
    (hForthright : G.Forthright c') (hMethod : c.method = c'.method) (hClasses : c.classes = c'.classes)
    (hLapse : c'.CallsLapse) (hFrugal : ∀ a pre, Run.Frugal (c.apply a pre))
    (hFrugal' : ∀ a pre, Run.Frugal (c'.apply a pre)) (hRefines : e.Refines E) (he : e.Plain)
    (hE : E.Plain) (hReady : Links.Ready e E s.heap s'.heap) {k : NodeId} {n : Node}
    (hn : g.node? k = some n) :
    ∃ r K N R Λ, log[k]? = some r ∧ n.Records g c r ∧ G.node? K = some N ∧ log'[K]? = some R ∧
      N.Records G c' R ∧ Λ.loose ∧ Partners Λ id n N r R := by
  obtain ⟨r, K, N, R, Λ, hr, hN, hR, hΛ, hPartners⟩ := exists_partner hg hG hDone hFrugal hFrugal'
    (fun hCode => hMethod ▸ hCode) rfl (Links.bond_atEntry hRefines hReady)
    (Links.follows_atEntry hRefines hReady he hE)
    (fun Λ k n r K N R _ _ _ hN hR hPartners => by
      obtain ⟨R', hR', hRecords⟩ := hG.records K N hN
      rw [hR] at hR'
      obtain rfl := Option.some.inj hR'
      exact hForthright.tracks hMethod hClasses hLapse hN hRecords hPartners) hn
  obtain ⟨r', hr', hRecords⟩ := hg.records k n hn
  rw [hr] at hr'
  obtain rfl := Option.some.inj hr'
  obtain ⟨R', hR', hRecords'⟩ := hG.records K N hN
  rw [hR] at hR'
  obtain rfl := Option.some.inj hR'
  exact ⟨r, K, N, R, Λ, hr, hRecords, hN, hR, hRecords', hΛ.loose.mpr trivial, hPartners⟩

theorem Piled.mem_reached {code : Code} (h : g.Piled code) {a : Address} :
    a ∈ g.reached ↔ ∃ k n, g.node? k = some n ∧ n.address = a := by
  rw [Graph.mem_reached]
  constructor
  · rintro ⟨p, hp, hFull, rfl⟩
    obtain ⟨k, hk⟩ := List.exists_mem_of_ne_nil _ hFull
    exact ⟨k, (h.mem_iff p.1 k).mp (by rwa [h.pile_of_mem hp])⟩
  · rintro ⟨k, n, hn, rfl⟩
    have hk := (h.mem_iff n.address k).mpr ⟨n, hn, rfl⟩
    exact ⟨_, mem_piles_of_pile (List.ne_nil_of_mem hk), List.ne_nil_of_mem hk, rfl⟩

end Graph

namespace Machine

/-- An execution in a state of which more is known reaches only what the complete execution with unknown
values reaches, and the numbers that are known there are those that it computes. -/
theorem execute_refines {m : Machine} {method : Method} {e E : State} {g G : Graph}
    (hg : m.execute method e = .ok g) (hG : m.execute method E = .ok G) (hDone : G.status = .completed)
    (hRefines : e.Refines E) (he : e.Plain) (hE : E.Plain)
    (hForthright : G.Forthright (m.context method 0)) :
    (∀ a ∈ g.reached, a ∈ G.reached) ∧
      ∀ a r v, G.consensus? a r = some v → v.isAtom = true →
        ∀ k n, g.node? k = some n → n.address = a → n.post.peek? r = some v := by
  obtain ⟨g₀, log, t, rfl, hRecording⟩ := execute_recording hg
  obtain ⟨G₀, log', t', rfl, hRecording'⟩ := execute_recording hG
  have hSecond : G₀.Forthright (m.context method 0) :=
    ⟨hForthright.calls, hForthright.apart, hForthright.candid⟩
  have hPartner {k : NodeId} {n : Node} (hn : g₀.node? k = some n) :=
    Graph.exists_partner_of_refines hRecording hRecording' hDone hSecond rfl rfl
      (callsLapse_context m method 0) (context_frugal method 0) (context_frugal method 0) hRefines he hE
      (Heap.ready_after e E) hn
  constructor
  · intro a ha
    obtain ⟨k, n, hn, rfl⟩ := (Graph.Piled.mem_reached (g := g₀) hRecording.piled).mp ha
    obtain ⟨_, K, N, _, _, _, _, hN, _, _, _, hPartners⟩ := hPartner hn
    exact (Graph.Piled.mem_reached (g := G₀) hRecording'.piled).mpr ⟨K, N, hN, hPartners.place.symm⟩
  · intro a r v hAgreed hAtom k n hn ha
    obtain ⟨_, K, N, _, _, _, hRecords, hN, _, hRecords', _, hPartners⟩ := hPartner hn
    obtain ⟨_, _, hCovers⟩ := Graph.Partners.covers
      (hSecond.tracks rfl rfl (callsLapse_context m method 0) hN hRecords' hPartners) hRecords hRecords'
    have hKnown := (Graph.Piled.peek?_of_consensus? (g := G₀) hRecording'.piled hAgreed hN
      (hPartners.place.symm.trans ha)).1
    rw [hRecords'.post] at hKnown
    rw [hRecords.post]
    exact hCovers.shows r v hAtom hKnown

/-- A machine without local classes. -/
def bare : Machine := ⟨.empty, ⟨100, 10, 2⟩⟩

/-- A method that says whether its argument is even. -/
def parityMethod : Method where
  reference := ⟨⟨"La;"⟩, "even", [.int], .int⟩
  flags := { static := true }
  locals := 1
  code := [.binary .and .int 0 1 (.literal 1), .branch .ne 0 none 8, .const 0 (.int 1), .returnValue 0,
    .const 0 (.int 0), .returnValue 0]
  tries := []

/-- The state in which a method with one local register starts with an argument. -/
def entryWith (v : Value) : State := { State.blank 1 1 with params := [some v] }

theorem plain_entryWith {v : Value} (hFlat : v.Flat) : (entryWith v).Plain where
  flat w hw := by
    obtain rfl : w = v := by simpa [entryWith, State.blank, State.registers] using hw
    exact hFlat
  kinds w w' hw hw' _ _ := by
    obtain rfl : w = v := by simpa [entryWith, State.blank, State.registers] using hw
    obtain rfl : w' = w := by simpa [entryWith, State.blank, State.registers] using hw'
    exact Iff.rfl
  passes := ⟨rfl, rfl⟩

theorem refines_entryWith {v : Value} {d : Descriptor} (hType : v.descriptor = d) :
    (entryWith v).Refines (entryWith (.unknown d)) where
  shape := ⟨rfl, rfl⟩
  registers := by
    refine .cons .none (.cons (.some (.inr ⟨rfl, hType, fun i _ hi => ?_⟩)) .nil)
    obtain ⟨w, hw, hId⟩ := hi
    obtain rfl : w = .unknown d := by simpa [entryWith, State.blank, State.registers] using hw
    cases hId

theorem forthright_parityMethod (G : Graph) : G.Forthright (bare.context parityMethod 0) where
  calls a i hi := by
    rintro kind m args rfl
    have hMem := Code.mem_of_at? hi
    simp [context, parityMethod] at hMem
  apart a i _ := ⟨fun _ n _ k hk => by simp [Method.handlersAt, context, parityMethod] at hk,
    fun k hk => by simp [Method.handlersAt, context, parityMethod] at hk⟩
  candid k N i _ hi := by
    have hMem := Code.mem_of_at? hi
    simp only [context, parityMethod, List.mem_cons, List.not_mem_nil, or_false] at hMem
    rcases hMem with rfl | rfl | rfl | rfl | rfl | rfl <;> trivial

theorem execute_refines_parityMethod :
    (∀ a ∈ (bare.graphOf parityMethod (entryWith (.int 6))).reached,
      a ∈ (bare.graphOf parityMethod (entryWith (.unknown .int))).reached) ∧
      ∀ a r v, (bare.graphOf parityMethod (entryWith (.unknown .int))).consensus? a r = some v →
        v.isAtom = true → ∀ k n, (bare.graphOf parityMethod (entryWith (.int 6))).node? k = some n →
          n.address = a → n.post.peek? r = some v :=
  execute_refines (execute_eq_graphOf (by decide +kernel)) (execute_eq_graphOf (by decide +kernel))
    (by decide +kernel) (refines_entryWith rfl) (plain_entryWith (by simp [Value.Flat, Value.ids, Value.id?]))
    (plain_entryWith (by simp [Value.Flat, Value.ids, Value.id?])) (forthright_parityMethod _)

/-- A method that reads an element of an array beyond those that most arrays have, and handles the
exception that this raises. -/
def guardedMethod : Method where
  reference := ⟨⟨"La;"⟩, "sixth", [⟨"[I"⟩], .int⟩
  flags := { static := true }
  locals := 1
  code := [.const 0 (.int 5), .arrayGet 0 1 0, .returnValue 0, .moveException 0, .const 0 (.int (-1)),
    .returnValue 0]
  tries := [⟨3, 5, [⟨some .indexException, 6⟩]⟩]

/-- An array that is not known is not expected to be too short, so that the handler is left out. -/
theorem not_reached_of_refines :
    ¬ ∀ (m : Machine) (method : Method) (e E : State) (g G : Graph),
      method.validate = .ok () → m.execute method e = .ok g → m.execute method E = .ok G →
        G.status = .completed → e.Refines E → ∀ a ∈ g.reached, a ∈ G.reached := by
  intro hAll
  have hHandled := hAll bare guardedMethod (entryWith (.array 0 ⟨"[I"⟩ (some 1) (some [.int 7])))
    (entryWith (.unknown ⟨"[I"⟩)) _ _ (by decide +kernel) (execute_eq_graphOf (by decide +kernel))
    (execute_eq_graphOf (by decide +kernel)) (by decide +kernel) (refines_entryWith rfl) 6
    (by decide +kernel)
  exact absurd hHandled (by decide +kernel)

end Machine

end Dalvik
