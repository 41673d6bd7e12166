import Dalvik.Proofs.Carrying

/-!
Where executions lead after an edit. What led to executions that are gone leads to where these did, so that as long
as only what goes on to the next instruction is removed, everything leads to what is left of where it led.
-/

namespace Dalvik

namespace Graph

variable {g g' : Graph} {label : Address → Address} {a b : Address} {k c : NodeId}

/-- Where the execution of a node takes place. -/
def addressOf? (g : Graph) (k : NodeId) : Option Address := (g.node? k).map Node.address

/-- An execution has led to an address. -/
def Reaches (g : Graph) (k : NodeId) (b : Address) : Prop :=
  ∃ c ∈ g.childrenOf k, g.addressOf? c = some b

/-- An execution has led to an address and nowhere else. -/
structure GoesTo (g : Graph) (k : NodeId) (b : Address) : Prop where
  reaches : g.Reaches k b
  only : ∀ c ∈ g.childrenOf k, g.addressOf? c = some b

/-- All executions of the instruction at an address have gone on to the next one. -/
def GoesOn (g : Graph) (a : Address) : Prop :=
  ∀ k, g.addressOf? k = some a → ∃ b, g.method.code.next? a = some b ∧ g.GoesTo k b

/-- Every execution of a graph that has led to one place only leads to what is left of that in another graph, if it is
still there. -/
def Bridges (g g' : Graph) (label : Address → Address) : Prop :=
  ∀ k b, g'.isLive k = true → g.GoesTo k b → g'.GoesTo k (label b)

/-- The executions that are left have led to what is left of where they led before. -/
def Steers (g g' : Graph) (label : Address → Address) : Prop :=
  ∀ k b', g'.isLive k = true → (g'.Reaches k b' ↔ ∃ b, g.Reaches k b ∧ label b = b')

theorem addressOf?_eq_some_iff : g.addressOf? k = some a ↔ ∃ n, g.node? k = some n ∧ n.address = a :=
  Option.map_eq_some_iff

theorem Piled.hasAddress_addressOf? {code : Code} (hg : g.Piled code) (h : g.addressOf? k = some a) :
    code.HasAddress a := by
  obtain ⟨n, hn, rfl⟩ := addressOf?_eq_some_iff.mp h
  exact hg.hasAddress hn

theorem Piled.mem_pile_iff_addressOf? {code : Code} (hg : g.Piled code) :
    k ∈ g.pile a ↔ g.addressOf? k = some a :=
  (hg.mem_iff a k).trans addressOf?_eq_some_iff.symm

theorem childrenOf_eq_nil (h : g.isLive k = false) : g.childrenOf k = [] := by
  have hNone : g.node? k = none := by simpa [isLive] using h
  rw [childrenOf, hNone]
  rfl

theorem Linked.exists_addressOf? (hg : g.Linked) (hc : c ∈ g.childrenOf k) : ∃ b, g.addressOf? c = some b := by
  obtain ⟨n, hn⟩ := isLive_iff.mp (hg.live_of_child hc).2
  exact ⟨n.address, addressOf?_eq_some_iff.mpr ⟨n, hn, rfl⟩⟩

theorem Linked.goesTo_iff (hg : g.Linked) : g.GoesTo k b ↔ g.Reaches k b ∧ ∀ x, g.Reaches k x → x = b := by
  refine ⟨fun h => ⟨h.reaches, fun x ⟨c, hc, hx⟩ => Option.some.inj (hx.symm.trans (h.only c hc))⟩,
    fun ⟨hReaches, hOnly⟩ => ⟨hReaches, fun c hc => ?_⟩⟩
  obtain ⟨x, hx⟩ := hg.exists_addressOf? hc
  rw [hx, hOnly x ⟨c, hc, hx⟩]

/-- Where an execution has led to one place only, it leads to what is left of that. The converse needs that nothing
else that it led to has come to be there. -/
theorem Steers.goesTo_iff (h : g.Steers g' label) (hg : g.Linked) (hg' : g'.Linked) (hk : g'.isLive k = true)
    (hApart : ∀ x, g.Reaches k x → label x = label b → x = b) : g'.GoesTo k (label b) ↔ g.GoesTo k b := by
  rw [hg.goesTo_iff, hg'.goesTo_iff]
  constructor
  · rintro ⟨hReaches, hOnly⟩
    have hAll (x : Address) (hx : g.Reaches k x) : x = b := hApart x hx (hOnly _ ((h k _ hk).mpr ⟨x, hx, rfl⟩))
    obtain ⟨x, hx, _⟩ := (h k _ hk).mp hReaches
    exact ⟨hAll x hx ▸ hx, hAll⟩
  · rintro ⟨hReaches, hOnly⟩
    refine ⟨(h k _ hk).mpr ⟨b, hReaches, rfl⟩, fun x' hx' => ?_⟩
    obtain ⟨x, hx, rfl⟩ := (h k x' hk).mp hx'
    rw [hOnly x hx]

theorem Steers.bridges (h : g.Steers g' label) (hg : g.Linked) (hg' : g'.Linked) : g.Bridges g' label :=
  fun _ _ hk hGoes => (h.goesTo_iff hg hg' hk fun x hx _ => ((hg.goesTo_iff.mp hGoes).2 x hx)).mpr hGoes

theorem Steers.refl (g : Graph) : g.Steers g id := fun _ _ _ => by simp

theorem Steers.trans {g'' : Graph} {label' : Address → Address} (h : g.Steers g' label) (h' : g'.Steers g'' label')
    (hLive : ∀ k, g''.isLive k = true → g'.isLive k = true) : g.Steers g'' (label' ∘ label) := by
  intro k b'' hk
  rw [h' k b'' hk]
  constructor
  · rintro ⟨b', hb', rfl⟩
    obtain ⟨b, hb, rfl⟩ := (h k b' (hLive k hk)).mp hb'
    exact ⟨b, hb, rfl⟩
  · rintro ⟨b, hb, rfl⟩
    exact ⟨label b, (h k _ (hLive k hk)).mpr ⟨b, hb, rfl⟩, rfl⟩

/-- Removing an execution joins what led to it to what it led to, whether it is there or not. -/
theorem mem_childrenOf_removeNode_iff (hg : g.Linked) (id : NodeId) : c ∈ (g.removeNode id).childrenOf k ↔
    k ≠ id ∧ c ≠ id ∧ (c ∈ g.childrenOf k ∨ id ∈ g.childrenOf k ∧ c ∈ g.childrenOf id) := by
  cases hn : g.node? id with
  | some n => rw [mem_childrenOf_removeNode hg hn, ← hg.both]
  | none =>
      have hDead : g.isLive id = false := by simp [isLive, hn]
      have hSame : g.removeNode id = g := by simp [removeNode, hn]
      rw [hSame, childrenOf_eq_nil hDead]
      refine ⟨fun hc => ⟨?_, ?_, .inl hc⟩, fun hc => hc.2.2.resolve_right (by simp)⟩
      · rintro rfl
        exact Bool.false_ne_true (hDead.symm.trans (hg.live_of_child hc).1)
      · rintro rfl
        exact Bool.false_ne_true (hDead.symm.trans (hg.live_of_child hc).2)

/-- Removing executions that do not lead to each other joins what led to them to what they led to. -/
theorem mem_childrenOf_foldl_removeNode (hg : g.Linked) {ids : List NodeId}
    (hApart : ∀ r ∈ ids, ∀ c ∈ g.childrenOf r, c ∉ ids) :
    c ∈ (ids.foldl removeNode g).childrenOf k ↔
      k ∉ ids ∧ c ∉ ids ∧ (c ∈ g.childrenOf k ∨ ∃ r ∈ ids, r ∈ g.childrenOf k ∧ c ∈ g.childrenOf r) := by
  induction ids generalizing g with
  | nil => simp
  | cons id ids ih =>
      have hOne (p c : NodeId) := mem_childrenOf_removeNode_iff hg id (k := p) (c := c)
      have hFirst : id ∉ g.childrenOf id := fun hc => hApart id (.head _) id hc (.head _)
      -- what is still to be removed leads where it led before
      have hOwn {r c : NodeId} (hr : r ∈ ids) : c ∈ (g.removeNode id).childrenOf r ↔ r ≠ id ∧ c ∈ g.childrenOf r := by
        have hNot : id ∉ g.childrenOf r := fun hc => hApart r (.tail _ hr) id hc (.head _)
        rw [hOne]
        constructor
        · rintro ⟨hOther, _, hc | hc⟩
          · exact ⟨hOther, hc⟩
          · exact absurd hc.1 hNot
        · rintro ⟨hOther, hc⟩
          exact ⟨hOther, fun hSame => hNot (hSame ▸ hc), .inl hc⟩
      rw [List.foldl_cons, ih (hg.removeNode id) fun r hr c hc hMem =>
        hApart r (.tail _ hr) c ((hOwn hr).mp hc).2 (.tail _ hMem), hOne]
      simp only [List.mem_cons, not_or]
      constructor
      · rintro ⟨hk, hc, ⟨hk', hc', hLink⟩ | ⟨r, hr, hLink, hLast⟩⟩
        · refine ⟨⟨hk', hk⟩, ⟨hc', hc⟩, hLink.imp_right fun h => ⟨id, .inl rfl, h⟩⟩
        · obtain ⟨hk', hr', hLink⟩ := (hOne k r).mp hLink
          have hThere := (hOwn hr).mp hLast
          refine ⟨⟨hk', hk⟩, ⟨fun hSame => ?_, hc⟩, .inr ?_⟩
          · exact hApart r (.tail _ hr) c hThere.2 (hSame ▸ .head _)
          · rcases hLink with hDirect | ⟨_, hBetween⟩
            · exact ⟨r, .inr hr, hDirect, hThere.2⟩
            · exact absurd (List.mem_cons_of_mem id hr) (hApart id (.head _) r hBetween)
      · rintro ⟨⟨hk', hk⟩, ⟨hc', hc⟩, hLink | ⟨r, rfl | hr, hLink, hLast⟩⟩
        · exact ⟨hk, hc, .inl ⟨hk', hc', .inl hLink⟩⟩
        · exact ⟨hk, hc, .inl ⟨hk', hc', .inr ⟨hLink, hLast⟩⟩⟩
        · by_cases hSame : r = id
          · subst hSame
            exact ⟨hk, hc, .inl ⟨hk', hc', .inr ⟨hLink, hLast⟩⟩⟩
          · exact ⟨hk, hc, .inr ⟨r, hr, (hOne k r).mpr ⟨hk', hSame, .inl hLink⟩, (hOwn hr).mpr ⟨hSame, hLast⟩⟩⟩

section Relocate

variable {m : Method} {r : Relocation} {move : Nat → Option Nat}

/-- Moving instructions changes no link. -/
theorem childrenOf_relocate (hg : g.Piled g.method.code) (hr : r.Moves g.method.code m.code move)
    (hKept : ∀ i, i < g.method.code.length → g.pile (g.method.code.addressAt i) ≠ [] → (move i).isSome)
    (k : NodeId) : ((g.withMethod m).relocate r).childrenOf k = g.childrenOf k := by
  unfold childrenOf
  rw [(relocate_spec (g := g.withMethod m) (hg.withMethod m) hr hKept).1, Option.map_map]
  rfl

end Relocate

variable {p : Nat}

theorem Carried.addressOf?_eq {stands : Address → Option (Instruction Address)} (h : g.Carried g' label stands)
    (hk : g.addressOf? k = some a) {j : Instruction Address} (hj : stands a = some j) :
    g'.addressOf? k = some (label a) := by
  obtain ⟨n, hn, rfl⟩ := addressOf?_eq_some_iff.mp hk
  obtain ⟨n', hn', hAddress, _⟩ := h.exists_node hn hj
  exact addressOf?_eq_some_iff.mpr ⟨n', hn', hAddress⟩

/-- Every execution that is left takes place where what is left of its old place is. -/
theorem Carried.addressOf?_origin {stands : Address → Option (Instruction Address)} (h : g.Carried g' label stands)
    (hk : g'.addressOf? k = some b) : ∃ a j, g.addressOf? k = some a ∧ stands a = some j ∧ label a = b := by
  obtain ⟨n', hn', rfl⟩ := addressOf?_eq_some_iff.mp hk
  obtain ⟨n, j, hn, hj⟩ := h.exists_origin hn'
  obtain ⟨n₁, hn₁, hAddress, _⟩ := h.exists_node hn hj
  obtain rfl := Option.some.inj (hn₁.symm.trans hn')
  exact ⟨n.address, j, addressOf?_eq_some_iff.mpr ⟨n, hn, rfl⟩, hj, hAddress.symm⟩

section Replaced

variable (hg : g.Piled g.method.code) (hp : p < g.method.code.length) (new : Instruction Address)

include hg hp

theorem childrenOf_replaced (k : NodeId) :
    ((g.withMethod (g.method.splice p 1 [new] true).1).relocate
      ((g.method.splice p 1 [new] true).2.followLabel (g.method.code.addressAt p))).childrenOf k = g.childrenOf k :=
  childrenOf_relocate hg (Method.replacement_moves hp (List.cons_ne_nil new []))
    (fun _ _ _ => Code.isSome_replacing) k

theorem addressOf?_replaced (hc : g.addressOf? c = some b) :
    ((g.withMethod (g.method.splice p 1 [new] true).1).relocate
      ((g.method.splice p 1 [new] true).2.followLabel (g.method.code.addressAt p))).addressOf? c =
    some ((g.method.splice p 1 [new] true).2.label b) := by
  have hStands : ∃ j, g.method.code.exchanged p (some new) b = some j := by
    obtain ⟨n, hn, rfl⟩ := hg.hasAddress_addressOf? hc
    by_cases hHere : n = p
    · exact ⟨new, by rw [hHere, Code.exchanged_here]⟩
    · exact ⟨_, by rw [Code.exchanged_addressAt hp hn hHere, List.getElem?_eq_getElem hn]⟩
  obtain ⟨j, hj⟩ := hStands
  exact (carried_replaced hg hp new).addressOf?_eq hc hj

/-- Replacing an instruction changes no link. -/
theorem steers_replaced : g.Steers ((g.withMethod (g.method.splice p 1 [new] true).1).relocate
      ((g.method.splice p 1 [new] true).2.followLabel (g.method.code.addressAt p)))
    (g.method.splice p 1 [new] true).2.label := by
  intro k b' _
  constructor
  · rintro ⟨c, hc, hb'⟩
    rw [childrenOf_replaced hg hp] at hc
    obtain ⟨b, _, hb, _, hLabel⟩ := (carried_replaced hg hp new).addressOf?_origin hb'
    exact ⟨b, ⟨c, hc, hb⟩, hLabel⟩
  · rintro ⟨b, ⟨c, hc, hb⟩, rfl⟩
    exact ⟨c, by rwa [childrenOf_replaced hg hp], addressOf?_replaced hg hp new hb⟩

end Replaced

/-- What is to be removed has led to the next instruction, which is where its own place moves to. -/
theorem GoesOn.exists_goesTo (h : g.GoesOn (g.method.code.addressAt p)) (hp : p < g.method.code.length)
    (hk : g.addressOf? k = some (g.method.code.addressAt p)) :
    ∃ b, g.GoesTo k b ∧ b ≠ g.method.code.addressAt p ∧ (g.method.splice p 1 [] false).2.label b =
      (g.method.splice p 1 [] false).2.label (g.method.code.addressAt p) := by
  obtain ⟨b, hNext, hGoes⟩ := h k hk
  obtain ⟨n, hn, hLess, rfl⟩ := Code.next?_eq_some_iff.mp hNext
  obtain rfl := Option.some.inj ((Code.indexOf?_addressAt hp).symm.trans hn)
  refine ⟨_, hGoes, Nat.ne_of_gt (Code.addressAt_lt (Nat.lt_succ_self p) (Nat.le_of_lt hLess)), ?_⟩
  rw [Method.splice_label_place hp (Nat.le_of_lt hLess), Method.splice_label_place hp (Nat.le_of_lt hp),
    if_neg (by omega), if_pos (Nat.le_refl p)]
  rfl

/-- Removing an instruction joins what led to its executions to what these led to. -/
theorem mem_childrenOf_removeAt (hPiled : g.Piled g.method.code) (hLinked : g.Linked)
    (hp : p < g.method.code.length)
    (hApart : ∀ r ∈ g.pile (g.method.code.addressAt p), ∀ c ∈ g.childrenOf r,
      c ∉ g.pile (g.method.code.addressAt p)) :
    c ∈ (g.removeAt p).childrenOf k ↔
      k ∉ g.pile (g.method.code.addressAt p) ∧ c ∉ g.pile (g.method.code.addressAt p) ∧
        (c ∈ g.childrenOf k ∨ ∃ r ∈ g.pile (g.method.code.addressAt p),
          r ∈ g.childrenOf k ∧ c ∈ g.childrenOf r) := by
  unfold removeAt
  rw [childrenOf_relocate (piled_removePile hPiled _) (moves_without hp) kept_without]
  let away : Graph := { g with piles := g.piles.filter fun q => q.1 ≠ g.method.code.addressAt p }
  have hAway : away.Linked := hLinked.of_eq rfl rfl
  exact mem_childrenOf_foldl_removeNode hAway hApart

section RemoveAt

variable (hPiled : g.Piled g.method.code) (hp : p < g.method.code.length)

include hPiled hp

/-- What is not at the place of a removed instruction has gone along. -/
theorem addressOf?_removeAt (hc : g.addressOf? c = some b) (hKept : c ∉ g.pile (g.method.code.addressAt p)) :
    (g.removeAt p).addressOf? c = some ((g.method.splice p 1 [] false).2.label b) := by
  obtain ⟨i, hi⟩ := Code.exists_at? (hPiled.hasAddress_addressOf? hc)
  refine (carried_removeAt hPiled hp).addressOf?_eq hc (j := i) ?_
  rw [Code.exchanged_elsewhere fun hHere => hKept (hPiled.mem_pile_iff_addressOf?.mpr (hHere ▸ hc)), hi]

theorem not_mem_pile_of_isLive_removeAt (h : (g.removeAt p).isLive k = true) :
    k ∉ g.pile (g.method.code.addressAt p) := by
  intro hMem
  obtain ⟨n', hn'⟩ := isLive_iff.mp h
  obtain ⟨a, j, ha, hj, _⟩ :=
    (carried_removeAt hPiled hp).addressOf?_origin (addressOf?_eq_some_iff.mpr ⟨n', hn', rfl⟩)
  obtain rfl := Option.some.inj ((hPiled.mem_pile_iff_addressOf?.mp hMem).symm.trans ha)
  rw [Code.exchanged_here] at hj
  cases hj

/-- What is to be removed has not led to itself. -/
theorem GoesOn.apart (hGone : g.GoesOn (g.method.code.addressAt p)) :
    ∀ r ∈ g.pile (g.method.code.addressAt p), ∀ c ∈ g.childrenOf r, c ∉ g.pile (g.method.code.addressAt p) := by
  intro r hr c hc hMem
  obtain ⟨b, hGoes, hOther, _⟩ := hGone.exists_goesTo hp (hPiled.mem_pile_iff_addressOf?.mp hr)
  exact hOther (Option.some.inj ((hGoes.only c hc).symm.trans (hPiled.mem_pile_iff_addressOf?.mp hMem)))

variable (hLinked : g.Linked) (hGone : g.GoesOn (g.method.code.addressAt p))

include hLinked hGone

/-- Where something has led that is not in an edited graph any more is where it led to what is there. -/
theorem reaches_removeAt (hLive : (g.removeAt p).isLive k = true) (hReaches : g.Reaches k b) :
    (g.removeAt p).Reaches k ((g.method.splice p 1 [] false).2.label b) := by
  have hApart := hGone.apart hPiled hp
  have hChildren (c : NodeId) := mem_childrenOf_removeAt hPiled hLinked hp hApart (k := k) (c := c)
  have hKept := not_mem_pile_of_isLive_removeAt hPiled hp hLive
  obtain ⟨c, hc, hb⟩ := hReaches
  by_cases hMem : c ∈ g.pile (g.method.code.addressAt p)
  · have hHere := hPiled.mem_pile_iff_addressOf?.mp hMem
    obtain ⟨b', ⟨⟨c', hc', hb'⟩, _⟩, _, hLabel⟩ := hGone.exists_goesTo hp hHere
    obtain rfl := Option.some.inj (hb.symm.trans hHere)
    have hOther := hApart c hMem c' hc'
    exact ⟨c', (hChildren c').mpr ⟨hKept, hOther, .inr ⟨c, hMem, hc, hc'⟩⟩,
      hLabel ▸ addressOf?_removeAt hPiled hp hb' hOther⟩
  · exact ⟨c, (hChildren c).mpr ⟨hKept, hMem, .inl hc⟩, addressOf?_removeAt hPiled hp hb hMem⟩

/-- Removing an instruction whose executions have all gone on to the next one lets what led to them lead there. -/
theorem steers_removeAt : g.Steers (g.removeAt p) (g.method.splice p 1 [] false).2.label := by
  intro k b' hLive
  constructor
  · rintro ⟨c, hc, hb'⟩
    obtain ⟨b, _, hb, _, hLabel⟩ := (carried_removeAt hPiled hp).addressOf?_origin hb'
    obtain ⟨_, _, hOwn | ⟨r, hr, hLink, hLast⟩⟩ :=
      (mem_childrenOf_removeAt hPiled hLinked hp (hGone.apart hPiled hp)).mp hc
    · exact ⟨b, ⟨c, hOwn, hb⟩, hLabel⟩
    · have hHere := hPiled.mem_pile_iff_addressOf?.mp hr
      obtain ⟨next, hGoes, _, hSame⟩ := hGone.exists_goesTo hp hHere
      obtain rfl := Option.some.inj ((hGoes.only c hLast).symm.trans hb)
      exact ⟨_, ⟨r, hLink, hHere⟩, hSame.symm.trans hLabel⟩
  · rintro ⟨b, hReaches, rfl⟩
    exact reaches_removeAt hPiled hp hLinked hGone hLive hReaches

end RemoveAt

/-- A graph and its method have come from others by edits. `label` says where the places of the old method are, and
`stands` what stands for an instruction, which is nothing if it has been removed. -/
structure Persists (g g' : Graph) (label : Address → Address)
    (stands : Address → Option (Instruction Address)) : Prop where
  next : ∀ a b j, stands a = some j → g.method.code.next? a = some b →
    g'.method.code.next? (label a) = some (label b)
  injective : ∀ a b i j, g.method.code.HasAddress a → g.method.code.HasAddress b → stands a = some i →
    stands b = some j → label a = label b → a = b
  origin : ∀ k n', g'.node? k = some n' → ∃ n j, g.node? k = some n ∧ g.method.code.HasAddress n.address ∧
    stands n.address = some j ∧ n'.address = label n.address ∧ n'.pre = n.pre
  kept : ∀ k a j, g.addressOf? k = some a → stands a = some j → g'.addressOf? k = some (label a)
  bridges : g.Bridges g' label

theorem Carried.origin {stands : Address → Option (Instruction Address)} (h : g.Carried g' label stands)
    (hg : g.Piled g.method.code) (k : NodeId) (n' : Node) (hn' : g'.node? k = some n') :
    ∃ n j, g.node? k = some n ∧ g.method.code.HasAddress n.address ∧ stands n.address = some j ∧
      n'.address = label n.address ∧ n'.pre = n.pre := by
  obtain ⟨n, j, hn, hj⟩ := h.exists_origin hn'
  obtain ⟨n₁, hn₁, hAddress, hPre, _⟩ := h.exists_node hn hj
  obtain rfl := Option.some.inj (hn₁.symm.trans hn')
  exact ⟨n, j, hn, hg.hasAddress hn, hj, hAddress, hPre⟩

theorem persists_of_moved {stands : Address → Option (Instruction Address)} (hg : g.Piled g.method.code)
    (hMoved : g.method.Moved g'.method label stands) (hCarried : g.Carried g' label stands)
    (hBridges : g.Bridges g' label) : g.Persists g' label stands where
  next a b j hj hNext := by
    rw [hMoved.next a j (Code.hasAddress_of_next? hNext).1 hj, hNext]
    rfl
  injective a b i j ha hb hi hj hSame := hMoved.injective ha hb hi hj hSame
  origin := hCarried.origin hg
  kept _ _ _ hk hj := hCarried.addressOf?_eq hk hj
  bridges := hBridges

/-- What has gone on to the next instruction has still done so. -/
theorem Persists.goesOn {stands : Address → Option (Instruction Address)} (h : g.Persists g' label stands)
    (ha : g.method.code.HasAddress a) {j : Instruction Address} (hj : stands a = some j) (hOn : g.GoesOn a) :
    g'.GoesOn (label a) := by
  intro k hk
  obtain ⟨n', hn', hHere⟩ := addressOf?_eq_some_iff.mp hk
  obtain ⟨n, i, hn, hn_, hi, hAddress, _⟩ := h.origin k n' hn'
  obtain rfl := h.injective _ _ i j hn_ ha hi hj (hAddress.symm.trans hHere)
  obtain ⟨b, hNext, hGoes⟩ := hOn k (addressOf?_eq_some_iff.mpr ⟨n, hn, rfl⟩)
  exact ⟨label b, h.next _ b j hj hNext, h.bridges k b (isLive_iff.mpr ⟨n', hn'⟩) hGoes⟩

end Graph

end Dalvik
