import Dalvik.Proofs.Expanding
import Dalvik.Proofs.Passes

/-!
The registers of direct calls. Each call that takes the place of a reflective one gets some after the locals of the method,
which only it uses. The parameters move up.
-/

namespace Dalvik

namespace Method

variable {locals count : Nat} {r : Register}

theorem shiftRegister_zero (locals : Nat) : shiftRegister locals 0 = id := by
  funext r
  simp [shiftRegister]

theorem shiftRegister_of_lt (h : r < locals) : shiftRegister locals count r = r := if_neg (Nat.not_le_of_lt h)

/-- Registers that are added after others are numbered as if they were added at once. -/
theorem shiftRegister_comp (locals count more : Nat) :
    shiftRegister (locals + count) more ∘ shiftRegister locals count = shiftRegister locals (count + more) := by
  funext r
  simp only [Function.comp_apply, shiftRegister, Register]
  split <;> split <;> omega

/-- No register gets the number of a new one. -/
theorem shiftRegister_not_fresh (locals count : Nat) (r : Register) :
    shiftRegister locals count r < locals ∨ locals + count ≤ shiftRegister locals count r := by
  simp only [shiftRegister, Register]
  split <;> omega

end Method

namespace Unreflection

open Method (shiftRegister)

/-- A reflective call that is made direct, with the first one of its fresh registers. -/
structure Call where
  site : Site
  scratch : Register

/-- A register is one of the fresh ones of a call. -/
def Call.Owns (c : Call) (r : Register) : Prop := c.scratch ≤ r ∧ r < c.scratch + c.site.registerCount

/-- The number of fresh registers of the calls at some sites. -/
def freshCount (found : List Site) : Nat := (found.map Site.registerCount).sum

/-- The calls at some sites with their fresh registers from `first` on. The last site is the one that is carried out
first. -/
def allot (first : Register) : List Site → List Call
  | [] => []
  | s :: rest => ⟨s, first + freshCount rest⟩ :: allot first rest

variable {found : List Site} {s : Site} {c : Call} {first : Register} {τ : Register → Register}

theorem freshCount_cons : freshCount (s :: found) = freshCount found + s.registerCount := by
  rw [freshCount, List.map_cons, List.sum_cons, Nat.add_comm, freshCount]

/-- The fresh registers of a call are among those of all calls. -/
theorem allot_within (hc : c ∈ allot first found) :
    first ≤ c.scratch ∧ c.scratch + c.site.registerCount ≤ first + freshCount found := by
  induction found with
  | nil => cases hc
  | cons s rest ih =>
      rw [freshCount_cons, ← Nat.add_assoc]
      rcases List.mem_cons.mp hc with rfl | hRest
      · exact ⟨Nat.le_add_right _ _, Nat.le_refl _⟩
      · obtain ⟨hFirst, hLast⟩ := ih hRest
        exact ⟨hFirst, Nat.le_add_right_of_le hLast⟩

/-- No register is a fresh one of two calls. -/
theorem allot_apart (first : Register) (found : List Site) :
    (allot first found).Pairwise fun c c' => ∀ r, ¬(c.Owns r ∧ c'.Owns r) := by
  induction found with
  | nil => exact .nil
  | cons s rest ih =>
      refine .cons (fun c' hc' r hBoth => ?_) ih
      exact Nat.not_lt_of_le (Nat.le_trans (allot_within hc').2 hBoth.1.1) hBoth.2.2

/-- There is one call for each site. -/
theorem map_site_allot (first : Register) (found : List Site) : (allot first found).map Call.site = found := by
  induction found with
  | nil => rfl
  | cons s rest ih => rw [allot, List.map_cons, ih]

theorem forall_mem_allot (first : Register) {P : Site → Prop} : (∀ c ∈ allot first found, P c.site) ↔ ∀ s ∈ found, P s := by
  rw [← List.forall_mem_map (f := Call.site) (P := P), map_site_allot]

theorem adapt_mapRegisters (τ : Register → Register) (r : Register) (type : Descriptor) :
    (adapt r type).map (Instruction.mapRegisters τ) = adapt (τ r) type := by
  unfold adapt unbox
  split
  · split <;> rfl
  · split <;> rfl

theorem fetch_mapRegisters (τ : Register → Register) (argv index r : Register) (position : Nat) (type : Descriptor) :
    (fetch argv index r position type).map (Instruction.mapRegisters τ) =
      fetch (τ argv) (τ index) (τ r) position type := by
  rw [fetch, List.map_append, adapt_mapRegisters]
  rfl

theorem rebox_mapRegisters (τ : Register → Register) (r : Register) (type : Descriptor) :
    (rebox r type).map (Instruction.mapRegisters τ) = rebox (τ r) type := by
  unfold rebox
  split <;> rfl

/-- Registers are renumbered in a direct call where its own ones are left alone. -/
theorem lower_mapRegisters {receiver argv : Register} (hOwn : ∀ r, c.Owns r → τ r = r) :
    (lower c.site receiver argv c.scratch).map (Instruction.mapRegisters τ) =
      lower c.site (τ receiver) (τ argv) c.scratch := by
  have hScratch {k : Nat} (hk : k < c.site.registerCount) : τ (c.scratch + k) = c.scratch + k :=
    hOwn _ ⟨Nat.le_add_right _ _, Nat.add_lt_add_left hk _⟩
  have hIndex : τ c.scratch = c.scratch := hScratch (k := 0) (Nat.succ_pos _)
  have hSelf : τ (c.scratch + 1) = c.scratch + 1 := hScratch (by unfold Site.registerCount; omega)
  have hParam {k : Nat} (hk : k < c.site.target.params.length) : τ (c.scratch + 2 + k) = c.scratch + 2 + k := by
    rw [Nat.add_assoc]
    exact hScratch (by unfold Site.registerCount; omega)
  have hParams : ((List.range c.site.target.params.length).map fun k => c.scratch + 2 + k).map τ =
      (List.range c.site.target.params.length).map fun k => c.scratch + 2 + k := by
    rw [List.map_map]
    exact List.map_congr_left fun k hk => hParam (List.mem_range.mp hk)
  simp only [lower, List.map_append, rebox_mapRegisters, hIndex]
  congr 2
  · congr 1
    · split
      · rfl
      · simp only [List.map_cons, List.map_nil, Instruction.mapRegisters, hSelf]
    · rw [List.map_flatMap]
      refine List.flatMap_congr fun x hx => ?_
      have hBound : x.2 < c.site.target.params.length := by simpa using (List.mem_zipIdx hx).2.1
      rw [fetch_mapRegisters, hIndex, hParam hBound]
  · rw [List.map_singleton, Instruction.mapRegisters]
    split
    · rw [hParams]
    · rw [List.map_cons, hParams, hSelf]

theorem lower_mapTargets (s : Site) (receiver argv scratch : Register) (f : Address → Address) :
    (lower s receiver argv scratch).map (Instruction.mapTargets f) = lower s receiver argv scratch := by
  have hUses : Uses (fun _ => True) (fun _ => True) (lower s receiver argv scratch) :=
    uses_lower s trivial trivial fun _ _ => ⟨trivial, trivial⟩
  exact (List.map_congr_left fun i hi => Instruction.mapTargets_of_targets_eq_nil (hUses i hi).2.2 f).trans (List.map_id _)

/-- A direct call does not begin with a result. -/
theorem lower_eq_cons (s : Site) (receiver argv scratch : Register) :
    ∃ i rest, lower s receiver argv scratch = i :: rest ∧ ∀ dst, i ≠ .moveResult dst := by
  unfold lower
  split
  · cases hParams : s.target.params with
    | nil => exact ⟨_, _, rfl, by simp⟩
    | cons type params => exact ⟨_, _, rfl, by simp⟩
  · exact ⟨_, _, rfl, by simp⟩

/-- A direct call reads its fresh registers and the two that the reflective one has its receiver and its arguments in, and
writes and casts only its fresh ones. -/
theorem lower_uses (c : Call) (receiver argv : Register) :
    Uses (fun r => c.Owns r ∨ r = receiver ∨ r = argv) c.Owns (lower c.site receiver argv c.scratch) := by
  refine uses_lower c.site (.inr (.inl rfl)) (.inr (.inr rfl)) fun k hk => ?_
  have hOwn : c.Owns (c.scratch + k) := ⟨Nat.le_add_right _ _, Nat.add_lt_add_left hk _⟩
  exact ⟨.inl hOwn, hOwn⟩

/-- The registers of a call are its own. They are locals that nothing has which has been there before, and only they are
written and cast in the direct call, which reads nothing else but where the reflective one has its receiver and its
arguments. -/
structure Call.Fresh (c : Call) (code : Code) (σ : Register → Register) (locals : Nat) : Prop where
  isLocal : ∀ r, c.Owns r → r < locals
  unmentioned : ∀ r, c.Owns r → ∀ i ∈ code, r ∉ (i.mapRegisters σ).reads ++ (i.mapRegisters σ).writes?.toList
  uses : ∀ receiver argv,
    Uses (fun r => c.Owns r ∨ r = receiver ∨ r = argv) c.Owns (lower c.site receiver argv c.scratch)

theorem fresh_of_mem_allot {locals : Nat} (hc : c ∈ allot locals found) (code : Code) :
    c.Fresh code (shiftRegister locals (freshCount found)) (locals + freshCount found) where
  isLocal r hr := Nat.lt_of_lt_of_le hr.2 (allot_within hc).2
  unmentioned r hr i _ hMentioned := by
    obtain ⟨q, rfl⟩ : ∃ q, shiftRegister locals (freshCount found) q = r := by
      rw [Instruction.reads_mapRegisters, Instruction.writes?_mapRegisters] at hMentioned
      rcases List.mem_append.mp hMentioned with hRead | hWritten
      · obtain ⟨q, _, hq⟩ := List.mem_map.mp hRead
        exact ⟨q, hq⟩
      · obtain ⟨q, _, hq⟩ := Option.map_eq_some_iff.mp (Option.mem_toList.mp hWritten)
        exact ⟨q, hq⟩
    obtain ⟨hFirst, hLast⟩ := allot_within hc
    rcases Method.shiftRegister_not_fresh locals (freshCount found) q with hLess | hMore
    · exact absurd hr.1 (Nat.not_le_of_lt (Nat.lt_of_lt_of_le hLess hFirst))
    · exact absurd hr.2 (Nat.not_lt_of_le (Nat.le_trans hLast hMore))
  uses := lower_uses c

end Unreflection

end Dalvik
