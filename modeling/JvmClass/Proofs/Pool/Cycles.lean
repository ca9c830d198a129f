import JvmClass.Proofs.Pool.Validity

/-!
# Cycles among dynamic constants

The check of the bootstrap methods accepts a pool exactly if every bootstrap index is in range,
every bootstrap method refers to entries in their roles, and no dynamic constant depends on itself.
If only the last fails, the entry that is reported lies on a cycle. The search is bounded by the
number of slots; `Explores` is the same search without a bound, and it ends, too, with the same
answer.
-/

namespace JvmClass.Pool

/-! ## The search without a bound -/

/-- Working off the tasks, however many entries are entered on the way, ends with this answer. -/
inductive Explores (p : Pool) (bootstrap : Array BootstrapMethod) :
    List Task → Array Visit → Except Error (Array Visit) → Prop
  | finished {tasks visits visits'} : p.workOff tasks visits = .finished visits' →
      Explores p bootstrap tasks visits (.ok visits')
  | cycle {tasks visits entry} : p.workOff tasks visits = .cycle entry →
      Explores p bootstrap tasks visits (.error (.malformedConstant entry .dependsOnItself))
  | enter {tasks visits entry tasks' visits' answer} :
      p.workOff tasks visits = .enter entry tasks' visits' →
      Explores p bootstrap
        ((p.dynamicArguments bootstrap entry).map .follow ++ .leave entry :: tasks')
        (visits'.setIfInBounds entry.toNat .active) answer →
      Explores p bootstrap tasks visits answer

/-- Exploring from one root after the other ends with this answer. -/
inductive ExploresAll (p : Pool) (bootstrap : Array BootstrapMethod) :
    List UInt16 → Array Visit → Except Error (Array Visit) → Prop
  | nil {visits} : ExploresAll p bootstrap [] visits (.ok visits)
  | next {root roots visits visits' answer} :
      Explores p bootstrap [.follow root] visits (.ok visits') →
      ExploresAll p bootstrap roots visits' answer →
      ExploresAll p bootstrap (root :: roots) visits answer
  | fails {root roots visits e} : Explores p bootstrap [.follow root] visits (.error e) →
      ExploresAll p bootstrap (root :: roots) visits (.error e)

/-- The whole search ends, and with this answer. -/
def Searches (p : Pool) (bootstrap : Array BootstrapMethod) (answer : Except Error Unit) : Prop :=
  ∃ found, p.ExploresAll bootstrap ((p.usable.filter fun (_, c) => c.isDynamic).map Prod.fst)
    (Array.replicate (p.size + 1) .unseen) found ∧ answer = found.map fun _ => ()

section Explore

variable {p : Pool} {bootstrap : Array BootstrapMethod}

/-- A budget of more than what may be entered is as good as none. What may be entered grows less
with every entry. -/
theorem explores_explore (p : Pool) (bootstrap : Array BootstrapMethod) {budget : Nat}
    (tasks : List Task) {visits : Array Visit} (hb : pending visits < budget) :
    p.Explores bootstrap tasks visits (p.explore bootstrap budget tasks visits) ∧
      ∀ visits', p.explore bootstrap budget tasks visits = .ok visits' →
        pending visits' ≤ pending visits := by
  induction budget generalizing tasks visits with
  | zero => omega
  | succ budget ih =>
    have hpending := workOff_pending (p := p) tasks visits
    rw [explore]
    cases hw : p.workOff tasks visits with
    | finished visits' =>
      rw [hw] at hpending
      refine ⟨.finished hw, ?_⟩
      rintro _ ⟨⟩
      exact hpending
    | cycle entry =>
      refine ⟨.cycle hw, ?_⟩
      rintro _ ⟨⟩
    | enter entry tasks' visits' =>
      rw [hw] at hpending
      obtain ⟨hle, hne, -, hunseen⟩ := hpending
      have hlt := pending_set_lt hne hunseen
      obtain ⟨hrest, hbound⟩ := ih
        ((p.dynamicArguments bootstrap entry).map .follow ++ .leave entry :: tasks')
        (by omega : pending (visits'.setIfInBounds entry.toNat .active) < budget)
      refine ⟨.enter hw hrest, fun visits'' hok => ?_⟩
      have := hbound visits'' hok
      omega

theorem exploresAll_foldlM {roots : List (UInt16 × Constant)} {visits : Array Visit}
    (hb : pending visits < p.size + 1) :
    p.ExploresAll bootstrap (roots.map Prod.fst) visits (roots.foldlM (fun visits (root, _) =>
      p.explore bootstrap (p.size + 1) [.follow root] visits) visits) := by
  induction roots generalizing visits with
  | nil => exact .nil
  | cons root roots ih =>
    obtain ⟨root, c⟩ := root
    obtain ⟨hroot, hbound⟩ := explores_explore p bootstrap [.follow root] hb
    rw [List.foldlM_cons, List.map_cons]
    dsimp only
    cases hfirst : p.explore bootstrap (p.size + 1) [.follow root] visits with
    | error e => exact .fails (hfirst ▸ hroot)
    | ok visits' =>
      have hle := hbound visits' hfirst
      exact .next (hfirst ▸ hroot) (ih (by omega))

/-- The bound of the search is never felt. -/
theorem searches_checkAcyclic : p.Searches bootstrap (p.checkAcyclic bootstrap) := by
  have hb : pending (Array.replicate (p.size + 1) .unseen) < p.size + 1 := by simp [pending]
  refine ⟨_, exploresAll_foldlM hb, ?_⟩
  unfold checkAcyclic
  dsimp only
  cases (p.usable.filter fun (_, c) => c.isDynamic).foldlM (fun visits (root, _) =>
    p.explore bootstrap (p.size + 1) [.follow root] visits)
    (Array.replicate (p.size + 1) Visit.unseen) <;> rfl

/-- The search succeeds, or reports an entry that depends on itself. -/
theorem checkAcyclic_cases (p : Pool) (bootstrap : Array BootstrapMethod) :
    p.checkAcyclic bootstrap = .ok () ∨ ∃ entry,
      p.checkAcyclic bootstrap = .error (.malformedConstant entry .dependsOnItself) ∧
        Relation.TransGen (p.DependsOn bootstrap) entry entry := by
  have hlower : ∀ entry, ∀ argument ∈ p.dynamicArguments bootstrap entry,
      p.isDynamicAt argument = true → Relation.TransGen (p.DependsOn bootstrap) entry argument :=
    fun _ _ harg hdynamic => .single ⟨harg, hdynamic⟩
  have hspec := checkAcyclic_spec hlower fun hab hbc => hbc.trans hab
  exact hspec

theorem checkAcyclic_eq_ok_iff (hp : p.size < 0x10000) :
    p.checkAcyclic bootstrap = .ok () ↔ p.IsAcyclic bootstrap := by
  refine ⟨isAcyclic_of_checkAcyclic hp, fun h => ?_⟩
  rcases checkAcyclic_cases p bootstrap with hok | ⟨entry, -, hcycle⟩
  · exact hok
  · exact absurd hcycle (h entry)

end Explore

/-! ## The check of the bootstrap methods -/

/-- The check accepts exactly what it should, its search ends without a bound, and where indices
and roles are right the entry it reports depends on itself. -/
theorem validateBootstrap_decides {p : Pool} (hp : p.size < 0x10000)
    (methods : List BootstrapMethod) :
    p.Searches methods.toArray (p.checkAcyclic methods.toArray) ∧
      (p.validateBootstrap methods = .ok () ↔ p.BootstrapInRange methods ∧
        (∀ m ∈ methods, p.HoldsBootstrap m) ∧ p.IsAcyclic methods.toArray) ∧
      (p.BootstrapInRange methods → (∀ m ∈ methods, p.HoldsBootstrap m) →
        ∀ e, p.validateBootstrap methods = .error e →
          ∃ entry, e = .malformedConstant entry .dependsOnItself ∧
            Relation.TransGen (p.DependsOn methods.toArray) entry entry) := by
  refine ⟨searches_checkAcyclic, ?_, fun hrange hroles e he => ?_⟩
  · rw [validateBootstrap_eq_ok hp, checkAcyclic_eq_ok_iff hp]
  · rw [validateBootstrap_eq hp hrange hroles] at he
    rcases checkAcyclic_cases p methods.toArray with hok | ⟨entry, hcycle, hd⟩
    · rw [hok] at he
      cases he
    · rw [hcycle] at he
      cases he
      exact ⟨entry, rfl, hd⟩

/-- Two constants, each computed from the other, behind one that is computed from both. -/
def entangled : Pool := ⟨#[.methodHandle 6 1, .dynamic 0 1, .dynamic 1 1, .dynamic 2 1]⟩

def entangledMethods : List BootstrapMethod := [⟨1, [3, 4]⟩, ⟨1, [1, 4]⟩, ⟨1, [3]⟩]

theorem validateBootstrap_decides_entangled :
    entangled.size < 0x10000 ∧ entangled.BootstrapInRange entangledMethods ∧
      (∀ m ∈ entangledMethods, entangled.HoldsBootstrap m) ∧
      entangled.validateBootstrap entangledMethods =
        .error (.malformedConstant 3 .dependsOnItself) ∧
      Relation.TransGen (entangled.DependsOn entangledMethods.toArray) 3 3 := by
  have hrange : entangled.BootstrapInRange entangledMethods := by
    intro i c m hc hm
    have hmem : c ∈ entangled.slots.toList := List.mem_of_getElem? (get?_eq_some_iff.1 hc).2
    simp only [entangled, List.mem_cons, List.not_mem_nil, or_false] at hmem
    rcases hmem with rfl | rfl | rfl | rfl <;> cases hm <;> decide
  have hroles : ∀ m ∈ entangledMethods, entangled.HoldsBootstrap m := by
    have hhandle : entangled.Holds .methodHandle 1 := ⟨_, rfl, rfl⟩
    have harguments : ∀ a ∈ [1, 3, 4], entangled.Holds .bootstrapArgument a := by
      simp only [List.forall_mem_cons]
      exact ⟨⟨_, rfl, rfl⟩, ⟨_, rfl, rfl⟩, ⟨_, rfl, rfl⟩, nofun⟩
    have hsubset : ∀ m ∈ entangledMethods, m.method = 1 ∧ m.arguments ⊆ [1, 3, 4] := by decide
    intro m hm
    obtain ⟨hmethod, hknown⟩ := hsubset m hm
    exact ⟨hmethod ▸ hhandle, fun a ha => harguments a (hknown ha)⟩
  have herror : entangled.validateBootstrap entangledMethods =
      .error (.malformedConstant 3 .dependsOnItself) := rfl
  have hsize : entangled.size < 0x10000 := by decide
  obtain ⟨-, -, hcycle⟩ := validateBootstrap_decides hsize entangledMethods
  obtain ⟨_, ⟨⟩, hself⟩ := hcycle hrange hroles _ herror
  exact ⟨hsize, hrange, hroles, herror, hself⟩

end JvmClass.Pool
