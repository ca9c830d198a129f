import JvmClass.Proofs.Codec.Code
import JvmClass.Proofs.Failures
import Mathlib.Data.List.Induction

/-!
# The flow of control

Control enters code at its first instruction, with an empty stack, and at its handlers, with an
exception on the stack. From there it goes on to jump targets and to the next instruction, and takes
the depth of the stack with it. A step of a walk finds just these edges (`Flow.step_eq_ok`), and
fails only where there is no going on (`Flow.step_eq_error`).
-/

namespace JvmClass

/-- Operands are missing. -/
def Error.isUnderflow : Error → Bool
  | .unbalancedStack .. => true
  | _ => false

theorem Error.isUnderflow_of_isLookup {e : Error} (h : e.isLookup = true) :
    e.isUnderflow = false := by
  cases e <;> first | rfl | cases h

namespace Code

open Instruction

/-- Code with all that decides where control goes in it. -/
structure Flow where
  pool : Pool
  code : List Instruction
  offsets : Array Nat
  handlers : List Nat

namespace Flow

section Graph

variable (f : Flow)

/-- The instruction `index` is the one at the offset `target`. An offset that occurs twice is that
of the last index. -/
structure StartsAt (target index : Nat) : Prop where
  offset : f.offsets[index]? = some target
  last : ∀ later, index < later → f.offsets[later]? ≠ some target
  inCode : index < f.code.length

/-- Where control enters, and at what depth. -/
inductive Root : (index depth : Nat) → Prop
  | start : f.code ≠ [] → Root 0 0
  | handler {offset index} : offset ∈ f.handlers → f.StartsAt offset index → Root index 1

/-- Control passes from one instruction to another. -/
inductive Edge : (index next : Nat) → Prop
  | jump {index i target next} : f.code[index]? = some i → target ∈ i.targets →
      f.StartsAt target.toNat next → Edge index next
  | onward {index i} : f.code[index]? = some i → i.opcode.endsBlock = false →
      index + 1 < f.code.length → Edge index (index + 1)

inductive Reachable : (index : Nat) → Prop
  | root {index depth} : f.Root index depth → Reachable index
  | edge {index next} : Reachable index → f.Edge index next → Reachable next

/-- The instruction takes the stack from one depth to another. -/
def Takes (i : Instruction) (depth after : Nat) : Prop :=
  ∃ popped pushed, stackEffect f.pool i = .ok (popped, pushed) ∧ popped.toNat ≤ depth ∧
    after = depth - popped.toNat + pushed.toNat

/-- Control passes from one instruction to another, and brings a depth with it. Behind the call of
a subroutine the return address is gone again. -/
inductive Carries : (index depth next after : Nat) → Prop
  | jump {index i depth after target next} : f.code[index]? = some i → f.Takes i depth after →
      target ∈ i.targets → f.StartsAt target.toNat next → Carries index depth next after
  | onward {index i depth after} : f.code[index]? = some i → f.Takes i depth after →
      i.opcode.endsBlock = false → index + 1 < f.code.length →
      Carries index depth (index + 1) (match i.opcode with
        | .jsr | .jsrW => depth
        | _ => after)

/-- Control reaches an instruction at a depth. -/
inductive Reaches : (index depth : Nat) → Prop
  | root {index depth} : f.Root index depth → Reaches index depth
  | carry {index depth next after} : Reaches index depth → f.Carries index depth next after →
      Reaches next after

/-- The depths of the reachable instructions agree with all roots and with all edges. -/
structure Agrees (depths : Nat → Nat) : Prop where
  root : ∀ {index depth}, f.Root index depth → depths index = depth
  carry : ∀ {index next after}, f.Reachable index → f.Carries index (depths index) next after →
    depths next = after

/-- An instruction that is reached at a depth can be passed: its effect is known, its operands are
there, the stack stays within its limit, and every jump lands on an instruction. -/
def Passable (index depth : Nat) : Prop :=
  ∃ i after, f.code[index]? = some i ∧ f.Takes i depth after ∧ after < 0x10000 ∧
    ∀ target ∈ i.targets, ∃ next, f.StartsAt target.toNat next

/-- The error says that the instruction lacks operands at a depth. -/
def Underflows (index depth : Nat) (e : Error) : Prop :=
  ∃ i popped pushed, f.code[index]? = some i ∧ stackEffect f.pool i = .ok (popped, pushed) ∧
    depth < popped.toNat ∧
    e = .unbalancedStack (f.offsets.getD index 0) i.opcode popped.toNat depth

/-- A depth before or behind an instruction. -/
def DepthAt (depths : Nat → Nat) (index depth : Nat) : Prop :=
  depth = depths index ∨ ∃ i, f.code[index]? = some i ∧ f.Takes i (depths index) depth

/-- What a walk needs to know. -/
def walk : Walk := ⟨f.code.toArray, f.offsets, indexOf f.offsets, f.pool⟩

end Graph

variable {f : Flow} {depths : Nat → Nat}

theorem Takes.unique {i : Instruction} {depth a b : Nat} (ha : f.Takes i depth a)
    (hb : f.Takes i depth b) : a = b := by
  obtain ⟨popped, pushed, he, -, rfl⟩ := ha
  obtain ⟨popped', pushed', he', -, rfl⟩ := hb
  cases he.symm.trans he'
  rfl

theorem StartsAt.unique {target a b : Nat} (ha : f.StartsAt target a) (hb : f.StartsAt target b) :
    a = b := by
  by_contra hne
  rcases Nat.lt_or_gt_of_ne hne with hlt | hlt
  · exact ha.last b hlt hb.offset
  · exact hb.last a hlt ha.offset

theorem Carries.edge {index depth next after : Nat} (h : f.Carries index depth next after) :
    f.Edge index next := by
  cases h with
  | jump hi _ ht hs => exact .jump hi ht hs
  | onward hi _ he hn => exact .onward hi he hn

theorem Reaches.reachable {index depth : Nat} (h : f.Reaches index depth) : f.Reachable index := by
  induction h with
  | root h => exact .root h
  | carry _ h ih => exact .edge ih h.edge

/-- Where the depths agree, there is only one at which an instruction is reached. -/
theorem Agrees.depth_eq (hd : f.Agrees depths) {index depth : Nat} (h : f.Reaches index depth) :
    depths index = depth := by
  induction h with
  | root h => exact hd.root h
  | carry hr h ih => exact hd.carry hr.reachable (ih ▸ h)

theorem Root.inCode {index depth : Nat} (h : f.Root index depth) : index < f.code.length := by
  cases h with
  | start hne => exact List.length_pos_of_ne_nil hne
  | handler _ hs => exact hs.inCode

/-- Two bytes hold the depths at which control enters. -/
theorem Root.exists_toNat_eq {index depth : Nat} (h : f.Root index depth) :
    ∃ word : UInt16, word.toNat = depth := by
  cases h with
  | start => exact ⟨0, rfl⟩
  | handler => exact ⟨1, rfl⟩

theorem Reachable.inCode {index : Nat} (h : f.Reachable index) : index < f.code.length := by
  induction h with
  | root h => exact h.inCode
  | edge _ h _ =>
    cases h with
    | jump _ _ hs => exact hs.inCode
    | onward _ _ hn => exact hn

/-! ## Finding instructions -/

/-- Of the indices of an offset, the last one is found. -/
theorem indexOf_eq_some_iff {starts : Array Nat} {target index : Nat} :
    (indexOf starts)[target]? = some index ↔
      starts[index]? = some target ∧ ∀ later, index < later → starts[later]? ≠ some target := by
  obtain ⟨starts⟩ := starts
  unfold indexOf
  simp only [List.getElem?_toArray]
  induction starts using List.reverseRecOn with
  | nil => simp
  | append_singleton starts last ih =>
    rw [List.zipIdx_append, List.foldl_append]
    simp only [List.zipIdx_singleton, List.foldl_cons, List.foldl_nil, Nat.zero_add]
    rw [Std.HashMap.getElem?_insert]
    by_cases he : last = target
    · subst he
      simp only [beq_self_eq_true, if_true, Option.some.injEq]
      constructor
      · rintro rfl
        refine ⟨by simp, fun later hl => ?_⟩
        rw [List.getElem?_eq_none (by simp; omega)]
        exact (Option.some_ne_none _).symm
      · rintro ⟨hi, hlast⟩
        by_contra hne
        have hlt := (List.getElem?_eq_some_iff.1 hi).1
        rw [List.length_append, List.length_singleton] at hlt
        exact hlast starts.length (by omega) (by simp)
    · simp only [beq_iff_eq, he, if_false, ih]
      have hsame (k : Nat) : (starts ++ [last])[k]? = some target ↔ starts[k]? = some target := by
        rw [List.getElem?_append]
        split
        · rfl
        · rename_i hk
          rw [List.getElem?_eq_none (Nat.le_of_not_lt hk)]
          simp [List.getElem?_singleton, he]
      simp only [ne_eq, hsame]

theorem find_eq_ok {source target index : Nat} :
    f.walk.find source target = .ok index ↔ f.StartsAt target index := by
  unfold Walk.find
  constructor
  · intro h
    split at h
    · rename_i found hfound
      obtain ⟨ho, hl⟩ := indexOf_eq_some_iff.1 hfound
      split at h
      · rename_i hlt
        cases h
        exact ⟨ho, hl, hlt⟩
      · cases h
    · cases h
  · rintro ⟨ho, hl, hlt⟩
    have hfound : f.walk.indices[target]? = some index := indexOf_eq_some_iff.2 ⟨ho, hl⟩
    rw [hfound]
    exact if_pos hlt

theorem find_eq_error {source target : Nat} {e : Error}
    (h : f.walk.find source target = .error e) : e = .invalidBranchTarget source target := by
  unfold Walk.find at h
  split at h
  · split at h
    · cases h
    · exact (Except.error.inj h).symm
  · exact (Except.error.inj h).symm

/-! ## One step -/

theorem depthAfter_eq_ok {offset : Nat} {o : Opcode} {depth popped pushed after : UInt16} :
    depthAfter offset o depth popped pushed = .ok after ↔ popped.toNat ≤ depth.toNat ∧
      after.toNat = depth.toNat - popped.toNat + pushed.toNat := by
  have hafter := after.toNat_lt
  unfold depthAfter
  split
  · rename_i hlt
    rw [UInt16.lt_iff_toNat_lt] at hlt
    simp only [reduceCtorEq, false_iff]
    omega
  · rename_i hge
    rw [UInt16.not_lt] at hge
    rw [UInt16.toNat_sub_of_le _ _ hge]
    rw [UInt16.le_iff_toNat_le] at hge
    simp only
    split
    · rename_i hlt
      rw [Except.ok.injEq, ← UInt16.toNat_inj, UInt16.toNat_ofNat_of_lt' hlt]
      omega
    · simp only [reduceCtorEq, false_iff]
      omega

/-- Arrivals at the places of a list, all at one depth. -/
theorem mapM_find_eq_ok {α : Type} {source target : α → Nat} {depth : UInt16} {places : List α}
    {found : List Arrival} :
    (places.mapM fun a => do
      return Arrival.mk (← f.walk.find (source a) (target a)) depth) = .ok found ↔
      List.Forall₂ (fun a here => f.StartsAt (target a) here.index ∧ here.depth = depth)
        places found := by
  rw [mapM_eq_ok_iff]
  have hplace (a : α) (here : Arrival) :
      (do return Arrival.mk (← f.walk.find (source a) (target a)) depth) = Except.ok here ↔
        f.StartsAt (target a) here.index ∧ here.depth = depth := by
    rw [exceptBind_eq_ok]
    constructor
    · rintro ⟨index, hfind, ⟨⟩⟩
      exact ⟨find_eq_ok.1 hfind, rfl⟩
    · rintro ⟨hs, rfl⟩
      exact ⟨here.index, find_eq_ok.2 hs, rfl⟩
  simp only [hplace]

theorem mapM_find_eq_error {α : Type} {source target : α → Nat} {depth : UInt16} {places : List α}
    {e : Error} (h : (places.mapM fun a => do
      return Arrival.mk (← f.walk.find (source a) (target a)) depth) = .error e) :
    ∃ a ∈ places, (∀ index, ¬f.StartsAt (target a) index) ∧
      e = .invalidBranchTarget (source a) (target a) := by
  obtain ⟨a, ha, he⟩ := mapM_eq_error h
  rcases exceptBind_eq_error.1 he with hfind | ⟨index, -, hno⟩
  · refine ⟨a, ha, fun index hs => ?_, find_eq_error hfind⟩
    rw [find_eq_ok.2 hs] at hfind
    cases hfind
  · cases hno

/-- A step that succeeds passes the instruction, and finds just the edges from it. -/
theorem step_eq_ok {here : Arrival} {i : Instruction} {ways : List Arrival} {after : UInt16}
    (hi : f.code[here.index]? = some i) (h : f.walk.step here i = .ok (ways, after)) :
    f.Takes i here.depth.toNat after.toNat ∧ f.Passable here.index here.depth.toNat ∧
      (∀ way ∈ ways, f.Carries here.index here.depth.toNat way.index way.depth.toNat) ∧
      ∀ next, f.Edge here.index next → ∃ way ∈ ways, way.index = next := by
  unfold Walk.step at h
  obtain ⟨⟨popped, pushed⟩, heffect, h⟩ := exceptBind_eq_ok.1 h
  obtain ⟨after', hafter, h⟩ := exceptBind_eq_ok.1 h
  obtain ⟨jumps, hjumps, h⟩ := exceptBind_eq_ok.1 h
  rw [mapM_find_eq_ok] at hjumps
  obtain ⟨hpop, htotal⟩ := depthAfter_eq_ok.1 hafter
  have hsize : f.walk.code.size = f.code.length := rfl
  rw [hsize] at h
  obtain ⟨hways, rfl⟩ := Prod.mk.inj (Except.ok.inj h)
  have htakes : f.Takes i here.depth.toNat after'.toNat := ⟨popped, pushed, heffect, hpop, htotal⟩
  have hjump : ∀ jump ∈ jumps,
      f.Carries here.index here.depth.toNat jump.index jump.depth.toNat := by
    intro jump hj
    obtain ⟨target, ht, hs, hdepth⟩ := exists_of_forall₂ hjumps jump hj
    rw [hdepth]
    exact .jump hi htakes ht hs
  have hfound : ∀ target ∈ i.targets, ∃ jump ∈ jumps, f.StartsAt target.toNat jump.index := by
    intro target ht
    obtain ⟨jump, hj, hs, -⟩ := exists_of_forall₂ hjumps.flip target ht
    exact ⟨jump, hj, hs⟩
  have honward (hends : i.opcode.endsBlock = false) (hlt : here.index + 1 < f.code.length) :
      f.Carries here.index here.depth.toNat (here.index + 1) (match i.opcode with
        | .jsr | .jsrW => here.depth
        | _ => after').toNat := by
    have hway := Carries.onward hi htakes hends hlt
    split at hway <;> exact hway
  refine ⟨htakes, ⟨i, _, hi, htakes, after'.toNat_lt, fun target ht => ?_⟩, fun way hw => ?_,
    fun next he => ?_⟩
  · obtain ⟨jump, -, hs⟩ := hfound target ht
    exact ⟨jump.index, hs⟩
  · split at hways
    · rename_i hgo
      simp only [Bool.and_eq_true, Bool.not_eq_true', decide_eq_true_eq] at hgo
      subst hways
      rcases List.mem_cons.1 hw with rfl | hw
      · exact honward hgo.1 hgo.2
      · exact hjump way (List.mem_reverse.1 hw)
    · subst hways
      exact hjump way (List.mem_reverse.1 hw)
  · have hsub : ∀ jump ∈ jumps, jump ∈ ways := by
      intro jump hj
      subst hways
      split
      · exact List.mem_cons_of_mem _ (List.mem_reverse.2 hj)
      · exact List.mem_reverse.2 hj
    cases he with
    | jump hi' ht hs =>
      cases hi.symm.trans hi'
      obtain ⟨jump, hj, hs'⟩ := hfound _ ht
      exact ⟨jump, hsub jump hj, hs'.unique hs⟩
    | onward hi' hends hlt =>
      cases hi.symm.trans hi'
      rw [if_pos (by simp [hends, hlt])] at hways
      subst hways
      exact ⟨_, List.mem_cons_self, rfl⟩

/-- A step fails only at an instruction that cannot be passed. -/
theorem step_eq_error {here : Arrival} {i : Instruction} {e : Error}
    (hi : f.code[here.index]? = some i) (h : f.walk.step here i = .error e) :
    ¬f.Passable here.index here.depth.toNat ∧
      (e.isUnderflow = true → f.Underflows here.index here.depth.toNat e) := by
  unfold Walk.step at h
  rcases exceptBind_eq_error.1 h with heffect | ⟨⟨popped, pushed⟩, heffect, h⟩
  · refine ⟨?_, fun hu => ?_⟩
    · rintro ⟨i', after, hi', ⟨popped, pushed, he, -⟩, -⟩
      cases hi.symm.trans hi'
      cases heffect.symm.trans he
    · rw [Error.isUnderflow_of_isLookup (looksUp_stackEffect i e heffect)] at hu
      cases hu
  rcases exceptBind_eq_error.1 h with hafter | ⟨after, hafter, h⟩
  · refine ⟨?_, fun hu => ⟨i, popped, pushed, hi, heffect, ?_⟩⟩
    · rintro ⟨i', after, hi', ⟨popped', pushed', he, hpop, htotal⟩, hlimit, -⟩
      cases hi.symm.trans hi'
      cases heffect.symm.trans he
      have hword : (UInt16.ofNat after).toNat = here.depth.toNat - popped.toNat + pushed.toNat := by
        rw [UInt16.toNat_ofNat_of_lt' hlimit, htotal]
      rw [depthAfter_eq_ok.2 ⟨hpop, hword⟩] at hafter
      cases hafter
    · unfold depthAfter at hafter
      split at hafter
      · rename_i hlt
        cases hafter
        exact ⟨UInt16.lt_iff_toNat_lt.1 hlt, rfl⟩
      · dsimp only at hafter
        split at hafter
        · cases hafter
        · cases hafter
          cases hu
  rcases exceptBind_eq_error.1 h with hjumps | ⟨jumps, -, h⟩
  · obtain ⟨target, ht, hno, rfl⟩ := mapM_find_eq_error hjumps
    refine ⟨?_, nofun⟩
    rintro ⟨i', after, hi', -, -, hall⟩
    cases hi.symm.trans hi'
    obtain ⟨next, hs⟩ := hall target ht
    exact hno next hs
  · cases h

end Flow

end Code

end JvmClass
