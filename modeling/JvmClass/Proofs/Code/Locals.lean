import JvmClass.Proofs.Code.Labels
import JvmClass.Proofs.Descriptors

/-!
# Local variables of emitted code

The number of local variables of emitted code covers the parameters and each local variable that
its bytes are read to work on, with one exception: an operation with its slot in itself, such as
`iload_3`, is not counted if it is emitted as an operation without operands (`emit_maxLocals`).
-/

namespace JvmClass

/-- The instruction works on no slot from `locals` on. -/
def Instruction.Within (locals : Nat) : Instruction → Prop
  | access o slot _ => slot.toNat + o.localSlots?.getD 1 ≤ locals
  | increment slot _ _ => slot.toNat + 1 ≤ locals
  | _ => True

/-- Only an operation with its slot in itself is read in another form. -/
theorem Instruction.exists_of_asRead_ne {i : Instruction} (h : i.asRead ≠ i) :
    ∃ o, o.implicitSlot?.isSome = true ∧ i = .simple o := by
  cases i with
  | simple o =>
    refine ⟨o, ?_, rfl⟩
    by_contra hnone
    rw [Bool.not_eq_true, Option.isSome_eq_false_iff, Option.isNone_iff_eq_none] at hnone
    rw [asRead, hnone] at h
    exact h rfl
  | _ => exact absurd rfl h

namespace Code

open Emit Instruction

theorem within_iff {locals : Nat} {i : Instruction} :
    i.Within locals ↔ ∀ last, localsEnd? i = some last → last ≤ locals := by
  cases i <;> simp [Within, localsEnd?]

theorem maxLocals_spec {code : List Instruction} {initial locals : UInt16}
    (h : maxLocals code initial = .ok locals) :
    initial.toNat ≤ locals.toNat ∧ ∀ i ∈ code, i.Within locals.toNat := by
  obtain ⟨-, -, hupper⟩ := maxLocals_eq_ok h
  refine ⟨hupper (Set.mem_insert ..), fun i hi => within_iff.2 fun last hlast => ?_⟩
  exact hupper (Set.mem_insert_of_mem _ ⟨i, hi, hlast⟩)

theorem maxLocals_of_maxima {p : Pool} {code : List Instruction} {starts : Array Nat}
    {handlers : List Nat} {initial stack locals : UInt16}
    (h : maxima p code starts handlers initial = .ok (stack, locals)) :
    maxLocals code initial = .ok locals := by
  obtain ⟨caught, -, h⟩ := exceptBind_eq_ok.1 h
  obtain ⟨deepest, -, h⟩ := exceptBind_eq_ok.1 h
  obtain ⟨most, hmost, h⟩ := exceptBind_eq_ok.1 h
  cases h
  exact hmost

theorem localAccess_ne_simple (forms : Opcode × Opcode) (slot : UInt16) (o : Opcode) :
    localAccess forms slot ≠ .simple o := by
  unfold localAccess
  dsimp only
  split
  · split <;> exact nofun
  · exact nofun

/-- An operation with its slot in itself and no operands comes from the command that says so. -/
theorem Emits.eq_op {pool : GrowingPool} {c : Command} {i : Instruction} {o : Opcode}
    (h : Emits pool c i) (hi : i = .simple o) (ho : o.implicitSlot?.isSome = true) : c = .op o := by
  cases h with
  | op =>
    cases hi
    rfl
  | smallInt hsmall =>
    cases hi
    unfold smallInt? at hsmall
    split at hsmall <;> cases hsmall <;> cases ho
  | load | store => exact absurd hi (localAccess_ne_simple _ _ o)
  | _ => cases hi

theorem op_mem_of_assemble {g : GrowingPool} {commands : List Command} {e : Emission}
    {a : Assembled} {o : Opcode} (he : e.Records g commands)
    (ha : assemble e.instructions.toList (bound e.labels) = .ok a)
    (hi : .simple o ∈ a.instructions) (ho : o.implicitSlot?.isSome = true) : .op o ∈ commands := by
  obtain ⟨i, hi, hplaced⟩ := exists_of_forall₂ (retargeted_of_assemble ha).2 _ hi
  cases hplaced
  obtain ⟨before, pool, c, hc, hemits⟩ := he.instructions.exists_of_mem _ hi
  rwa [hemits.eq_op rfl ho] at hc

/-- The local variables of emitted code. The bytes of the code are read as its instructions, but
for operations with their slot in themselves, which `op` emits without it and which are not
counted. All others work on slots below the number of local variables. The receiver and the
parameters are below it, too, as far as two bytes can count them. -/
theorem emit_maxLocals {P : Symbol → Prop} (hP : Symbol.Named P) {commands : List Command}
    (hcommands : ∀ c ∈ commands, c.IsComplete) {isStatic : Bool} {descriptor : String}
    {g g' : GrowingPool} {body : CodeBody} (hg : g.Inv P)
    (h : emit commands isStatic descriptor g = .ok body g') :
    ∃ type bytes code, MethodType.parse descriptor = .ok type ∧
      reassemble body.instructions =
        .ok ⟨bytes, offsets body.instructions, body.instructions⟩ ∧
      decode g'.pool bytes = .ok code ∧
      (type.slotCount + if isStatic then 0 else 1) % 0x10000 ≤ body.maxLocals.toNat ∧
      List.Forall₂ (fun i j => j = i ∧ j.Within body.maxLocals.toNat ∨
          ∃ o, .op o ∈ commands ∧ o.implicitSlot?.isSome = true ∧ i = .simple o ∧ j = i.asRead)
        body.instructions code := by
  have hlaid := (emit_spec hP hcommands hg h).laidOut
  obtain ⟨bytes, hbytes, hread⟩ := hlaid.reassemble_asRead
  obtain ⟨hdecode, -⟩ := decode_of_reassemble hlaid.fits_asRead hlaid.lands_asRead hread
  obtain ⟨e, e', hrun, hfinish, rfl⟩ := emit_eq_ok.1 h
  obtain ⟨ha, -, htype, hmaxima, -, -, -⟩ := finishes_of_finish hfinish
  rename_i a handlers type stack locals lines e1 rows tables
  obtain ⟨hparameters, hwithin⟩ := maxLocals_spec (maxLocals_of_maxima hmaxima)
  have hreceiver : (if isStatic then 0 else 1 : UInt16).toNat = if isStatic then 0 else 1 := by
    cases isStatic <;> rfl
  rw [type.toNat_parameterSlots_add, hreceiver] at hparameters
  refine ⟨type, bytes, _, htype, hbytes, hdecode, hparameters, ?_⟩
  refine List.forall₂_map_right_iff.2 (List.forall₂_same.2 fun i hi => ?_)
  by_cases hsame : i.asRead = i
  · rw [hsame]
    exact .inl ⟨rfl, hwithin i hi⟩
  · obtain ⟨o, ho, rfl⟩ := exists_of_asRead_ne hsame
    exact .inr ⟨o, op_mem_of_assemble (records_of_run hrun) ha hi ho, ho, rfl, rfl⟩

/-! ### Slots that are counted -/

def counted : List Command := [.load .long 2, .op .pop2, .increment 300 1, .op .vreturn]

def countedCode : CodeBody where
  maxStack := 2
  maxLocals := 301
  instructions := [.access .lload2 2 false, .simple .pop2, .increment 300 1 true, .simple .vreturn]
  handlers := []
  attributes := []

theorem emit_maxLocals_counted :
    emit counted false "(JI)V" .empty = .ok countedCode .empty ∧
      ∃ type bytes code, MethodType.parse "(JI)V" = .ok type ∧
        reassemble countedCode.instructions =
          .ok ⟨bytes, offsets countedCode.instructions, countedCode.instructions⟩ ∧
        decode .empty bytes = .ok code ∧ type.slotCount + 1 ≤ countedCode.maxLocals.toNat := by
  have hcomplete : ∀ c ∈ counted, c.IsComplete := by
    simp only [counted, List.forall_mem_cons, List.not_mem_nil, false_implies, implies_true,
      and_true]
    exact ⟨trivial, rfl, trivial, rfl⟩
  have hemit : emit counted false "(JI)V" .empty = .ok countedCode .empty := by rfl
  obtain ⟨type, bytes, code, htype, hbytes, hdecode, hparameters, -⟩ :=
    emit_maxLocals Symbol.named_isValid hcomplete GrowingPool.inv_empty hemit
  have hparsed : MethodType.parse "(JI)V" = .ok ⟨[.long, .int], none⟩ := by rfl
  cases htype.symm.trans hparsed
  exact ⟨hemit, _, bytes, code, htype, hbytes, hdecode, hparameters⟩

/-! ### A slot that is not counted -/

/-- The first operation loads the local variable three. -/
def uncounted : List Command := [.op .iload3, .op .pop, .op .vreturn]

def uncountedCode : CodeBody where
  maxStack := 1
  maxLocals := 0
  instructions := [.simple .iload3, .simple .pop, .simple .vreturn]
  handlers := []
  attributes := []

theorem emit_uncounted :
    (∀ c ∈ uncounted, c.IsComplete) ∧ emit uncounted true "()V" .empty = .ok uncountedCode .empty ∧
      ∃ bytes code, reassemble uncountedCode.instructions =
          .ok ⟨bytes, offsets uncountedCode.instructions, uncountedCode.instructions⟩ ∧
        decode .empty bytes = .ok code ∧ .access .iload3 3 false ∈ code ∧
        uncountedCode.maxLocals.toNat < 3 + 1 := by
  have hcomplete : ∀ c ∈ uncounted, c.IsComplete := by
    simp only [uncounted, List.forall_mem_cons, List.not_mem_nil, false_implies, implies_true,
      and_true]
    exact ⟨rfl, rfl, rfl⟩
  exact ⟨hcomplete, rfl, [0x1D, 0x57, 0xB1],
    [.access .iload3 3 false, .simple .pop, .simple .vreturn], rfl, rfl, List.mem_cons_self,
    by decide⟩

end Code

end JvmClass
