import JvmClass.Proofs.Code.Growth
import JvmClass.Proofs.Descriptors
import JvmClass.Proofs.Pool.Validity

/-!
# Calls of interface methods

A call of an interface method states how many slots its receiver and its parameters take. The same
number is found again from the pool, when the depth of the stack is computed (`stackEffect`). The
call has one byte for it, the computation two, and the call is emitted also where a byte is too
small: the two agree exactly where the slots that are popped fit in a byte.
-/

namespace JvmClass

/-- The count of a call, in its byte. -/
theorem MethodType.toNat_callCount (m : MethodType) :
    (m.parameterSlots + 1).toUInt8.toNat = (m.slotCount + 1) % 0x100 := by
  rw [UInt16.toNat_toUInt8, m.toNat_parameterSlots_add]
  exact Nat.mod_mod_of_dvd _ (by decide)

namespace ImportSource

variable {S : ImportSource} {i : UInt16}

theorem Denotes.nameAndType {name descriptor : String}
    (h : S.Denotes i (.nameAndType name descriptor)) :
    S.pool.nameAndType i = .ok (name, descriptor) := by
  obtain ⟨c, is, parts, hc, -, his, hparts, e⟩ := denotes_iff.1 h
  cases c <;> cases e
  cases his
  obtain ⟨hname, hparts⟩ := List.forall₂_cons.1 hparts
  obtain ⟨hdescriptor, -⟩ := List.forall₂_cons.1 hparts
  refine (exceptBind_run (Pool.get_eq_ok.2 hc)).trans ?_
  refine exceptBind_eq_ok.2 ⟨name, Pool.text_eq_ok.2 (denotes_text_iff.1 hname), ?_⟩
  exact exceptBind_eq_ok.2 ⟨descriptor, Pool.text_eq_ok.2 (denotes_text_iff.1 hdescriptor), rfl⟩

theorem Denotes.memberName {m : MemberName} (h : S.Denotes i
    (.node (.interfaceMethodRef 0 0) [.classRef m.owner, .nameAndType m.name m.descriptor])) :
    S.pool.memberName i = .ok m := by
  obtain ⟨c, is, parts, hc, -, his, hparts, e⟩ := denotes_iff.1 h
  cases c <;> cases e
  cases his
  obtain ⟨howner, hparts⟩ := List.forall₂_cons.1 hparts
  obtain ⟨hmember, -⟩ := List.forall₂_cons.1 hparts
  refine (exceptBind_run (Pool.get_eq_ok.2 hc)).trans ?_
  refine exceptBind_eq_ok.2 ⟨_, hmember.nameAndType, ?_⟩
  exact exceptBind_eq_ok.2 ⟨m.owner, howner.className, rfl⟩

end ImportSource

namespace Grow

/-- A reference to a method is entered if its texts can be written and there is room for all that
it may need. -/
theorem interfaceMethodRef_succeeds {g : GrowingPool} {m : MemberName}
    (howner : (Text.encode m.owner).length < 0x10000)
    (hname : (Text.encode m.name).length < 0x10000)
    (hdescriptor : (Text.encode m.descriptor).length < 0x10000)
    (hfit : g.pool.size + 6 < 0xFFFF) : ∃ j g', interfaceMethodRef m g = .ok j g' := by
  obtain ⟨owner, g1, h1, s1⟩ := text_succeeds howner (g := g) (by omega)
  obtain ⟨ownerRef, g2, h2, (s2 : g2.pool.size ≤ g1.pool.size + 1)⟩ :=
    add_succeeds (c := .classRef owner) (g := g1) rfl (by change _ + 1 < _; omega)
  obtain ⟨name, g3, h3, s3⟩ := text_succeeds hname (g := g2) (by omega)
  obtain ⟨descriptor, g4, h4, s4⟩ := text_succeeds hdescriptor (g := g3) (by omega)
  obtain ⟨member, g5, h5, (s5 : g5.pool.size ≤ g4.pool.size + 1)⟩ :=
    add_succeeds (c := .nameAndType name descriptor) (g := g4) rfl (by change _ + 1 < _; omega)
  obtain ⟨index, g6, h6, -⟩ := add_succeeds (c := .interfaceMethodRef ownerRef member) (g := g5) rfl
    (by change _ + 1 < _; omega)
  have howner : classRef m.owner g = .ok ownerRef g2 := (bind_run h1).trans h2
  have hmember : nameAndType m.name m.descriptor g2 = .ok member g5 :=
    (bind_run h3).trans ((bind_run h4).trans h5)
  exact ⟨index, g6, (bind_run howner).trans ((bind_run hmember).trans h6)⟩

end Grow

namespace Code.Emit

/-- What is emitted for a call of an interface method. -/
theorem callInterface_eq_ok {m : MemberName} {e e' : Emission} :
    command (.callInterface m) e = .ok () e' ↔
      ∃ type index pool, MethodType.parse m.descriptor = .ok type ∧
        Grow.interfaceMethodRef m e.pool = .ok index pool ∧
        e' = { e with
          pool := pool
          instructions := e.instructions.push
            (.invokeInterface index (type.parameterSlots + 1).toUInt8) } := by
  constructor
  · intro h
    obtain ⟨type, e1, hparse, hrest⟩ := bind_eq_ok.1 h
    obtain ⟨htype, rfl⟩ := ofExcept_eq_ok.1 hparse
    obtain ⟨index, e2, hgrow, hlast⟩ := bind_eq_ok.1 hrest
    obtain ⟨pool, hpool, rfl⟩ := grow_eq_ok.1 hgrow
    cases hlast
    exact ⟨type, index, pool, htype, hpool, rfl⟩
  · rintro ⟨type, index, pool, htype, hpool, rfl⟩
    refine bind_eq_ok.2 ⟨type, e, ofExcept_eq_ok.2 ⟨htype, rfl⟩, ?_⟩
    exact bind_eq_ok.2 ⟨index, _, grow_eq_ok.2 ⟨pool, hpool, rfl⟩, rfl⟩

/-- A call is emitted for every method that can be named, however many slots it has. -/
theorem callInterface_succeeds {m : MemberName} {type : MethodType} {e : Emission}
    (htype : MethodType.parse m.descriptor = .ok type)
    (howner : (Text.encode m.owner).length < 0x10000)
    (hname : (Text.encode m.name).length < 0x10000)
    (hdescriptor : (Text.encode m.descriptor).length < 0x10000)
    (hfit : e.pool.pool.size + 6 < 0xFFFF) : ∃ e', command (.callInterface m) e = .ok () e' := by
  obtain ⟨index, pool, hpool⟩ := Grow.interfaceMethodRef_succeeds howner hname hdescriptor hfit
  exact ⟨_, callInterface_eq_ok.2 ⟨type, index, pool, htype, hpool, rfl⟩⟩

end Code.Emit

namespace Code

open Emit

/-- What the call of a method pops and pushes, by what its index stands for. -/
theorem stackEffect_invokeInterface {S : ImportSource} {m : MemberName} {type : MethodType}
    {index : UInt16} (hindex : S.Denotes index
      (.node (.interfaceMethodRef 0 0) [.classRef m.owner, .nameAndType m.name m.descriptor]))
    (htype : MethodType.parse m.descriptor = .ok type) (count : UInt8) :
    stackEffect S.pool (.invokeInterface index count) =
      .ok (type.parameterSlots + 1, type.resultSlots) :=
  exceptBind_eq_ok.2 ⟨m, hindex.memberName, exceptBind_eq_ok.2 ⟨type, htype, rfl⟩⟩

/-- The count of a call is the number of slots of its receiver and its parameters, as far as a byte
can tell, and the call pops that number, as far as two bytes can. -/
theorem callInterface_count {P : Symbol → Prop} (hP : Symbol.Named P) {g : GrowingPool}
    (hg : g.Inv P) {commands : List Command} {e e' : Emission}
    (hrun : commands.forM command (.start g) = .ok () e) {m : MemberName}
    (h : command (.callInterface m) e = .ok () e') :
    ∃ type index count popped, MethodType.parse m.descriptor = .ok type ∧
      e'.instructions = e.instructions.push (.invokeInterface index count) ∧
      (∀ S, e'.pool.source ≤ S → S.pool.memberName index = .ok m ∧
        stackEffect S.pool (.invokeInterface index count) = .ok (popped, type.resultSlots)) ∧
      popped.toNat = (type.slotCount + 1) % 0x10000 ∧
      count.toNat = (type.slotCount + 1) % 0x100 ∧
      (count.toNat = type.slotCount + 1 ↔ type.slotCount + 1 < 0x100) ∧
      (count.toNat = popped.toNat ↔ popped.toNat < 0x100) := by
  have hinv := (keeps_forM (keeps_command hP) commands _ _ _ hg hrun).inv
  obtain ⟨type, index, pool, htype, hpool, rfl⟩ := callInterface_eq_ok.1 h
  obtain ⟨-, hindex⟩ := Grow.enters_interfaceMethodRef hP m _ _ _ hinv hpool
  have hpopped : (type.parameterSlots + 1).toNat = (type.slotCount + 1) % 0x10000 :=
    type.toNat_parameterSlots_add 1
  have hcount := type.toNat_callCount
  refine ⟨type, index, _, _, htype, rfl, fun S hle => ?_, hpopped, hcount, ?_, ?_⟩
  · have hstays := hindex.mono hle
    exact ⟨hstays.memberName, stackEffect_invokeInterface hstays htype _⟩
  · rw [hcount]
    omega
  · rw [hcount, hpopped]
    omega

/-! ### A count that fits -/

def fewParameters : MemberName := ⟨"I", "m", "(JI[J)D"⟩

/-- The receiver of the call is pushed. -/
def withReceiver : Emission := ⟨.empty, #[.simple .aconstNull], #[], #[], #[], #[]⟩

theorem callInterface_count_few :
    [Command.op .aconstNull].forM command (.start .empty) = .ok () withReceiver ∧
      ∃ e index, command (.callInterface fewParameters) withReceiver = .ok () e ∧
        e.instructions = #[.simple .aconstNull, .invokeInterface index 5] ∧
        stackEffect e.pool.pool (.invokeInterface index 5) = .ok (5, 2) := by
  have hparse : MethodType.parse "(JI[J)D" = .ok ⟨[.long, .int, .array .long], some .double⟩ := by
    rfl
  have hrun : [Command.op .aconstNull].forM command (.start .empty) = .ok () withReceiver := rfl
  obtain ⟨e, he⟩ := callInterface_succeeds (m := fewParameters) (e := withReceiver) hparse
    (by decide) (by decide) (by decide) (by decide)
  obtain ⟨type, index, count, popped, htype, hemitted, hpool, hpopped, hcount, -⟩ :=
    callInterface_count Symbol.named_isValid GrowingPool.inv_empty hrun he
  cases htype.symm.trans hparse
  obtain rfl : popped = 5 := UInt16.toNat_inj.1 hpopped
  obtain rfl : count = 5 := UInt8.toNat_inj.1 hcount
  exact ⟨hrun, e, index, he, hemitted, (hpool _ (le_refl _)).2⟩

/-! ### A count that does not fit -/

/-- A method whose parameters take one slot more than fits beside the receiver. -/
def manyParameters : MethodType := ⟨List.replicate 255 .int, none⟩

theorem parse_manyParameters : MethodType.parse manyParameters.text = .ok manyParameters := by
  have hscan : MethodType.scan? manyParameters.text.toList = some manyParameters := by
    refine MethodType.scan?_eq_some_iff.2 ⟨⟨fun t ht => ?_, nofun⟩, rfl⟩
    rw [List.eq_of_mem_replicate ht]
    exact nofun
  rw [MethodType.parse, hscan]

theorem slotCount_manyParameters : manyParameters.slotCount = 255 := by
  rw [MethodType.slotCount, manyParameters, List.length_replicate, List.countP_replicate]
  rfl

/-- The call pops 256 slots and states that it pops none. -/
theorem callInterface_uncounted :
    MethodType.parse manyParameters.text = .ok manyParameters ∧
      manyParameters.slotCount = 255 ∧ ∃ e index,
        command (.callInterface ⟨"I", "m", manyParameters.text⟩) (.start .empty) = .ok () e ∧
        e.instructions = #[.invokeInterface index 0] ∧
        stackEffect e.pool.pool (.invokeInterface index 0) = .ok (256, 0) := by
  have hparse := parse_manyParameters
  have hlength : (Text.encode manyParameters.text).length < 0x10000 := by
    rw [Text.encode, Text.units, MethodType.toList_text]
    decide +kernel
  obtain ⟨e, he⟩ := callInterface_succeeds (m := ⟨"I", "m", manyParameters.text⟩)
    (e := .start .empty) hparse (by decide) (by decide) hlength (by decide)
  obtain ⟨type, index, pool, htype, hpool, rfl⟩ := callInterface_eq_ok.1 he
  cases htype.symm.trans hparse
  obtain ⟨-, hindex⟩ := Grow.enters_interfaceMethodRef Symbol.named_isValid _ _ _ _
    GrowingPool.inv_empty hpool
  have hpopped : manyParameters.parameterSlots + 1 = 256 := by
    rw [← UInt16.toNat_inj, MethodType.toNat_parameterSlots_add, slotCount_manyParameters]
    rfl
  have heffect := stackEffect_invokeInterface hindex hparse 0
  rw [hpopped] at he heffect
  exact ⟨hparse, slotCount_manyParameters, _, index, he, rfl, heffect⟩

end Code

end JvmClass
