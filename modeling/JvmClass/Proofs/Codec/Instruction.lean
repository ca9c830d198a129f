import JvmClass.Instruction.Decoder
import JvmClass.Proofs.Codec.Reads
import JvmClass.Proofs.Codec.Text

/-!
# Spellings of instructions

An instruction that starts at `offset` is read off the bytes that `encode` writes for it, except
that some bytes are free: the padding of a switch, the last byte of an interface call and the last
two of a dynamic call are skipped by the reader and written as zeros (`free`, `freeStart`).
`Fits p` are the forms that reading yields: the opcode belongs to the form, and an operand that
refers to the pool finds an entry its opcode can use.
-/

namespace JvmClass

open Reader

/-- The entry at `index` can be used in a role. -/
def Pool.Holds (p : Pool) (role : Role) (index : UInt16) : Prop :=
  ∃ c, p.get? index = some c ∧ role.accepts c = true

namespace Opcode

/-- What an operation asks of the pool entry it refers to. -/
def role? : Opcode → Option Role
  | ldc | ldcW => some .loadable
  | ldc2W => some .wideLoadable
  | getstatic | putstatic | getfield | putfield => some .fieldRef
  | invokevirtual => some .methodRef
  | invokespecial | invokestatic => some .anyMethodRef
  | invokeinterface => some .interfaceMethodRef
  | invokedynamic => some .invokeDynamic
  | new | anewarray | checkcast | instanceof | multianewarray => some .classRef
  | _ => none

/-- Operations without operands. -/
def isPlain (o : Opcode) : Bool :=
  o.role?.isNone && o.localSlots?.isNone && !o.isBranch &&
    match o with
    | bipush | sipush | iinc | wide | newarray | tableswitch | lookupswitch => false
    | _ => true

theorem isSome_localSlots? {o : Opcode} (h : o.implicitSlot?.isSome = true) :
    o.localSlots?.isSome = true := by
  unfold localSlots?
  rw [if_pos h]
  split <;> rfl

theorem isBranch_of_isWideBranch {o : Opcode} (h : o.isWideBranch = true) : o.isBranch = true := by
  unfold isWideBranch at h
  split at h <;> first | rfl | cases h

theorem code_of_ofByte? {b : UInt8} {o : Opcode} (h : ofByte? b = some o) : o.code = b := by
  unfold ofByte? at h
  split at h
  · rename_i hb
    cases h
    have hall : ∀ n < 202, (Opcode.ofNat n).ctorIdx = n := by decide +kernel
    rw [code, hall b.toNat hb, UInt8.ofNat_toNat]
  · cases h

end Opcode

theorem ArrayType.code_of_ofByte? {b : UInt8} {t : ArrayType} (h : ofByte? b = some t) :
    t.code = b := by
  have hall : ∀ n < 8, all[n]?.map ArrayType.ctorIdx = some n := by decide
  unfold ofByte? at h
  split at h
  · rename_i hb
    obtain ⟨hlt, -⟩ := List.getElem?_eq_some_iff.1 h
    have hn : t.ctorIdx = b.toNat - 4 := by
      have e := hall (b.toNat - 4) hlt
      rw [h] at e
      exact Option.some.inj e
    rw [code, hn, Nat.sub_add_cancel hb, UInt8.ofNat_toNat]
  · cases h

namespace Instruction

/-- The opcode belongs to the form. -/
def Shape : Instruction → Prop
  | simple o => o.isPlain = true
  | access o slot wide =>
    o.localSlots?.isSome = true ∧
      ∀ n, o.implicitSlot? = some n → slot = UInt16.ofNat n ∧ wide = false
  | push o _ => o = .bipush ∨ o = .sipush
  | constant o _ => o = .ldc ∨ o = .ldcW ∨ o = .ldc2W
  | field o _ => o = .getstatic ∨ o = .putstatic ∨ o = .getfield ∨ o = .putfield
  | invoke o _ => o = .invokevirtual ∨ o = .invokespecial ∨ o = .invokestatic
  | typed o _ => o = .new ∨ o = .anewarray ∨ o = .checkcast ∨ o = .instanceof
  | branch o _ => o.isBranch = true
  | tableSwitch _ low high targets =>
    low ≤ high ∧ targets.length = (high.toInt - low.toInt + 1).toNat
  | lookupSwitch _ pairs => pairs.length < 0x80000000
  | increment .. | invokeInterface .. | invokeDynamic _ | newArray _ | multiNewArray .. => True

/-- The forms that reading yields. -/
def Fits (p : Pool) (i : Instruction) : Prop :=
  i.Shape ∧ ∀ index role, i.poolIndex? = some index → i.opcode.role? = some role →
    p.Holds role index

/-- The target can be given by a signed distance in four bytes. -/
def Reachable (offset : Nat) (target : UInt32) : Prop :=
  -0x80000000 ≤ distance offset target ∧ distance offset target < 0x80000000

def InReach (offset : Nat) (i : Instruction) : Prop := ∀ target ∈ i.targets, Reachable offset target

/-- The number of bytes that reading skips. -/
def free (offset : Nat) : Instruction → Nat
  | tableSwitch .. | lookupSwitch .. => switchPadding offset
  | invokeInterface .. => 1
  | invokeDynamic _ => 2
  | _ => 0

/-- Where the skipped bytes stand in the instruction. -/
def freeStart : Instruction → Nat
  | tableSwitch .. | lookupSwitch .. => 1
  | invokeInterface .. => 4
  | invokeDynamic _ => 3
  | _ => 0

/-- `used` is read as `i` at `offset`: it is what is written, up to the skipped bytes. -/
def Spells (p : Pool) (offset : Nat) (i : Instruction) (used : Bytes) : Prop :=
  i.Fits p ∧ i.InReach offset ∧ ∃ head fill tail,
    head.length = i.freeStart ∧ fill.length = i.free offset ∧ used = head ++ fill ++ tail ∧
      i.encode offset = .ok (head ++ List.replicate (i.free offset) 0 ++ tail)

/-! ## Operands -/

theorem reads_usableEntry (p : Pool) (o : Opcode) (role : Role) (index : UInt16) :
    Reads (usableEntry p o role index) fun i used =>
      i = index ∧ p.Holds role index ∧ used = [] := by
  have check (c : Constant) : Reads (if role.accepts c then return index
      else throw (.malformedConstant index (.wrongOperand o c.kindName)))
      fun i used => i = index ∧ role.accepts c = true ∧ used = [] := by
    split
    · rename_i h
      exact (reads_pure index).congr fun i used => by simp [h]
    · rename_i h
      exact (reads_throw _).congr fun i used => by simp [h]
  refine ((reads_ofExcept (p.get index)).bind fun c _ _ => check c).congr fun i used => ?_
  constructor
  · rintro ⟨c, _, _, ⟨hc, rfl⟩, ⟨rfl, ha, rfl⟩, rfl⟩
    exact ⟨rfl, ⟨c, Pool.get_eq_ok.1 hc, ha⟩, rfl⟩
  · rintro ⟨rfl, ⟨c, hc, ha⟩, rfl⟩
    exact ⟨c, [], [], ⟨Pool.get_eq_ok.2 hc, rfl⟩, ⟨rfl, ha, rfl⟩, rfl⟩

theorem reads_entry (p : Pool) (o : Opcode) (role : Role) :
    Reads (entry p o role) fun i used => p.Holds role i ∧ used = Bytes.ofU16 i := by
  refine (reads_u16.bind fun w _ _ => reads_usableEntry p o role w).congr fun i used => ?_
  constructor
  · rintro ⟨w, _, _, rfl, ⟨rfl, hw, rfl⟩, rfl⟩
    exact ⟨hw, by simp⟩
  · rintro ⟨hi, rfl⟩
    exact ⟨i, _, [], rfl, ⟨rfl, hi, rfl⟩, by simp⟩

theorem reads_absolute (offset : Nat) (delta : Int32) :
    Reads (absolute offset delta) fun target used =>
      distance offset target = delta.toInt ∧ used = [] := by
  unfold absolute
  dsimp only
  split
  · rename_i h
    refine (reads_pure _).congr fun target used => and_congr_left fun _ => ?_
    constructor
    · rintro rfl
      unfold distance
      rw [UInt32.toNat_ofNat']
      omega
    · intro hd
      apply UInt32.toNat_inj.1
      unfold distance at hd
      rw [UInt32.toNat_ofNat']
      omega
  · rename_i h
    refine (reads_throw _).congr fun target used => ?_
    have ht := target.toNat_lt
    unfold distance
    constructor
    · exact False.elim
    · rintro ⟨hd, -⟩
      exact h (by omega)

theorem reads_wideTarget (offset : Nat) :
    Reads (do absolute offset (← i32)) fun target used =>
      Reachable offset target ∧ used = wideDistance offset target := by
  refine (reads_i32.bind fun d _ _ => reads_absolute offset d).congr fun target used => ?_
  constructor
  · rintro ⟨d, _, _, rfl, ⟨hd, rfl⟩, rfl⟩
    have h1 := d.le_toInt
    have h2 := d.toInt_lt
    refine ⟨by unfold Reachable; rw [hd]; exact ⟨h1, h2⟩, ?_⟩
    rw [wideDistance, hd, List.append_nil]
    show _ = Bytes.ofU32 (Int32.ofInt d.toInt).toUInt32
    rw [Int32.ofInt_toInt]
  · rintro ⟨⟨h1, h2⟩, rfl⟩
    exact ⟨(distance offset target).toInt32, _, [], rfl,
      ⟨(Int32.toInt_ofInt_of_le h1 h2).symm, rfl⟩, by simp [wideDistance]⟩

theorem reads_nearTarget (offset : Nat) :
    Reads (do absolute offset (← i16).toInt32) fun target used =>
      (-0x8000 ≤ distance offset target ∧ distance offset target < 0x8000) ∧
        used = Bytes.ofU16 (distance offset target).toInt16.toUInt16 := by
  refine (reads_i16.bind fun d _ _ => reads_absolute offset d.toInt32).congr fun target used => ?_
  constructor
  · rintro ⟨d, _, _, rfl, ⟨hd, rfl⟩, rfl⟩
    rw [Int16.toInt_toInt32] at hd
    have h1 := d.le_toInt
    have h2 := d.toInt_lt
    refine ⟨by rw [hd]; exact ⟨h1, h2⟩, ?_⟩
    rw [hd, List.append_nil]
    show _ = Bytes.ofU16 (Int16.ofInt d.toInt).toUInt16
    rw [Int16.ofInt_toInt]
  · rintro ⟨⟨h1, h2⟩, rfl⟩
    refine ⟨(distance offset target).toInt16, _, [], rfl, ⟨?_, rfl⟩, by simp⟩
    rw [Int16.toInt_toInt32]
    exact (Int16.toInt_ofInt_of_le h1 h2).symm

theorem reads_knownOpcode (b : UInt8) (offset : Nat) :
    Reads (match Opcode.ofByte? b with
      | some o => return o
      | none => throw (.unknownOpcode b offset))
      fun o used => Opcode.ofByte? b = some o ∧ used = [] := by
  cases Opcode.ofByte? b with
  | some o => exact (reads_pure o).congr fun a used => by simp [eq_comm]
  | none => exact (reads_throw _).congr fun a used => by simp

theorem reads_opcodeAt (offset : Nat) : Reads (opcodeAt offset) fun o used => used = [o.code] := by
  refine (reads_u8.bind fun b _ _ => reads_knownOpcode b offset).congr fun o used => ?_
  constructor
  · rintro ⟨b, _, _, rfl, ⟨hb, rfl⟩, rfl⟩
    rw [Opcode.code_of_ofByte? hb, List.append_nil]
  · rintro rfl
    exact ⟨o.code, _, [], rfl, ⟨Opcode.ofByte?_code o, rfl⟩, by simp⟩

/-! ## What reading yields -/

/-- The operands of a switch behind its padding. -/
def switchOperands (offset : Nat) : Instruction → Bytes
  | tableSwitch default low high targets =>
    wideDistance offset default ++ (ofI32 low ++ (ofI32 high ++
      targets.flatMap (wideDistance offset)))
  | lookupSwitch default pairs =>
    wideDistance offset default ++ (Bytes.ofU32 (UInt32.ofNat pairs.length) ++
      pairs.flatMap fun (key, target) => ofI32 key ++ wideDistance offset target)
  | _ => []

def isSwitch : Instruction → Bool
  | tableSwitch .. | lookupSwitch .. => true
  | _ => false

theorem encode_narrow {i : Instruction} {offset : Nat} {v : Bytes} (hw : i.isWide = false)
    (h : i.encodeOperands offset = .ok v) : i.encode offset = .ok (i.opcode.code :: v) := by
  unfold encode
  rw [h, hw]
  rfl

theorem encode_wide {i : Instruction} {offset : Nat} {v : Bytes} (hw : i.isWide = true)
    (h : i.encodeOperands offset = .ok v) :
    i.encode offset = .ok (Opcode.wide.code :: i.opcode.code :: v) := by
  unfold encode
  rw [h, hw]
  rfl

/-- An instruction without free bytes has one spelling. -/
theorem spells_exact {p : Pool} {offset : Nat} {i : Instruction} {used : Bytes} (hf : i.Fits p)
    (hr : i.InReach offset) (h0 : i.free offset = 0) (hs : i.freeStart = 0)
    (he : i.encode offset = .ok used) : i.Spells p offset used := by
  refine ⟨hf, hr, [], [], used, hs.symm, h0.symm, rfl, ?_⟩
  rw [he, h0]
  rfl

theorem spells_exact_iff {p : Pool} {offset : Nat} {i : Instruction} {used : Bytes}
    (h0 : i.free offset = 0) (hs : i.freeStart = 0) :
    i.Spells p offset used ↔ i.Fits p ∧ i.InReach offset ∧ i.encode offset = .ok used := by
  constructor
  · rintro ⟨hf, hr, head, fill, tail, hh, hl, rfl, he⟩
    rw [hs] at hh
    rw [h0] at hl he
    rw [List.eq_nil_of_length_eq_zero hh] at he ⊢
    rw [List.eq_nil_of_length_eq_zero hl]
    exact ⟨hf, hr, he⟩
  · rintro ⟨hf, hr, he⟩
    exact spells_exact hf hr h0 hs he

theorem inReach_of_targets {offset : Nat} {i : Instruction} (h : i.targets = []) :
    i.InReach offset := by
  intro target ht
  rw [h] at ht
  cases ht

theorem fits_of_poolIndex {p : Pool} {i : Instruction} (hs : i.Shape) (h : i.poolIndex? = none) :
    i.Fits p := by
  refine ⟨hs, fun index role hi => ?_⟩
  rw [h] at hi
  cases hi

theorem fits_of_holds {p : Pool} {i : Instruction} {index : UInt16} {role : Role} (hs : i.Shape)
    (hi : i.poolIndex? = some index) (hr : i.opcode.role? = some role) (h : p.Holds role index) :
    i.Fits p := by
  refine ⟨hs, fun index' role' hi' hr' => ?_⟩
  rw [hi] at hi'
  rw [hr] at hr'
  cases hi'
  cases hr'
  exact h

/-- The padding of a switch may hold anything. -/
theorem spells_switch_iff {p : Pool} {offset : Nat} {i : Instruction} {used : Bytes}
    (h : i.isSwitch = true) :
    i.Spells p offset used ↔ i.Shape ∧ i.InReach offset ∧ ∃ pad,
      pad.length = switchPadding offset ∧
        used = i.opcode.code :: (pad ++ i.switchOperands offset) := by
  have hstart : i.freeStart = 1 := by cases i <;> first | rfl | cases h
  have hfree : i.free offset = switchPadding offset := by cases i <;> first | rfl | cases h
  have hindex : i.poolIndex? = none := by cases i <;> first | rfl | cases h
  have henc : i.encode offset =
      .ok (i.opcode.code :: (padding offset ++ i.switchOperands offset)) := by
    cases i with
    | tableSwitch | lookupSwitch => rw [encode_narrow rfl rfl]; simp [switchOperands]
    | _ => cases h
  unfold Spells
  rw [hstart, hfree, henc]
  constructor
  · rintro ⟨hf, hr, head, pad, tail, hh, hl, rfl, he⟩
    obtain ⟨b, rfl⟩ := List.length_eq_one_iff.1 hh
    obtain ⟨rfl, e⟩ := List.cons.inj (Except.ok.inj he)
    refine ⟨hf.1, hr, pad, hl, ?_⟩
    rw [List.append_cancel_left e]
    rfl
  · rintro ⟨hs, hr, pad, hl, rfl⟩
    exact ⟨fits_of_poolIndex hs hindex, hr, [i.opcode.code], pad, i.switchOperands offset, rfl, hl,
      rfl, rfl⟩

/-- The last byte of an interface call may be anything. -/
theorem spells_interfaceCall_iff {p : Pool} {offset : Nat} {index : UInt16} {count : UInt8}
    {used : Bytes} :
    (invokeInterface index count).Spells p offset used ↔ p.Holds .interfaceMethodRef index ∧
      ∃ b, used = Opcode.invokeinterface.code :: (Bytes.ofU16 index ++ [count, b]) := by
  constructor
  · rintro ⟨hf, -, head, fill, tail, hh, hl, rfl, he⟩
    obtain ⟨b, rfl⟩ := List.length_eq_one_iff.1 hl
    have e : head ++ ([0] ++ tail) =
        Opcode.invokeinterface.code :: (Bytes.ofU16 index ++ [count]) ++ [0] :=
      (List.append_assoc ..).symm.trans (Except.ok.inj he).symm
    obtain ⟨rfl, ht⟩ := List.append_inj e hh
    obtain rfl := (List.cons.inj ht).2
    exact ⟨hf.2 _ _ rfl rfl, b, rfl⟩
  · rintro ⟨hp, b, rfl⟩
    exact ⟨fits_of_holds trivial rfl rfl hp, inReach_of_targets rfl,
      Opcode.invokeinterface.code :: (Bytes.ofU16 index ++ [count]), [b], [], rfl, rfl, rfl, rfl⟩

/-- The last two bytes of a dynamic call may be anything. -/
theorem spells_dynamicCall_iff {p : Pool} {offset : Nat} {index : UInt16} {used : Bytes} :
    (invokeDynamic index).Spells p offset used ↔ p.Holds .invokeDynamic index ∧
      ∃ w, used = Opcode.invokedynamic.code :: (Bytes.ofU16 index ++ Bytes.ofU16 w) := by
  constructor
  · rintro ⟨hf, -, head, fill, tail, hh, hl, rfl, he⟩
    obtain ⟨b, c, rfl⟩ : ∃ b c, fill = [b, c] := by
      match fill, hl with
      | [b, c], _ => exact ⟨b, c, rfl⟩
    have e : head ++ ([0, 0] ++ tail) = Opcode.invokedynamic.code :: Bytes.ofU16 index ++ [0, 0] :=
      (List.append_assoc ..).symm.trans (Except.ok.inj he).symm
    obtain ⟨rfl, ht⟩ := List.append_inj e hh
    obtain rfl := (List.cons.inj (List.cons.inj ht).2).2
    exact ⟨hf.2 _ _ rfl rfl, Bytes.u16 b c, by rw [Bytes.ofU16_u16]; rfl⟩
  · rintro ⟨hp, w, rfl⟩
    exact ⟨fits_of_holds trivial rfl rfl hp, inReach_of_targets rfl,
      Opcode.invokedynamic.code :: Bytes.ofU16 index, Bytes.ofU16 w, [], rfl, rfl, rfl, rfl⟩

theorem narrow_eq_ok {offset : Nat} {w : UInt16} {v : Bytes} :
    narrow offset w = .ok v ↔ ∃ b : UInt8, w = b.toUInt16 ∧ v = [b] := by
  unfold narrow
  constructor
  · intro h
    split at h
    · rename_i hw
      cases h
      refine ⟨UInt8.ofNat w.toNat, UInt16.toNat_inj.1 ?_, rfl⟩
      rw [UInt8.toNat_toUInt16, toNat_byte hw]
    · cases h
  · rintro ⟨b, rfl, rfl⟩
    rw [UInt8.toNat_toUInt16, if_pos b.toNat_lt, UInt8.ofNat_toNat]

theorem narrowSigned_eq_ok {offset : Nat} {fault : CodeFault} {value : Int16} {v : Bytes} :
    narrowSigned offset fault value = .ok v ↔
      ∃ b : Int8, value = b.toInt16 ∧ v = [b.toUInt8] := by
  unfold narrowSigned
  constructor
  · intro h
    split at h
    · rename_i hw
      cases h
      refine ⟨value.toInt8, Int16.toInt_inj.1 ?_, rfl⟩
      rw [Int8.toInt_toInt16, Int16.toInt_toInt8, Int.bmod_eq_of_le]
      · omega
      · omega
    · cases h
  · rintro ⟨b, rfl, rfl⟩
    have h1 := b.le_toInt
    have h2 := b.toInt_lt
    rw [Int8.toInt_toInt16, if_pos ⟨h1, h2⟩, Int8.toInt8_toInt16]

section Sound

variable (p : Pool) (offset : Nat)

theorem reads_wideTarget_bind {α : Type} {f : UInt32 → Reader α} {next : UInt32 → α → Bytes → Prop}
    (h : ∀ target, Reads (f target) (next target)) :
    Reads (do f (← absolute offset (← i32))) fun a used => ∃ target v,
      Reachable offset target ∧ next target a v ∧ used = wideDistance offset target ++ v := by
  rw [← bind_assoc]
  refine ((reads_wideTarget offset).bind fun target _ _ => h target).congr fun a used => ?_
  constructor
  · rintro ⟨target, _, v, ⟨ht, rfl⟩, hn, rfl⟩
    exact ⟨target, v, ht, hn, rfl⟩
  · rintro ⟨target, v, ht, hn, rfl⟩
    exact ⟨target, _, v, ⟨ht, rfl⟩, hn, rfl⟩

theorem reads_nearTarget_bind {α : Type} {f : UInt32 → Reader α} {next : UInt32 → α → Bytes → Prop}
    (h : ∀ target, Reads (f target) (next target)) :
    Reads (do f (← absolute offset (← i16).toInt32)) fun a used => ∃ target v,
      (-0x8000 ≤ distance offset target ∧ distance offset target < 0x8000) ∧ next target a v ∧
        used = Bytes.ofU16 (distance offset target).toInt16.toUInt16 ++ v := by
  rw [← bind_assoc]
  refine ((reads_nearTarget offset).bind fun target _ _ => h target).congr fun a used => ?_
  constructor
  · rintro ⟨target, _, v, ⟨ht, rfl⟩, hn, rfl⟩
    exact ⟨target, v, ht, hn, rfl⟩
  · rintro ⟨target, v, ht, hn, rfl⟩
    exact ⟨target, _, v, ⟨ht, rfl⟩, hn, rfl⟩

theorem reads_readTableSwitch :
    Reads (readTableSwitch offset) fun i used => ∃ default low high targets,
      i = tableSwitch default low high targets ∧ i.Shape ∧ i.InReach offset ∧
        ∃ pad, pad.length = switchPadding offset ∧ used = pad ++ i.switchOperands offset := by
  unfold readTableSwitch
  refine ((reads_take (switchPadding offset)).bind fun _ _ _ =>
    reads_wideTarget_bind offset fun default => reads_i32.bind fun low _ _ =>
    reads_i32.bind fun high _ _ => Reads.guard fun _ =>
      (((reads_wideTarget offset).times (high.toInt - low.toInt + 1).toNat).map
        (tableSwitch default low high)).need ?_).congr fun i used => ?_
  · rintro _ u ⟨targets, -, hn, hs⟩
    rw [← hn]
    exact hs.length_ge fun target v hv => by rw [hv.2]; simp [wideDistance]
  constructor
  · rintro ⟨_, pad, _, ⟨rfl, hpad⟩, ⟨default, _, hd, ⟨low, _, _, rfl, ⟨high, _, _, rfl,
      ⟨hle, targets, rfl, hn, hs⟩, rfl⟩, rfl⟩, rfl⟩, rfl⟩
    obtain ⟨hall, rfl⟩ := SpellsAll.and_eq_flatMap.1 hs
    refine ⟨default, low, high, targets, rfl, ⟨?_, hn⟩, ?_, pad, hpad, rfl⟩
    · exact Int32.not_lt.1 hle
    · exact List.forall_mem_cons.2 ⟨hd, hall⟩
  · rintro ⟨default, low, high, targets, rfl, ⟨hle, hn⟩, hreach, pad, hpad, rfl⟩
    obtain ⟨hd, hall⟩ := List.forall_mem_cons.1 hreach
    refine ⟨pad, _, _, ⟨rfl, hpad⟩, ?_, rfl⟩
    refine ⟨default, _, hd, ?_, rfl⟩
    refine ⟨low, _, _, rfl, ?_, rfl⟩
    refine ⟨high, _, _, rfl, ⟨Int32.not_lt.2 hle, targets, rfl, hn, ?_⟩, rfl⟩
    exact SpellsAll.and_eq_flatMap.2 ⟨hall, rfl⟩

theorem reads_pair :
    Reads (do
      let key ← i32
      return (key, ← absolute offset (← i32))) fun pair used =>
        Reachable offset pair.2 ∧ used = ofI32 pair.1 ++ wideDistance offset pair.2 := by
  refine (reads_i32.bind fun key _ _ => reads_wideTarget_bind offset fun target =>
    reads_pure (key, target)).congr fun pair used => ?_
  constructor
  · rintro ⟨key, _, _, rfl, ⟨target, _, ht, ⟨rfl, rfl⟩, rfl⟩, rfl⟩
    exact ⟨ht, by simp [ofI32]⟩
  · rintro ⟨ht, rfl⟩
    exact ⟨pair.1, _, _, rfl, ⟨pair.2, [], ht, ⟨rfl, rfl⟩, rfl⟩, by simp [ofI32]⟩

theorem toInt_eq_toNat_cond (i : Int32) :
    i.toInt = if 2 * i.toUInt32.toNat < 0x100000000 then (i.toUInt32.toNat : Int)
      else i.toUInt32.toNat - 0x100000000 :=
  BitVec.toInt_eq_toNat_cond i.toBitVec

theorem reads_readLookupSwitch :
    Reads (readLookupSwitch offset) fun i used => ∃ default pairs,
      i = lookupSwitch default pairs ∧ i.Shape ∧ i.InReach offset ∧
        ∃ pad, pad.length = switchPadding offset ∧ used = pad ++ i.switchOperands offset := by
  unfold readLookupSwitch
  refine ((reads_take (switchPadding offset)).bind fun _ _ _ =>
    reads_wideTarget_bind offset fun default => reads_i32.bind fun count _ _ => Reads.guard fun _ =>
      (((reads_pair offset).times count.toInt.toNat).map
        (lookupSwitch default)).need ?_).congr fun i used => ?_
  · rintro _ u ⟨pairs, -, hn, hs⟩
    rw [← hn]
    exact hs.length_ge fun pair v hv => by rw [hv.2]; simp [wideDistance, ofI32]
  constructor
  · rintro ⟨_, pad, _, ⟨rfl, hpad⟩, ⟨default, _, hd, ⟨count, _, _, rfl,
      ⟨hle, pairs, rfl, hn, hs⟩, rfl⟩, rfl⟩, rfl⟩
    obtain ⟨hall, rfl⟩ := SpellsAll.and_eq_flatMap.1 hs
    have hpos : 0 ≤ count.toInt := Int32.le_iff_toInt_le.1 (Int32.not_lt.1 hle)
    have hcond := toInt_eq_toNat_cond count
    have hcount : UInt32.ofNat pairs.length = count.toUInt32 := by
      have := count.toUInt32.toNat_lt
      apply UInt32.toNat_inj.1
      rw [UInt32.toNat_ofNat']
      split at hcond <;> omega
    refine ⟨default, pairs, rfl, ?_, ?_, pad, hpad, ?_⟩
    · have := count.toInt_lt
      show pairs.length < _
      omega
    · refine List.forall_mem_cons.2 ⟨hd, fun target ht => ?_⟩
      obtain ⟨pair, hp, rfl⟩ := List.mem_map.1 ht
      exact hall pair hp
    · rw [switchOperands, hcount]
  · rintro ⟨default, pairs, rfl, hn, hreach, pad, hpad, rfl⟩
    obtain ⟨hd, hall⟩ := List.forall_mem_cons.1 hreach
    have hpairs : ∀ pair ∈ pairs, Reachable offset pair.2 :=
      fun pair hp => hall pair.2 (List.mem_map_of_mem hp)
    have hcount : (UInt32.ofNat pairs.length).toInt32.toInt = pairs.length := by
      have hcond := toInt_eq_toNat_cond (UInt32.ofNat pairs.length).toInt32
      have hlt : pairs.length < 0x80000000 := hn
      rw [UInt32.toUInt32_toInt32, UInt32.toNat_ofNat'] at hcond
      split at hcond <;> omega
    refine ⟨pad, _, _, ⟨rfl, hpad⟩, ?_, rfl⟩
    refine ⟨default, _, hd, ?_, rfl⟩
    refine ⟨(UInt32.ofNat pairs.length).toInt32, _, _, rfl, ⟨?_, pairs, rfl, ?_, ?_⟩, rfl⟩
    · rw [Int32.lt_iff_toInt_lt, hcount]
      exact Int.not_lt.2 (Int.natCast_nonneg _)
    · rw [hcount]
      rfl
    · exact SpellsAll.and_eq_flatMap.2 ⟨hpairs, rfl⟩

theorem reads_knownElement (b : UInt8) :
    Reads (match ArrayType.ofByte? b with
      | some element => return newArray element
      | none => throw (.ofCode offset (.unknownArrayType b)))
      fun i used => ∃ element, ArrayType.ofByte? b = some element ∧ i = newArray element ∧
        used = [] := by
  cases ArrayType.ofByte? b with
  | some element => exact (reads_pure _).congr fun i used => by simp
  | none => exact (reads_throw _).congr fun i used => by simp

theorem reads_readNewArray :
    Reads (readOperands p offset .newarray) fun i v =>
      ∃ element, i = newArray element ∧ v = [element.code] := by
  refine (reads_u8.bind fun b _ _ => reads_knownElement offset b).congr fun i v => ?_
  constructor
  · rintro ⟨b, _, _, rfl, ⟨element, hb, rfl, rfl⟩, rfl⟩
    exact ⟨element, rfl, by rw [ArrayType.code_of_ofByte? hb, List.append_nil]⟩
  · rintro ⟨element, rfl, rfl⟩
    exact ⟨element.code, _, [], rfl, ⟨element, ArrayType.ofByte?_code element, rfl, rfl⟩, by simp⟩

/-- The instructions of an operation with one operand in the pool. -/
theorem sound_indexed {o : Opcode} {role : Role} (make : UInt16 → Instruction)
    (h : ∀ i, (make i).Shape ∧ (make i).poolIndex? = some i ∧ (make i).opcode = o ∧
      (make i).targets = [] ∧ (make i).isWide = false ∧ (make i).free offset = 0 ∧
      (make i).freeStart = 0 ∧ (make i).encodeOperands offset = .ok (Bytes.ofU16 i))
    (hr : o.role? = some role) :
    Sound (do return make (← entry p o role)) fun i v => i.Spells p offset (o.code :: v) := by
  refine ((reads_entry p o role).map make).sound.mono ?_
  rintro _ _ ⟨i, rfl, hp, rfl⟩
  obtain ⟨hs, hi, ho, ht, hw, h0, h1, he⟩ := h i
  refine spells_exact (fits_of_holds hs hi (by rw [ho, hr]) hp) (inReach_of_targets ht) h0 h1 ?_
  rw [encode_narrow hw he, ho]

theorem reads_readWide :
    Reads (readWide offset) fun i v =>
      (∃ slot delta, i = increment slot delta true ∧
        v = Opcode.iinc.code :: (Bytes.ofU16 slot ++ Bytes.ofU16 delta.toUInt16)) ∨
      ∃ o slot, o.localSlots?.isSome = true ∧ o.implicitSlot? = none ∧ i = access o slot true ∧
        v = o.code :: Bytes.ofU16 slot := by
  have widened (o : Opcode) : Reads (if o = .iinc then return increment (← u16) (← i16) true
      else if o.localSlots?.isSome && o.implicitSlot?.isNone then return access o (← u16) true
      else throw (.ofCode offset (.notWidened o))) fun i v =>
        (o = .iinc ∧ ∃ slot delta, i = increment slot delta true ∧
          v = Bytes.ofU16 slot ++ Bytes.ofU16 delta.toUInt16) ∨
        ((o.localSlots?.isSome = true ∧ o.implicitSlot? = none) ∧ ∃ slot, i = access o slot true ∧
          v = Bytes.ofU16 slot) := by
    split
    · rename_i ho
      subst ho
      refine (reads_u16.bind fun slot _ _ => reads_i16.map fun delta =>
        increment slot delta true).congr fun i v => ?_
      constructor
      · rintro ⟨slot, _, _, rfl, ⟨delta, rfl, rfl⟩, rfl⟩
        exact .inl ⟨rfl, slot, delta, rfl, rfl⟩
      · rintro (⟨-, slot, delta, rfl, rfl⟩ | ⟨⟨h, -⟩, -⟩)
        · exact ⟨slot, _, _, rfl, ⟨delta, rfl, rfl⟩, rfl⟩
        · cases h
    · rename_i ho
      rw [← Option.isNone_iff_eq_none, ← Bool.and_eq_true_iff]
      split
      · rename_i h
        exact (reads_u16.map fun slot => access o slot true).congr fun i v => by simp [ho, h]
      · rename_i h
        exact (reads_throw _).congr fun i v => by simp [ho, h]
  refine ((reads_opcodeAt (offset + 1)).bind fun o _ _ => widened o).congr fun i v => ?_
  constructor
  · rintro ⟨o, _, _, rfl, ⟨rfl, slot, delta, rfl, rfl⟩ | ⟨⟨h1, h2⟩, slot, rfl, rfl⟩, rfl⟩
    · exact .inl ⟨slot, delta, rfl, rfl⟩
    · exact .inr ⟨o, slot, h1, h2, rfl, rfl⟩
  · rintro (⟨slot, delta, rfl, rfl⟩ | ⟨o, slot, h1, h2, rfl, rfl⟩)
    · exact ⟨.iinc, _, _, rfl, .inl ⟨rfl, slot, delta, rfl, rfl⟩, rfl⟩
    · exact ⟨o, _, _, rfl, .inr ⟨⟨h1, h2⟩, slot, rfl, rfl⟩, rfl⟩

theorem sound_readOperands (o : Opcode) :
    Sound (readOperands p offset o) fun i v => i.Spells p offset (o.code :: v) := by
  unfold readOperands
  split
  · refine (reads_i8.map fun b => push .bipush b.toInt16).sound.mono ?_
    rintro _ _ ⟨b, rfl, rfl⟩
    exact spells_exact (fits_of_poolIndex (.inl rfl) rfl) (inReach_of_targets rfl) rfl rfl
      (encode_narrow rfl (narrowSigned_eq_ok.2 ⟨b, rfl, rfl⟩))
  · refine (reads_i16.map (push .sipush)).sound.mono ?_
    rintro _ _ ⟨b, rfl, rfl⟩
    exact spells_exact (fits_of_poolIndex (.inr rfl) rfl) (inReach_of_targets rfl) rfl rfl
      (encode_narrow rfl rfl)
  · refine (reads_u8.bind fun b _ _ =>
      (reads_usableEntry p .ldc .loadable b.toUInt16).map (constant .ldc)).sound.mono ?_
    rintro _ _ ⟨b, _, _, rfl, ⟨_, rfl, rfl, hp, rfl⟩, rfl⟩
    exact spells_exact (fits_of_holds (.inl rfl) rfl rfl hp) (inReach_of_targets rfl) rfl rfl
      (encode_narrow rfl (narrow_eq_ok.2 ⟨b, rfl, rfl⟩))
  · exact sound_indexed p offset (constant .ldcW)
      (fun _ => ⟨.inr (.inl rfl), rfl, rfl, rfl, rfl, rfl, rfl, rfl⟩) rfl
  · exact sound_indexed p offset (constant .ldc2W)
      (fun _ => ⟨.inr (.inr rfl), rfl, rfl, rfl, rfl, rfl, rfl, rfl⟩) rfl
  · refine (reads_u8.bind fun slot _ _ => reads_i8.map fun delta =>
      increment slot.toUInt16 delta.toInt16 false).sound.mono ?_
    rintro _ _ ⟨slot, _, _, rfl, ⟨delta, rfl, rfl⟩, rfl⟩
    refine spells_exact (fits_of_poolIndex trivial rfl) (inReach_of_targets rfl) rfl rfl
      (encode_narrow rfl ?_)
    exact append_eq_ok.2 ⟨[slot], [delta.toUInt8], narrow_eq_ok.2 ⟨slot, rfl, rfl⟩,
      narrowSigned_eq_ok.2 ⟨delta, rfl, rfl⟩, rfl⟩
  · refine (reads_readWide offset).sound.mono ?_
    rintro _ _ (⟨slot, delta, rfl, rfl⟩ | ⟨o, slot, h1, h2, rfl, rfl⟩)
    · exact spells_exact (fits_of_poolIndex trivial rfl) (inReach_of_targets rfl) rfl rfl
        (encode_wide rfl rfl)
    · refine spells_exact (fits_of_poolIndex ⟨h1, fun n hn => ?_⟩ rfl) (inReach_of_targets rfl) rfl
        rfl (encode_wide rfl ?_)
      · rw [h2] at hn
        cases hn
      · simp [encodeOperands, h2]
  · exact sound_indexed p offset (field .getstatic)
      (fun _ => ⟨.inl rfl, rfl, rfl, rfl, rfl, rfl, rfl, rfl⟩) rfl
  · exact sound_indexed p offset (field .putstatic)
      (fun _ => ⟨.inr (.inl rfl), rfl, rfl, rfl, rfl, rfl, rfl, rfl⟩) rfl
  · exact sound_indexed p offset (field .getfield)
      (fun _ => ⟨.inr (.inr (.inl rfl)), rfl, rfl, rfl, rfl, rfl, rfl, rfl⟩) rfl
  · exact sound_indexed p offset (field .putfield)
      (fun _ => ⟨.inr (.inr (.inr rfl)), rfl, rfl, rfl, rfl, rfl, rfl, rfl⟩) rfl
  · exact sound_indexed p offset (invoke .invokevirtual)
      (fun _ => ⟨.inl rfl, rfl, rfl, rfl, rfl, rfl, rfl, rfl⟩) rfl
  · exact sound_indexed p offset (invoke .invokespecial)
      (fun _ => ⟨.inr (.inl rfl), rfl, rfl, rfl, rfl, rfl, rfl, rfl⟩) rfl
  · exact sound_indexed p offset (invoke .invokestatic)
      (fun _ => ⟨.inr (.inr rfl), rfl, rfl, rfl, rfl, rfl, rfl, rfl⟩) rfl
  · refine ((reads_entry p _ _).bind fun index _ _ => reads_u8.bind fun count _ _ =>
      reads_u8.map fun _ => invokeInterface index count).sound.mono ?_
    rintro _ _ ⟨index, _, _, ⟨hp, rfl⟩, ⟨count, _, _, rfl, ⟨b, rfl, rfl⟩, rfl⟩, rfl⟩
    exact spells_interfaceCall_iff.2 ⟨hp, b, rfl⟩
  · refine ((reads_entry p _ _).bind fun index _ _ =>
      reads_u16.map fun _ => invokeDynamic index).sound.mono ?_
    rintro _ _ ⟨index, _, _, ⟨hp, rfl⟩, ⟨w, rfl, rfl⟩, rfl⟩
    exact spells_dynamicCall_iff.2 ⟨hp, w, rfl⟩
  · exact sound_indexed p offset (typed .new)
      (fun _ => ⟨.inl rfl, rfl, rfl, rfl, rfl, rfl, rfl, rfl⟩) rfl
  · exact sound_indexed p offset (typed .anewarray)
      (fun _ => ⟨.inr (.inl rfl), rfl, rfl, rfl, rfl, rfl, rfl, rfl⟩) rfl
  · exact sound_indexed p offset (typed .checkcast)
      (fun _ => ⟨.inr (.inr (.inl rfl)), rfl, rfl, rfl, rfl, rfl, rfl, rfl⟩) rfl
  · exact sound_indexed p offset (typed .instanceof)
      (fun _ => ⟨.inr (.inr (.inr rfl)), rfl, rfl, rfl, rfl, rfl, rfl, rfl⟩) rfl
  · refine ((reads_entry p _ _).bind fun index _ _ =>
      reads_u8.map (multiNewArray index)).sound.mono ?_
    rintro _ _ ⟨index, _, _, ⟨hp, rfl⟩, ⟨dimensions, rfl, rfl⟩, rfl⟩
    exact spells_exact (fits_of_holds trivial rfl rfl hp) (inReach_of_targets rfl) rfl rfl
      (encode_narrow rfl rfl)
  · refine (reads_readNewArray p offset).sound.mono ?_
    rintro _ _ ⟨element, rfl, rfl⟩
    exact spells_exact (fits_of_poolIndex trivial rfl) (inReach_of_targets rfl) rfl rfl
      (encode_narrow rfl rfl)
  · refine (reads_readTableSwitch offset).sound.mono ?_
    rintro _ _ ⟨default, low, high, targets, rfl, hs, hr, pad, hpad, rfl⟩
    exact (spells_switch_iff rfl).2 ⟨hs, hr, pad, hpad, rfl⟩
  · refine (reads_readLookupSwitch offset).sound.mono ?_
    rintro _ _ ⟨default, pairs, rfl, hs, hr, pad, hpad, rfl⟩
    exact (spells_switch_iff rfl).2 ⟨hs, hr, pad, hpad, rfl⟩
  · split
    · rename_i slot hslot
      have hlocal := Opcode.isSome_localSlots? (Option.isSome_of_eq_some hslot)
      refine (reads_pure _).sound.mono ?_
      rintro _ _ ⟨rfl, rfl⟩
      refine spells_exact (fits_of_poolIndex ⟨hlocal, fun n hn => ?_⟩ rfl) (inReach_of_targets rfl)
        rfl rfl (encode_narrow rfl ?_)
      · rw [hslot] at hn
        cases hn
        exact ⟨rfl, rfl⟩
      · simp [encodeOperands, hslot]
    · rename_i hslot
      split
      · rename_i hlocal
        refine (reads_u8.map fun slot => access o slot.toUInt16 false).sound.mono ?_
        rintro _ _ ⟨slot, rfl, rfl⟩
        refine spells_exact (fits_of_poolIndex ⟨hlocal, fun n hn => ?_⟩ rfl)
          (inReach_of_targets rfl) rfl rfl (encode_narrow rfl ?_)
        · rw [hslot] at hn
          cases hn
        · simp [encodeOperands, hslot, narrow_eq_ok]
      · split
        · rename_i hwide
          refine (reads_wideTarget_bind offset fun target =>
            reads_pure (branch o target)).sound.mono ?_
          rintro _ _ ⟨target, _, ht, ⟨rfl, rfl⟩, rfl⟩
          refine spells_exact (fits_of_poolIndex (Opcode.isBranch_of_isWideBranch hwide) rfl) ?_ rfl
            rfl (encode_narrow rfl ?_)
          · exact List.forall_mem_singleton.2 ht
          · simp [encodeOperands, hwide]
        · split
          · rename_i hwide hbranch
            refine (reads_nearTarget_bind offset fun target =>
              reads_pure (branch o target)).sound.mono ?_
            rintro _ _ ⟨target, _, ht, ⟨rfl, rfl⟩, rfl⟩
            refine spells_exact (fits_of_poolIndex hbranch rfl) ?_ rfl rfl (encode_narrow rfl ?_)
            · exact List.forall_mem_singleton.2 ⟨by omega, by omega⟩
            · simp [encodeOperands, hwide, ht]
          · rename_i hwide hbranch
            refine (reads_pure _).sound.mono ?_
            rintro _ _ ⟨rfl, rfl⟩
            refine spells_exact (fits_of_poolIndex ?_ rfl) (inReach_of_targets rfl) rfl rfl
              (encode_narrow rfl rfl)
            clear hslot
            show o.isPlain = true
            cases o <;> first | rfl | contradiction

end Sound

/-! ## What is read back -/

section Complete

variable {p : Pool} {offset : Nat}

theorem readOperands_simple {o : Opcode} (h : o.isPlain = true) :
    readOperands p offset o = pure (simple o) := by
  cases o <;> first | rfl | cases h

theorem readOperands_implicit {o : Opcode} {n : Nat} (h : o.implicitSlot? = some n) :
    readOperands p offset o = pure (access o (UInt16.ofNat n) false) := by
  cases o <;> cases h <;> rfl

theorem readOperands_local {o : Opcode} (h : o.localSlots?.isSome = true)
    (hn : o.implicitSlot? = none) :
    readOperands p offset o = (do return access o (← u8).toUInt16 false) := by
  cases o <;> first | rfl | (cases h; done) | cases hn

theorem readOperands_wideBranch {o : Opcode} (h : o.isWideBranch = true) :
    readOperands p offset o = (do return branch o (← absolute offset (← i32))) := by
  cases o <;> first | rfl | cases h

theorem readOperands_branch {o : Opcode} (h : o.isBranch = true) (hw : o.isWideBranch = false) :
    readOperands p offset o = (do return branch o (← absolute offset (← i16).toInt32)) := by
  cases o <;> first | rfl | (cases h; done) | cases hw

theorem run_read {o : Opcode} {i : Instruction} {v : Bytes} {spell : Instruction → Bytes → Prop}
    (h : Reads (readOperands p offset o) spell) (hs : spell i v) (rest : Bytes) (start : Nat) :
    read p offset ⟨o.code :: v ++ rest, start, .off⟩ =
      .ok i ⟨rest, start + (o.code :: v).length, .off⟩ := by
  unfold read
  rw [List.cons_append, ← List.singleton_append,
    bind_run ((reads_opcodeAt offset).run rfl (v ++ rest) start), h.run hs]
  simp [Nat.add_assoc, Nat.add_comm 1]

theorem run_indexed {o : Opcode} {role : Role} {index : UInt16} (make : UInt16 → Instruction)
    (h : readOperands p offset o = (do return make (← entry p o role))) (hp : p.Holds role index)
    (rest : Bytes) (start : Nat) :
    read p offset ⟨o.code :: Bytes.ofU16 index ++ rest, start, .off⟩ =
      .ok (make index) ⟨rest, start + (o.code :: Bytes.ofU16 index).length, .off⟩ :=
  run_read (h ▸ (reads_entry p o role).map make) ⟨index, rfl, hp, rfl⟩ rest start

theorem encode_eq_ok {i : Instruction} {out : Bytes} (h : i.encode offset = .ok out) :
    ∃ v, i.encodeOperands offset = .ok v ∧
      out = (if i.isWide then [Opcode.wide.code] else []) ++ i.opcode.code :: v := by
  obtain ⟨v, hv, ho⟩ := exceptBind_eq_ok.1 h
  exact ⟨v, hv, (Except.ok.inj ho).symm⟩

/-- A spelled instruction is read back, whatever stands behind it. -/
theorem read_of_spells {i : Instruction} {used : Bytes} (h : i.Spells p offset used) (rest : Bytes)
    (start : Nat) :
    read p offset ⟨used ++ rest, start, .off⟩ = .ok i ⟨rest, start + used.length, .off⟩ := by
  cases i with
  | simple o =>
    obtain ⟨⟨hs, -⟩, -, he⟩ := (spells_exact_iff rfl rfl).1 h
    obtain ⟨_, hv, rfl⟩ := encode_eq_ok he
    cases hv
    exact run_read (readOperands_simple hs ▸ reads_pure _) ⟨rfl, rfl⟩ rest start
  | access o slot wide =>
    obtain ⟨⟨⟨hl, hi⟩, -⟩, -, he⟩ := (spells_exact_iff rfl rfl).1 h
    obtain ⟨v, hv, rfl⟩ := encode_eq_ok he
    cases hslot : o.implicitSlot? with
    | some n =>
      obtain ⟨rfl, rfl⟩ := hi n hslot
      simp only [encodeOperands, hslot, Option.isSome_some, ↓reduceIte] at hv
      cases hv
      exact run_read (readOperands_implicit hslot ▸ reads_pure _) ⟨rfl, rfl⟩ rest start
    | none =>
      simp only [encodeOperands, hslot, Option.isSome_none, Bool.false_eq_true, ↓reduceIte] at hv
      cases wide with
      | true =>
        cases hv
        exact run_read (o := .wide) (reads_readWide offset) (.inr ⟨o, slot, hl, hslot, rfl, rfl⟩)
          rest start
      | false =>
        obtain ⟨b, rfl, rfl⟩ := narrow_eq_ok.1 hv
        have hreads := reads_u8.map fun b => access o b.toUInt16 false
        exact run_read (readOperands_local hl hslot ▸ hreads) ⟨b, rfl, rfl⟩ rest start
  | increment slot delta wide =>
    obtain ⟨-, -, he⟩ := (spells_exact_iff rfl rfl).1 h
    obtain ⟨v, hv, rfl⟩ := encode_eq_ok he
    cases wide with
    | true =>
      cases hv
      exact run_read (o := .wide) (reads_readWide offset) (.inl ⟨slot, delta, rfl, rfl⟩) rest start
    | false =>
      obtain ⟨_, _, h1, h2, rfl⟩ := append_eq_ok.1 hv
      obtain ⟨b, rfl, rfl⟩ := narrow_eq_ok.1 h1
      obtain ⟨d, rfl, rfl⟩ := narrowSigned_eq_ok.1 h2
      exact run_read (o := .iinc) (reads_u8.bind fun b _ _ => reads_i8.map fun d =>
        increment b.toUInt16 d.toInt16 false) ⟨b, _, _, rfl, ⟨d, rfl, rfl⟩, rfl⟩ rest start
  | push o value =>
    obtain ⟨⟨hs, -⟩, -, he⟩ := (spells_exact_iff rfl rfl).1 h
    obtain ⟨v, hv, rfl⟩ := encode_eq_ok he
    rcases hs with rfl | rfl
    · obtain ⟨b, rfl, rfl⟩ := narrowSigned_eq_ok.1 hv
      exact run_read (o := .bipush) (reads_i8.map fun b => push .bipush b.toInt16)
        ⟨b, rfl, rfl⟩ rest
        start
    · cases hv
      exact run_read (o := .sipush) (reads_i16.map (push .sipush)) ⟨value, rfl, rfl⟩ rest start
  | constant o index =>
    obtain ⟨⟨hs, hp⟩, -, he⟩ := (spells_exact_iff rfl rfl).1 h
    obtain ⟨v, hv, rfl⟩ := encode_eq_ok he
    rcases hs with rfl | rfl | rfl
    · obtain ⟨b, rfl, rfl⟩ := narrow_eq_ok.1 hv
      exact run_read (o := .ldc) (reads_u8.bind fun b _ _ =>
        (reads_usableEntry p .ldc .loadable b.toUInt16).map (constant .ldc))
        ⟨b, _, _, rfl, ⟨_, rfl, rfl, hp _ _ rfl rfl, rfl⟩, rfl⟩ rest start
    · cases hv
      exact run_indexed (constant .ldcW) rfl (hp _ _ rfl rfl) rest start
    · cases hv
      exact run_indexed (constant .ldc2W) rfl (hp _ _ rfl rfl) rest start
  | field o index =>
    obtain ⟨⟨hs, hp⟩, -, he⟩ := (spells_exact_iff rfl rfl).1 h
    obtain ⟨_, hv, rfl⟩ := encode_eq_ok he
    cases hv
    rcases hs with rfl | rfl | rfl | rfl <;>
      exact run_indexed (field _) rfl (hp _ _ rfl rfl) rest start
  | invoke o index =>
    obtain ⟨⟨hs, hp⟩, -, he⟩ := (spells_exact_iff rfl rfl).1 h
    obtain ⟨_, hv, rfl⟩ := encode_eq_ok he
    cases hv
    rcases hs with rfl | rfl | rfl <;>
      exact run_indexed (invoke _) rfl (hp _ _ rfl rfl) rest start
  | typed o index =>
    obtain ⟨⟨hs, hp⟩, -, he⟩ := (spells_exact_iff rfl rfl).1 h
    obtain ⟨_, hv, rfl⟩ := encode_eq_ok he
    cases hv
    rcases hs with rfl | rfl | rfl | rfl <;>
      exact run_indexed (typed _) rfl (hp _ _ rfl rfl) rest start
  | invokeInterface index count =>
    obtain ⟨hp, b, rfl⟩ := spells_interfaceCall_iff.1 h
    exact run_read (o := .invokeinterface) ((reads_entry p _ _).bind fun index _ _ =>
      reads_u8.bind fun count _ _ => reads_u8.map fun _ => invokeInterface index count)
      ⟨index, _, _, ⟨hp, rfl⟩, ⟨count, _, _, rfl, ⟨b, rfl, rfl⟩, rfl⟩, rfl⟩ rest start
  | invokeDynamic index =>
    obtain ⟨hp, w, rfl⟩ := spells_dynamicCall_iff.1 h
    exact run_read (o := .invokedynamic) ((reads_entry p _ _).bind fun index _ _ =>
      reads_u16.map fun _ => invokeDynamic index)
      ⟨index, _, _, ⟨hp, rfl⟩, ⟨w, rfl, rfl⟩, rfl⟩ rest start
  | newArray element =>
    obtain ⟨-, -, he⟩ := (spells_exact_iff rfl rfl).1 h
    obtain ⟨_, hv, rfl⟩ := encode_eq_ok he
    cases hv
    exact run_read (reads_readNewArray p offset) ⟨element, rfl, rfl⟩ rest start
  | multiNewArray index dimensions =>
    obtain ⟨⟨-, hp⟩, -, he⟩ := (spells_exact_iff rfl rfl).1 h
    obtain ⟨_, hv, rfl⟩ := encode_eq_ok he
    cases hv
    exact run_read (o := .multianewarray) ((reads_entry p _ _).bind fun index _ _ =>
      reads_u8.map (multiNewArray index))
      ⟨index, _, _, ⟨hp _ _ rfl rfl, rfl⟩, ⟨dimensions, rfl, rfl⟩, rfl⟩ rest start
  | branch o target =>
    obtain ⟨⟨hs, -⟩, hr, he⟩ := (spells_exact_iff rfl rfl).1 h
    obtain ⟨v, hv, rfl⟩ := encode_eq_ok he
    unfold encodeOperands at hv
    dsimp only at hv
    split at hv
    · rename_i hw
      cases hv
      exact run_read (readOperands_wideBranch hw ▸ reads_wideTarget_bind offset fun target =>
        reads_pure (branch o target))
        ⟨target, [], hr target (by simp [targets]), ⟨rfl, rfl⟩, by simp⟩ rest start
    · rename_i hw
      split at hv
      · rename_i hd
        cases hv
        exact run_read (readOperands_branch hs (Bool.not_eq_true _ ▸ hw) ▸
          reads_nearTarget_bind offset fun target => reads_pure (branch o target))
          ⟨target, [], hd, ⟨rfl, rfl⟩, by simp⟩ rest start
      · cases hv
  | tableSwitch default low high targets =>
    obtain ⟨hs, hr, pad, hpad, rfl⟩ := (spells_switch_iff rfl).1 h
    exact run_read (o := .tableswitch) (reads_readTableSwitch offset)
      ⟨default, low, high, targets, rfl, hs, hr, pad, hpad, rfl⟩ rest start
  | lookupSwitch default pairs =>
    obtain ⟨hs, hr, pad, hpad, rfl⟩ := (spells_switch_iff rfl).1 h
    exact run_read (o := .lookupswitch) (reads_readLookupSwitch offset)
      ⟨default, pairs, rfl, hs, hr, pad, hpad, rfl⟩ rest start

theorem reads_read (p : Pool) (offset : Nat) :
    Reads (read p offset) fun i used => i.Spells p offset used := by
  apply Reads.intro
  · refine (reads_opcodeAt offset).sound.bind fun o u hu => ?_
    subst hu
    exact sound_readOperands p offset o
  · intro i used rest start h
    exact read_of_spells h rest start

end Complete

/-! ## Lengths and free bytes -/

theorem length_flatMap_const {α : Type} {f : α → Bytes} {n : Nat} (h : ∀ a, (f a).length = n)
    (as : List α) : (as.flatMap f).length = n * as.length := by
  induction as with
  | nil => rfl
  | cons a as ih =>
    rw [List.flatMap_cons, List.length_append, h, ih, List.length_cons, Nat.mul_succ, Nat.add_comm]

theorem length_wideDistance (offset : Nat) (target : UInt32) :
    (wideDistance offset target).length = 4 := rfl

/-- A `wide` in front of an operation that has its slot in itself. -/
def isOverwide : Instruction → Bool
  | access o _ wide => wide && o.implicitSlot?.isSome
  | _ => false

/-- An instruction takes the bytes it is given room for, and one more if it is wide for no
reason. -/
theorem length_encode {offset : Nat} {i : Instruction} {out : Bytes}
    (h : i.encode offset = .ok out) :
    out.length = i.encodedLength offset + i.isOverwide.toNat := by
  obtain ⟨v, hv, rfl⟩ := encode_eq_ok h
  cases i with
  | simple | field | invoke | invokeInterface | invokeDynamic | typed | newArray | multiNewArray =>
    cases hv
    rfl
  | access o slot wide =>
    rw [encodeOperands] at hv
    split at hv
    · rename_i hslot
      cases hv
      cases wide <;> simp [encodedLength, hslot, isWide, isOverwide]
    · rename_i hslot
      cases wide with
      | true =>
        cases hv
        simp [encodedLength, hslot, isWide, isOverwide]
      | false =>
        obtain ⟨b, -, rfl⟩ := narrow_eq_ok.1 hv
        simp [encodedLength, hslot, isWide, isOverwide]
  | increment slot delta wide =>
    cases wide with
    | true =>
      cases hv
      rfl
    | false =>
      obtain ⟨_, _, h1, h2, rfl⟩ := append_eq_ok.1 hv
      obtain ⟨b, -, rfl⟩ := narrow_eq_ok.1 h1
      obtain ⟨d, -, rfl⟩ := narrowSigned_eq_ok.1 h2
      rfl
  | push o value =>
    rw [encodeOperands] at hv
    rw [encodedLength]
    split at hv
    · rename_i ho
      obtain ⟨b, -, rfl⟩ := narrowSigned_eq_ok.1 hv
      rw [if_pos ho]
      rfl
    · rename_i ho
      cases hv
      rw [if_neg ho]
      rfl
  | constant o index =>
    rw [encodeOperands] at hv
    rw [encodedLength]
    split at hv
    · rename_i ho
      obtain ⟨b, -, rfl⟩ := narrow_eq_ok.1 hv
      rw [if_pos ho]
      rfl
    · rename_i ho
      cases hv
      rw [if_neg ho]
      rfl
  | branch o target =>
    rw [encodedLength]
    unfold encodeOperands at hv
    dsimp only at hv
    split at hv
    · rename_i ho
      cases hv
      rw [if_pos ho]
      rfl
    · rename_i ho
      rw [if_neg ho]
      split at hv <;> cases hv
      rfl
  | tableSwitch default low high targets =>
    cases hv
    have ht := length_flatMap_const (length_wideDistance offset) targets
    simp [encodedLength, isWide, isOverwide, padding, ofI32, length_wideDistance, ht]
    omega
  | lookupSwitch default pairs =>
    cases hv
    have hp := length_flatMap_const (n := 8)
      (f := fun pair : Int32 × UInt32 => ofI32 pair.1 ++ wideDistance offset pair.2) (fun _ => rfl)
      pairs
    simp [encodedLength, isWide, isOverwide, padding, length_wideDistance, hp]
    omega

theorem length_of_encode {offset : Nat} {i : Instruction} {out : Bytes} (hs : i.Shape)
    (h : i.encode offset = .ok out) : out.length = i.encodedLength offset := by
  have hnarrow : i.isOverwide = false := by
    cases i with
    | access o slot wide =>
      unfold isOverwide
      cases hslot : o.implicitSlot? with
      | some n => simp [(hs.2 n hslot).2]
      | none => simp [hslot]
    | _ => rfl
  rw [length_encode h, hnarrow]
  rfl

theorem encodedLength_pos (offset : Nat) (i : Instruction) : 0 < i.encodedLength offset := by
  cases i <;> simp only [encodedLength] <;> grind

theorem encodedLength_le (offset : Nat) (i : Instruction) :
    i.encodedLength offset ≤ 12 * (i.targets.length + 1) := by
  cases i with
  | tableSwitch | lookupSwitch =>
    simp only [encodedLength, switchPadding, targets, List.length_cons, List.length_map]
    omega
  | _ =>
    simp only [encodedLength]
    grind

namespace Spells

variable {p : Pool} {offset : Nat} {i : Instruction} {used : Bytes}

theorem encode_eq_ok (h : i.Spells p offset used) : ∃ out, i.encode offset = .ok out := by
  obtain ⟨-, -, head, fill, tail, -, -, -, he⟩ := h
  exact ⟨_, he⟩

theorem length_eq (h : i.Spells p offset used) : used.length = i.encodedLength offset := by
  obtain ⟨hf, -, head, fill, tail, -, hl, rfl, he⟩ := h
  rw [← length_of_encode hf.1 he]
  simp [hl]

end Spells

/-- What is written for a form that can be read is one of its spellings. -/
theorem spells_of_encode {p : Pool} {offset : Nat} {i : Instruction} {out : Bytes} (hf : i.Fits p)
    (hr : i.InReach offset) (h : i.encode offset = .ok out) : i.Spells p offset out := by
  cases i with
  | invokeInterface index count =>
    obtain ⟨_, hv, rfl⟩ := encode_eq_ok h
    cases hv
    exact spells_interfaceCall_iff.2 ⟨hf.2 _ _ rfl rfl, 0, rfl⟩
  | invokeDynamic index =>
    obtain ⟨_, hv, rfl⟩ := encode_eq_ok h
    cases hv
    exact spells_dynamicCall_iff.2 ⟨hf.2 _ _ rfl rfl, 0, rfl⟩
  | tableSwitch | lookupSwitch =>
    obtain ⟨_, hv, rfl⟩ := encode_eq_ok h
    cases hv
    exact (spells_switch_iff rfl).2 ⟨hf.1, hr, padding offset, List.length_replicate,
      by simp [isWide, switchOperands]⟩
  | _ => exact spells_exact hf hr rfl rfl h

/-- What is written is what was read exactly where the free bytes were zero. -/
theorem encode_eq_iff {p : Pool} {offset : Nat} {i : Instruction} {used : Bytes}
    (h : i.Spells p offset used) :
    i.encode offset = .ok used ↔
      ∀ k < i.free offset, used[i.freeStart + k]? = some 0 := by
  obtain ⟨-, -, head, fill, tail, hh, hl, rfl, he⟩ := h
  rw [he, Except.ok.injEq, List.append_cancel_right_eq, List.append_cancel_left_eq]
  have hget (k : Nat) (hk : k < i.free offset) :
      (head ++ fill ++ tail)[i.freeStart + k]? = fill[k]? := by
    rw [List.append_assoc, ← hh, List.getElem?_append_right (by omega),
      Nat.add_sub_cancel_left, List.getElem?_append_left (by omega)]
  constructor
  · rintro rfl k hk
    rw [hget k hk, List.getElem?_replicate, if_pos hk]
  · intro hz
    refine (List.eq_replicate_iff.2 ⟨hl, fun b hb => ?_⟩).symm
    obtain ⟨k, hk, rfl⟩ := List.getElem_of_mem hb
    have e := hz k (by omega)
    rw [hget k (by omega), List.getElem?_eq_getElem hk] at e
    exact Option.some.inj e

end Instruction

end JvmClass
