import JvmClass.Instruction
import JvmClass.Pool
import JvmClass.Reader
import Std.Data.HashSet

/-!
# Reading code

Instructions are read one after the other to the end of the code. An operand that refers to the
pool has to find an entry its opcode can use, and in the end every jump has to land on the start
of an instruction.
-/

namespace JvmClass.Instruction

open Reader

/-- A pool index whose entry the opcode can use. -/
def usableEntry (p : Pool) (opcode : Opcode) (role : Role) (index : UInt16) : Reader UInt16 := do
  let c ← ofExcept (p.get index)
  if role.accepts c then return index
  else throw (.malformedConstant index (.wrongOperand opcode c.kindName))

/-- A two-byte operand that refers to the pool. -/
def entry (p : Pool) (opcode : Opcode) (role : Role) : Reader UInt16 := do
  usableEntry p opcode role (← u16)

/-- The target at a distance from the instruction at `offset`. -/
def absolute (offset : Nat) (delta : Int32) : Reader UInt32 :=
  let target := (offset : Int) + delta.toInt
  if 0 ≤ target ∧ target < 0x100000000 then pure (UInt32.ofNat target.toNat)
  else throw (.invalidBranchTarget offset target)

def opcodeAt (offset : Nat) : Reader Opcode := do
  let b ← u8
  match Opcode.ofByte? b with
  | some o => return o
  | none => throw (.unknownOpcode b offset)

/-- The instruction behind a `wide` opcode at `offset`. -/
def readWide (offset : Nat) : Reader Instruction := do
  let o ← opcodeAt (offset + 1)
  if o = .iinc then return increment (← u16) (← i16) true
  else if o.localSlots?.isSome && o.implicitSlot?.isNone then return access o (← u16) true
  else throw (.ofCode offset (.notWidened o))

def readTableSwitch (offset : Nat) : Reader Instruction := do
  let _ ← take (switchPadding offset)
  let default ← absolute offset (← i32)
  let low ← i32
  let high ← i32
  if high < low then throw (.ofCode offset .emptySwitchRange)
  let count := (high.toInt - low.toInt + 1).toNat
  need (count * 4)
  let targets ← times count do absolute offset (← i32)
  return tableSwitch default low high targets

def readLookupSwitch (offset : Nat) : Reader Instruction := do
  let _ ← take (switchPadding offset)
  let default ← absolute offset (← i32)
  let count ← i32
  if count < 0 then throw (.ofCode offset .negativePairCount)
  need (count.toInt.toNat * 8)
  let pairs ← times count.toInt.toNat do
    let key ← i32
    return (key, ← absolute offset (← i32))
  return lookupSwitch default pairs

/-- The operands of an operation at `offset`. -/
def readOperands (p : Pool) (offset : Nat) (o : Opcode) : Reader Instruction := do
  match o with
  | .bipush => return push o (← i8).toInt16
  | .sipush => return push o (← i16)
  | .ldc => return constant o (← usableEntry p o .loadable (← u8).toUInt16)
  | .ldcW => return constant o (← entry p o .loadable)
  | .ldc2W => return constant o (← entry p o .wideLoadable)
  | .iinc => return increment (← u8).toUInt16 (← i8).toInt16 false
  | .wide => readWide offset
  | .getstatic | .putstatic | .getfield | .putfield => return field o (← entry p o .fieldRef)
  | .invokevirtual => return invoke o (← entry p o .methodRef)
  | .invokespecial | .invokestatic => return invoke o (← entry p o .anyMethodRef)
  | .invokeinterface =>
    let index ← entry p o .interfaceMethodRef
    let count ← u8
    let _ ← u8
    return invokeInterface index count
  | .invokedynamic =>
    let index ← entry p o .invokeDynamic
    let _ ← u16
    return invokeDynamic index
  | .new | .anewarray | .checkcast | .instanceof => return typed o (← entry p o .classRef)
  | .multianewarray =>
    let index ← entry p o .classRef
    return multiNewArray index (← u8)
  | .newarray =>
    let b ← u8
    match ArrayType.ofByte? b with
    | some element => return newArray element
    | none => throw (.ofCode offset (.unknownArrayType b))
  | .tableswitch => readTableSwitch offset
  | .lookupswitch => readLookupSwitch offset
  | _ =>
    match o.implicitSlot? with
    | some slot => return access o (UInt16.ofNat slot) false
    | none =>
      if o.localSlots?.isSome then return access o (← u8).toUInt16 false
      else if o.isWideBranch then return branch o (← absolute offset (← i32))
      else if o.isBranch then return branch o (← absolute offset (← i16).toInt32)
      else return simple o

def read (p : Pool) (offset : Nat) : Reader Instruction := do
  readOperands p offset (← opcodeAt offset)

/-- Reads to the end of the code, at most `limit` instructions, behind the instructions read so
far with their offsets, which stand in reverse. -/
def readAll (p : Pool) :
    (limit : Nat) → List (Nat × Instruction) → Reader (List (Nat × Instruction))
  | 0, located => pure located.reverse
  | limit + 1, located => fun c =>
    if c.bytes.isEmpty then .ok located.reverse c
    else
      match read p c.offset c with
      | .ok i rest => readAll p limit ((c.offset, i) :: located) rest
      | .error e rest => .error e rest

/-- Checks that every target of every instruction is among the starts. -/
def checkTargets (starts : Std.HashSet Nat) (located : List (Nat × Instruction)) :
    Except Error Unit :=
  located.forM fun (offset, i) =>
    match i.targets.find? fun target => !starts.contains target.toNat with
    | some target => .error (.invalidBranchTarget offset target.toNat)
    | none => .ok ()

/-- Decodes the code of a method. Every instruction takes one byte at least. -/
def decode (p : Pool) (code : Bytes) : Except Error (List Instruction) := do
  let located ← (readAll p code.length []).runOn code
  checkTargets (Std.HashSet.ofList (located.map Prod.fst)) located
  return located.map Prod.snd

end JvmClass.Instruction
