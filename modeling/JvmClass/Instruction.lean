import JvmClass.Error

/-!
# Instructions

An instruction with its operands. Jump targets are absolute offsets from the start of the code;
before code is laid out they may be any keys that stand for a target. `encodedLength` is the
number of bytes `encode` writes for the forms that `Instruction.read` yields.
-/

namespace JvmClass

/-- Element types of arrays of primitive values. -/
inductive ArrayType where
  | boolean | char | float | double | byte | short | int | long
  deriving DecidableEq

namespace ArrayType

def all : List ArrayType := [boolean, char, float, double, byte, short, int, long]

def code (t : ArrayType) : UInt8 := UInt8.ofNat (t.ctorIdx + 4)

def ofByte? (b : UInt8) : Option ArrayType :=
  if 4 ≤ b.toNat then all[b.toNat - 4]? else none

theorem ofByte?_code (t : ArrayType) : ofByte? t.code = some t := by
  cases t <;> rfl

def name : ArrayType → String
  | boolean => "boolean"
  | char => "char"
  | float => "float"
  | double => "double"
  | byte => "byte"
  | short => "short"
  | int => "int"
  | long => "long"

def ofName? (name : String) : Option ArrayType := all.find? fun t => t.name = name

end ArrayType

inductive Instruction where
  /-- No operands. -/
  | simple (opcode : Opcode)
  /-- Loads, stores and `ret`. -/
  | access (opcode : Opcode) (slot : UInt16) (wide : Bool)
  | increment (slot : UInt16) (delta : Int16) (wide : Bool)
  | push (opcode : Opcode) (value : Int16)
  | constant (opcode : Opcode) (index : UInt16)
  | field (opcode : Opcode) (index : UInt16)
  | invoke (opcode : Opcode) (index : UInt16)
  | invokeInterface (index : UInt16) (count : UInt8)
  | invokeDynamic (index : UInt16)
  /-- Operations on a class: `new`, `anewarray`, `checkcast` and `instanceof`. -/
  | typed (opcode : Opcode) (index : UInt16)
  | newArray (element : ArrayType)
  | multiNewArray (index : UInt16) (dimensions : UInt8)
  | branch (opcode : Opcode) (target : UInt32)
  | tableSwitch (default : UInt32) (low high : Int32) (targets : List UInt32)
  | lookupSwitch (default : UInt32) (pairs : List (Int32 × UInt32))
  deriving DecidableEq

namespace Instruction

def opcode : Instruction → Opcode
  | simple o | access o _ _ | push o _ | constant o _ | field o _ | invoke o _ | typed o _
  | branch o _ => o
  | increment .. => .iinc
  | invokeInterface .. => .invokeinterface
  | invokeDynamic _ => .invokedynamic
  | newArray _ => .newarray
  | multiNewArray .. => .multianewarray
  | tableSwitch .. => .tableswitch
  | lookupSwitch .. => .lookupswitch

/-- Every jump target, the default of a switch first. -/
def targets : Instruction → List UInt32
  | branch _ target => [target]
  | tableSwitch default _ _ targets => default :: targets
  | lookupSwitch default pairs => default :: pairs.map Prod.snd
  | _ => []

/-- Passes every target through `f`, in the order of `targets`. -/
def mapTargets {ε : Type} (f : UInt32 → Except ε UInt32) : Instruction → Except ε Instruction
  | branch o target => do return branch o (← f target)
  | tableSwitch default low high targets => do
    return tableSwitch (← f default) low high (← targets.mapM f)
  | lookupSwitch default pairs => do
    return lookupSwitch (← f default) (← pairs.mapM fun (key, target) => do
      return (key, ← f target))
  | i => .ok i

/-- The pool entry an instruction refers to. -/
def poolIndex? : Instruction → Option UInt16
  | constant _ i | field _ i | invoke _ i | invokeInterface i _ | invokeDynamic i | typed _ i
  | multiNewArray i _ => some i
  | _ => none

/-- Bytes after a switch opcode that bring its operands to a multiple of four. -/
def switchPadding (offset : Nat) : Nat := 3 - offset % 4

/-- Bytes taken by an instruction that starts at `offset`. The number is unbounded here; where it
is kept in four bytes, an instruction with `2 ^ 28` targets or more is left out. -/
def encodedLength (offset : Nat) : Instruction → Nat
  | simple _ => 1
  | access o _ wide => if o.implicitSlot?.isSome then 1 else if wide then 4 else 2
  | increment _ _ wide => if wide then 6 else 3
  | push o _ => if o = .bipush then 2 else 3
  | constant o _ => if o = .ldc then 2 else 3
  | field .. | invoke .. | typed .. => 3
  | invokeInterface .. | invokeDynamic _ => 5
  | newArray _ => 2
  | multiNewArray .. => 4
  | branch o _ => if o.isWideBranch then 5 else 3
  | tableSwitch _ _ _ targets => 1 + switchPadding offset + 12 + 4 * targets.length
  | lookupSwitch _ pairs => 1 + switchPadding offset + 8 + 8 * pairs.length

/-! ## Binary form -/

/-- A one-byte slot or index. -/
def narrow (offset : Nat) (value : UInt16) : Except Error Bytes :=
  if value.toNat < 0x100 then .ok [UInt8.ofNat value.toNat]
  else .error (.ofCode offset .needsWideForm)

/-- A one-byte signed operand. -/
def narrowSigned (offset : Nat) (fault : CodeFault) (value : Int16) : Except Error Bytes :=
  if -0x80 ≤ value.toInt ∧ value.toInt < 0x80 then .ok [value.toInt8.toUInt8]
  else .error (.ofCode offset fault)

def distance (offset : Nat) (target : UInt32) : Int := (target.toNat : Int) - offset

def wideDistance (offset : Nat) (target : UInt32) : Bytes :=
  Bytes.ofU32 (distance offset target).toInt32.toUInt32

def ofI32 (i : Int32) : Bytes := Bytes.ofU32 i.toUInt32

def padding (offset : Nat) : Bytes := List.replicate (switchPadding offset) 0

/-- The operand bytes of an instruction that starts at `offset`. -/
def encodeOperands (offset : Nat) : Instruction → Except Error Bytes
  | simple _ => .ok []
  | access o slot wide =>
    if o.implicitSlot?.isSome then .ok []
    else if wide then .ok (Bytes.ofU16 slot)
    else narrow offset slot
  | increment slot delta wide =>
    if wide then .ok (Bytes.ofU16 slot ++ Bytes.ofU16 delta.toUInt16)
    else do
      let slot ← narrow offset slot
      let delta ← narrowSigned offset .deltaTooLarge delta
      return slot ++ delta
  | push o value =>
    if o = .bipush then narrowSigned offset .pushTooLarge value
    else .ok (Bytes.ofU16 value.toUInt16)
  | constant o index => if o = .ldc then narrow offset index else .ok (Bytes.ofU16 index)
  | field _ index | invoke _ index | typed _ index => .ok (Bytes.ofU16 index)
  | invokeInterface index count => .ok (Bytes.ofU16 index ++ [count, 0])
  | invokeDynamic index => .ok (Bytes.ofU16 index ++ [0, 0])
  | newArray element => .ok [element.code]
  | multiNewArray index dimensions => .ok (Bytes.ofU16 index ++ [dimensions])
  | branch o target =>
    let delta := distance offset target
    if o.isWideBranch then .ok (wideDistance offset target)
    else if -0x8000 ≤ delta ∧ delta < 0x8000 then .ok (Bytes.ofU16 delta.toInt16.toUInt16)
    else .error (.branchOutOfRange offset delta)
  | tableSwitch default low high targets =>
    .ok (padding offset ++ wideDistance offset default ++ ofI32 low ++ ofI32 high ++
      targets.flatMap (wideDistance offset))
  | lookupSwitch default pairs =>
    .ok (padding offset ++ wideDistance offset default ++
      Bytes.ofU32 (UInt32.ofNat pairs.length) ++
      pairs.flatMap fun (key, target) => ofI32 key ++ wideDistance offset target)

/-- Whether the instruction stands behind a `wide` opcode. -/
def isWide : Instruction → Bool
  | access _ _ wide | increment _ _ wide => wide
  | _ => false

/-- The bytes of an instruction that starts at `offset`. -/
def encode (offset : Nat) (i : Instruction) : Except Error Bytes := do
  let operands ← i.encodeOperands offset
  return (if i.isWide then [Opcode.wide.code] else []) ++ i.opcode.code :: operands

end Instruction

end JvmClass
