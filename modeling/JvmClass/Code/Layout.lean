import JvmClass.Instruction
import Std.Data.HashMap

/-!
# Laying out code

Instructions are placed one behind the other from offset zero. A target is a key at first; a
layout finds the instruction it stands for and writes that instruction's offset in its place.
Offsets are numbers without a bound. Four bytes hold them as long as the code has no more than
`2 ^ 28` instructions and targets (`lt_of_mem_offsets`); longer code is left out.
-/

namespace JvmClass.Code

open Instruction

/-- The offsets of instructions placed from `offset` on, behind those of earlier ones, and then
the offset of the end. -/
def offsetsAfter : List Instruction → (offset : Nat) → Array Nat → Array Nat
  | [], offset, starts => starts.push offset
  | i :: rest, offset, starts =>
    offsetsAfter rest (offset + i.encodedLength offset) (starts.push offset)

/-- The offset of every instruction, then the length of the code. -/
def offsets (code : List Instruction) : Array Nat :=
  offsetsAfter code 0 #[]

/-- The index of each offset. An offset that occurs twice keeps its last index. -/
def indexOf (starts : Array Nat) : Std.HashMap Nat Nat :=
  starts.toList.zipIdx.foldl (fun indices (offset, i) => indices.insert offset i) ∅

/-- The index of every instruction, and of the end, by its offset. -/
def indexByOffset (code : List Instruction) : Std.HashMap Nat Nat :=
  indexOf (offsets code)

/-- Code that is laid out. -/
structure Assembled where
  bytes : Bytes
  /-- The offset of every instruction, then the length of the code. -/
  offsets : Array Nat
  /-- The instructions with their targets as offsets. -/
  instructions : List Instruction

/-- The new target of the instruction at `offset`, for a key that `resolve` takes to an index. -/
def placeTarget (starts : Array Nat) (count : Nat) (resolve : UInt32 → Except Error Nat)
    (offset : Nat) (key : UInt32) : Except Error UInt32 := do
  let index ← resolve key
  if index < count then return UInt32.ofNat (starts.getD index 0)
  else throw (.invalidBranchTarget offset key.toNat)

/-- Lays out and encodes instructions whose targets are keys. -/
def assemble (code : List Instruction) (resolve : UInt32 → Except Error Nat) :
    Except Error Assembled := do
  let starts := offsets code
  let length := starts.back?.getD 0
  if 0x10000 ≤ length then throw (.tooManyEntries .code length)
  let count := code.length
  let placed ← (code.zip starts.toList).mapM fun (i, offset) =>
    i.mapTargets (placeTarget starts count resolve offset)
  let bytes ← concatM (fun (i, offset) => Instruction.encode offset i) (placed.zip starts.toList)
  return ⟨bytes, starts, placed⟩

/-- The instruction at an offset of earlier code. -/
def resolveOffset (indices : Std.HashMap Nat Nat) (target : UInt32) : Except Error Nat :=
  match indices[target.toNat]? with
  | some index => .ok index
  | none => .error (.invalidBranchTarget 0 target.toNat)

/-- Encodes instructions whose targets are their own offsets. -/
def reassemble (code : List Instruction) : Except Error Assembled :=
  assemble code (resolveOffset (indexByOffset code))

end JvmClass.Code
