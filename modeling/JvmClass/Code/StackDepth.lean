import JvmClass.Code.Layout
import JvmClass.Descriptor
import JvmClass.Pool

/-!
# Stack depth and local variables

The deepest operand stack and the number of local variables of laid-out code. The code is walked
along every path from its start, where the stack is empty, and from each exception handler,
where it holds the exception. An instruction is visited once, at the depth at which it is first
reached: the walk keeps books and does not verify.
-/

namespace JvmClass.Code

open Instruction

/-- Slots popped and pushed by an instruction, counted in two bytes as those of a method. -/
def stackEffect (p : Pool) : Instruction → Except Error (UInt16 × UInt16)
  | field o index => do
    let slots := (← FieldType.parse (← p.memberName index).descriptor).slots
    return match o with
      | .getstatic => (0, slots)
      | .putstatic => (slots, 0)
      | .getfield => (1, slots)
      | _ => (1 + slots, 0)
  | invoke o index => do
    let m ← MethodType.parse (← p.memberName index).descriptor
    let receiver := if o = .invokestatic then 0 else 1
    return (m.parameterSlots + receiver, m.resultSlots)
  | invokeInterface index _ => do
    let m ← MethodType.parse (← p.memberName index).descriptor
    return (m.parameterSlots + 1, m.resultSlots)
  | invokeDynamic index => do
    match ← p.get index with
    | .invokeDynamic _ member =>
      let m ← MethodType.parse (← p.nameAndType member).2
      return (m.parameterSlots, m.resultSlots)
    | c => throw (.unexpectedConstant .invokeDynamic c)
  | multiNewArray _ dimensions => .ok (dimensions.toUInt16, 1)
  | i => .ok (i.opcode.stackEffect?.getD (0, 0))

/-- Code together with what a walk needs to know about it. -/
structure Walk where
  code : Array Instruction
  offsets : Array Nat
  indices : Std.HashMap Nat Nat
  pool : Pool

/-- An instruction still to be visited, and the depth at which it is reached. -/
structure Arrival where
  index : Nat
  depth : UInt16

def Walk.offset (w : Walk) (index : Nat) : Nat := w.offsets.getD index 0

/-- The instruction at offset `target`, to which the one at offset `source` jumps. -/
def Walk.find (w : Walk) (source target : Nat) : Except Error Nat :=
  match w.indices[target]? with
  | some index =>
    if index < w.code.size then .ok index else .error (.invalidBranchTarget source target)
  | none => .error (.invalidBranchTarget source target)

/-- The depth behind the instruction at offset `offset`, when it is reached at `depth`. -/
def depthAfter (offset : Nat) (opcode : Opcode) (depth popped pushed : UInt16) :
    Except Error UInt16 :=
  if depth < popped then .error (.unbalancedStack offset opcode popped.toNat depth.toNat)
  else
    let after := (depth - popped).toNat + pushed.toNat
    if after < 0x10000 then .ok (UInt16.ofNat after)
    else .error (.tooManyEntries .operandStack after)

/-- The arrivals that follow on `here`, the next to be visited first, and the depth behind it.
The way on stands before the targets, and a later target before an earlier one. -/
def Walk.step (w : Walk) (here : Arrival) (i : Instruction) :
    Except Error (List Arrival × UInt16) := do
  let offset := w.offset here.index
  let (popped, pushed) ← stackEffect w.pool i
  let after ← depthAfter offset i.opcode here.depth popped pushed
  let jumps ← i.targets.mapM fun target => do
    return Arrival.mk (← w.find offset target.toNat) after
  -- The return address of a subroutine is gone when it comes back.
  let onward := match i.opcode with
    | .jsr | .jsrW => here.depth
    | _ => after
  let ways :=
    if !i.opcode.endsBlock && here.index + 1 < w.code.size then
      ⟨here.index + 1, onward⟩ :: jumps.reverse
    else jumps.reverse
  return (ways, after)

/-- The first arrival at an instruction not yet visited, and those behind it. -/
def nextUnvisited (visited : Array Bool) : List Arrival → Option (Arrival × List Arrival)
  | [] => none
  | here :: rest =>
    if visited.getD here.index true then nextUnvisited visited rest else some (here, rest)

/-- Visits what is reached from the arrivals, at most `budget` instructions, and returns the
greatest depth seen. -/
def Walk.visit (w : Walk) :
    (budget : Nat) → Array Bool → List Arrival → (deepest : UInt16) → Except Error UInt16
  | 0, _, _, deepest => .ok deepest
  | budget + 1, visited, arrivals, deepest =>
    match nextUnvisited visited arrivals with
    | none => .ok deepest
    | some (here, rest) => do
      match w.code[here.index]? with
      | none => return deepest
      | some i =>
        let (ways, after) ← w.step here i
        w.visit budget (visited.setIfInBounds here.index true) (ways ++ rest)
          (max deepest (max here.depth after))

/-- The slot behind the local variables an instruction touches. -/
def localsEnd? : Instruction → Option Nat
  | access o slot _ => some (slot.toNat + o.localSlots?.getD 1)
  | increment slot _ _ => some (slot.toNat + 1)
  | _ => none

/-- The number of local variables, at least `initial`. -/
def maxLocals (code : List Instruction) (initial : UInt16) : Except Error UInt16 :=
  code.foldlM (fun most i =>
    match localsEnd? i with
    | none => .ok most
    | some last =>
      if last < 0x10000 then .ok (max most (UInt16.ofNat last))
      else .error (.tooManyEntries .localVariables 0x10000)) initial

/-- The greatest stack depth and the number of local variables of code at the given offsets. -/
def maxima (p : Pool) (code : List Instruction) (offsets : Array Nat) (handlers : List Nat)
    (initialLocals : UInt16) : Except Error (UInt16 × UInt16) := do
  let w : Walk := ⟨code.toArray, offsets, indexOf offsets, p⟩
  let caught ← handlers.mapM fun handler => do return Arrival.mk (← w.find handler handler) 1
  let start := if code.isEmpty then [] else [Arrival.mk 0 0]
  let arrivals := caught.reverse ++ start
  let deepest ← w.visit code.length (Array.replicate code.length false) arrivals 0
  return (deepest, ← maxLocals code initialLocals)

end JvmClass.Code
