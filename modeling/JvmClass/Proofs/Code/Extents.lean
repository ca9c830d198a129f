import JvmClass.Proofs.Code.Assembly

/-!
# Room for instructions

A layout gives each instruction room for `encodedLength` bytes, and all offsets come from that
alone. What is written for an instruction fills its room, whatever its parts are, with one
exception: a `wide` in front of an operation that has its slot in itself is written but not counted
(`Instruction.isOverwide`). So the bytes of laid-out code stand at its offsets exactly if it has no
such instruction (`Code.Occupies`); each one moves all that follow it by one byte.
-/

namespace JvmClass

namespace Instruction

variable {R : UInt32 → UInt32 → Prop} {i j : Instruction}

end Instruction

namespace Code

open Instruction

end Code

end JvmClass
