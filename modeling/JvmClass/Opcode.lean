import Std.Data.HashMap

/-!
# Opcodes

The 202 operations of the instruction set, in the order of their codes, so that an operation's
code is its position. Each has a mnemonic and, unless it depends on an operand, a fixed effect on
the operand stack, counted in slots (a long or double takes two).
-/

namespace JvmClass

inductive Opcode where
  | nop | aconstNull | iconstM1 | iconst0 | iconst1 | iconst2 | iconst3 | iconst4 | iconst5
  | lconst0 | lconst1 | fconst0 | fconst1 | fconst2 | dconst0 | dconst1 | bipush | sipush | ldc
  | ldcW | ldc2W | iload | lload | fload | dload | aload | iload0 | iload1 | iload2 | iload3
  | lload0 | lload1 | lload2 | lload3 | fload0 | fload1 | fload2 | fload3 | dload0 | dload1
  | dload2 | dload3 | aload0 | aload1 | aload2 | aload3 | iaload | laload | faload | daload
  | aaload | baload | caload | saload | istore | lstore | fstore | dstore | astore | istore0
  | istore1 | istore2 | istore3 | lstore0 | lstore1 | lstore2 | lstore3 | fstore0 | fstore1
  | fstore2 | fstore3 | dstore0 | dstore1 | dstore2 | dstore3 | astore0 | astore1 | astore2
  | astore3 | iastore | lastore | fastore | dastore | aastore | bastore | castore | sastore | pop
  | pop2 | dup | dupX1 | dupX2 | dup2 | dup2X1 | dup2X2 | swap | iadd | ladd | fadd | dadd | isub
  | lsub | fsub | dsub | imul | lmul | fmul | dmul | idiv | ldiv | fdiv | ddiv | irem | lrem
  | frem | drem | ineg | lneg | fneg | dneg | ishl | lshl | ishr | lshr | iushr | lushr | iand
  | land | ior | lor | ixor | lxor | iinc | i2l | i2f | i2d | l2i | l2f | l2d | f2i | f2l | f2d
  | d2i | d2l | d2f | i2b | i2c | i2s | lcmp | fcmpl | fcmpg | dcmpl | dcmpg | ifeq | ifne | iflt
  | ifge | ifgt | ifle | ifIcmpeq | ifIcmpne | ifIcmplt | ifIcmpge | ifIcmpgt | ifIcmple
  | ifAcmpeq | ifAcmpne | goto | jsr | ret | tableswitch | lookupswitch | ireturn | lreturn
  | freturn | dreturn | areturn | vreturn | getstatic | putstatic | getfield | putfield
  | invokevirtual | invokespecial | invokestatic | invokeinterface | invokedynamic | new
  | newarray | anewarray | arraylength | athrow | checkcast | instanceof | monitorenter
  | monitorexit | wide | multianewarray | ifnull | ifnonnull | gotoW | jsrW
  deriving DecidableEq, Inhabited

namespace Opcode

/-- Mnemonic, slots popped and slots pushed. The counts of operations with a variable effect are
not meaningful. -/
def row : Opcode → String × UInt16 × UInt16
  | nop => ("nop", 0, 0)
  | aconstNull => ("aconst_null", 0, 1)
  | iconstM1 => ("iconst_m1", 0, 1)
  | iconst0 => ("iconst_0", 0, 1)
  | iconst1 => ("iconst_1", 0, 1)
  | iconst2 => ("iconst_2", 0, 1)
  | iconst3 => ("iconst_3", 0, 1)
  | iconst4 => ("iconst_4", 0, 1)
  | iconst5 => ("iconst_5", 0, 1)
  | lconst0 => ("lconst_0", 0, 2)
  | lconst1 => ("lconst_1", 0, 2)
  | fconst0 => ("fconst_0", 0, 1)
  | fconst1 => ("fconst_1", 0, 1)
  | fconst2 => ("fconst_2", 0, 1)
  | dconst0 => ("dconst_0", 0, 2)
  | dconst1 => ("dconst_1", 0, 2)
  | bipush => ("bipush", 0, 1)
  | sipush => ("sipush", 0, 1)
  | ldc => ("ldc", 0, 1)
  | ldcW => ("ldc_w", 0, 1)
  | ldc2W => ("ldc2_w", 0, 2)
  | iload => ("iload", 0, 1)
  | lload => ("lload", 0, 2)
  | fload => ("fload", 0, 1)
  | dload => ("dload", 0, 2)
  | aload => ("aload", 0, 1)
  | iload0 => ("iload_0", 0, 1)
  | iload1 => ("iload_1", 0, 1)
  | iload2 => ("iload_2", 0, 1)
  | iload3 => ("iload_3", 0, 1)
  | lload0 => ("lload_0", 0, 2)
  | lload1 => ("lload_1", 0, 2)
  | lload2 => ("lload_2", 0, 2)
  | lload3 => ("lload_3", 0, 2)
  | fload0 => ("fload_0", 0, 1)
  | fload1 => ("fload_1", 0, 1)
  | fload2 => ("fload_2", 0, 1)
  | fload3 => ("fload_3", 0, 1)
  | dload0 => ("dload_0", 0, 2)
  | dload1 => ("dload_1", 0, 2)
  | dload2 => ("dload_2", 0, 2)
  | dload3 => ("dload_3", 0, 2)
  | aload0 => ("aload_0", 0, 1)
  | aload1 => ("aload_1", 0, 1)
  | aload2 => ("aload_2", 0, 1)
  | aload3 => ("aload_3", 0, 1)
  | iaload => ("iaload", 2, 1)
  | laload => ("laload", 2, 2)
  | faload => ("faload", 2, 1)
  | daload => ("daload", 2, 2)
  | aaload => ("aaload", 2, 1)
  | baload => ("baload", 2, 1)
  | caload => ("caload", 2, 1)
  | saload => ("saload", 2, 1)
  | istore => ("istore", 1, 0)
  | lstore => ("lstore", 2, 0)
  | fstore => ("fstore", 1, 0)
  | dstore => ("dstore", 2, 0)
  | astore => ("astore", 1, 0)
  | istore0 => ("istore_0", 1, 0)
  | istore1 => ("istore_1", 1, 0)
  | istore2 => ("istore_2", 1, 0)
  | istore3 => ("istore_3", 1, 0)
  | lstore0 => ("lstore_0", 2, 0)
  | lstore1 => ("lstore_1", 2, 0)
  | lstore2 => ("lstore_2", 2, 0)
  | lstore3 => ("lstore_3", 2, 0)
  | fstore0 => ("fstore_0", 1, 0)
  | fstore1 => ("fstore_1", 1, 0)
  | fstore2 => ("fstore_2", 1, 0)
  | fstore3 => ("fstore_3", 1, 0)
  | dstore0 => ("dstore_0", 2, 0)
  | dstore1 => ("dstore_1", 2, 0)
  | dstore2 => ("dstore_2", 2, 0)
  | dstore3 => ("dstore_3", 2, 0)
  | astore0 => ("astore_0", 1, 0)
  | astore1 => ("astore_1", 1, 0)
  | astore2 => ("astore_2", 1, 0)
  | astore3 => ("astore_3", 1, 0)
  | iastore => ("iastore", 3, 0)
  | lastore => ("lastore", 4, 0)
  | fastore => ("fastore", 3, 0)
  | dastore => ("dastore", 4, 0)
  | aastore => ("aastore", 3, 0)
  | bastore => ("bastore", 3, 0)
  | castore => ("castore", 3, 0)
  | sastore => ("sastore", 3, 0)
  | pop => ("pop", 1, 0)
  | pop2 => ("pop2", 2, 0)
  | dup => ("dup", 1, 2)
  | dupX1 => ("dup_x1", 2, 3)
  | dupX2 => ("dup_x2", 3, 4)
  | dup2 => ("dup2", 2, 4)
  | dup2X1 => ("dup2_x1", 3, 5)
  | dup2X2 => ("dup2_x2", 4, 6)
  | swap => ("swap", 2, 2)
  | iadd => ("iadd", 2, 1)
  | ladd => ("ladd", 4, 2)
  | fadd => ("fadd", 2, 1)
  | dadd => ("dadd", 4, 2)
  | isub => ("isub", 2, 1)
  | lsub => ("lsub", 4, 2)
  | fsub => ("fsub", 2, 1)
  | dsub => ("dsub", 4, 2)
  | imul => ("imul", 2, 1)
  | lmul => ("lmul", 4, 2)
  | fmul => ("fmul", 2, 1)
  | dmul => ("dmul", 4, 2)
  | idiv => ("idiv", 2, 1)
  | ldiv => ("ldiv", 4, 2)
  | fdiv => ("fdiv", 2, 1)
  | ddiv => ("ddiv", 4, 2)
  | irem => ("irem", 2, 1)
  | lrem => ("lrem", 4, 2)
  | frem => ("frem", 2, 1)
  | drem => ("drem", 4, 2)
  | ineg => ("ineg", 1, 1)
  | lneg => ("lneg", 2, 2)
  | fneg => ("fneg", 1, 1)
  | dneg => ("dneg", 2, 2)
  | ishl => ("ishl", 2, 1)
  | lshl => ("lshl", 3, 2)
  | ishr => ("ishr", 2, 1)
  | lshr => ("lshr", 3, 2)
  | iushr => ("iushr", 2, 1)
  | lushr => ("lushr", 3, 2)
  | iand => ("iand", 2, 1)
  | land => ("land", 4, 2)
  | ior => ("ior", 2, 1)
  | lor => ("lor", 4, 2)
  | ixor => ("ixor", 2, 1)
  | lxor => ("lxor", 4, 2)
  | iinc => ("iinc", 0, 0)
  | i2l => ("i2l", 1, 2)
  | i2f => ("i2f", 1, 1)
  | i2d => ("i2d", 1, 2)
  | l2i => ("l2i", 2, 1)
  | l2f => ("l2f", 2, 1)
  | l2d => ("l2d", 2, 2)
  | f2i => ("f2i", 1, 1)
  | f2l => ("f2l", 1, 2)
  | f2d => ("f2d", 1, 2)
  | d2i => ("d2i", 2, 1)
  | d2l => ("d2l", 2, 2)
  | d2f => ("d2f", 2, 1)
  | i2b => ("i2b", 1, 1)
  | i2c => ("i2c", 1, 1)
  | i2s => ("i2s", 1, 1)
  | lcmp => ("lcmp", 4, 1)
  | fcmpl => ("fcmpl", 2, 1)
  | fcmpg => ("fcmpg", 2, 1)
  | dcmpl => ("dcmpl", 4, 1)
  | dcmpg => ("dcmpg", 4, 1)
  | ifeq => ("ifeq", 1, 0)
  | ifne => ("ifne", 1, 0)
  | iflt => ("iflt", 1, 0)
  | ifge => ("ifge", 1, 0)
  | ifgt => ("ifgt", 1, 0)
  | ifle => ("ifle", 1, 0)
  | ifIcmpeq => ("if_icmpeq", 2, 0)
  | ifIcmpne => ("if_icmpne", 2, 0)
  | ifIcmplt => ("if_icmplt", 2, 0)
  | ifIcmpge => ("if_icmpge", 2, 0)
  | ifIcmpgt => ("if_icmpgt", 2, 0)
  | ifIcmple => ("if_icmple", 2, 0)
  | ifAcmpeq => ("if_acmpeq", 2, 0)
  | ifAcmpne => ("if_acmpne", 2, 0)
  | goto => ("goto", 0, 0)
  | jsr => ("jsr", 0, 1)
  | ret => ("ret", 0, 0)
  | tableswitch => ("tableswitch", 1, 0)
  | lookupswitch => ("lookupswitch", 1, 0)
  | ireturn => ("ireturn", 1, 0)
  | lreturn => ("lreturn", 2, 0)
  | freturn => ("freturn", 1, 0)
  | dreturn => ("dreturn", 2, 0)
  | areturn => ("areturn", 1, 0)
  | vreturn => ("return", 0, 0)
  | getstatic => ("getstatic", 0, 0)
  | putstatic => ("putstatic", 0, 0)
  | getfield => ("getfield", 0, 0)
  | putfield => ("putfield", 0, 0)
  | invokevirtual => ("invokevirtual", 0, 0)
  | invokespecial => ("invokespecial", 0, 0)
  | invokestatic => ("invokestatic", 0, 0)
  | invokeinterface => ("invokeinterface", 0, 0)
  | invokedynamic => ("invokedynamic", 0, 0)
  | new => ("new", 0, 1)
  | newarray => ("newarray", 1, 1)
  | anewarray => ("anewarray", 1, 1)
  | arraylength => ("arraylength", 1, 1)
  | athrow => ("athrow", 1, 0)
  | checkcast => ("checkcast", 1, 1)
  | instanceof => ("instanceof", 1, 1)
  | monitorenter => ("monitorenter", 1, 0)
  | monitorexit => ("monitorexit", 1, 0)
  | wide => ("wide", 0, 0)
  | multianewarray => ("multianewarray", 0, 0)
  | ifnull => ("ifnull", 1, 0)
  | ifnonnull => ("ifnonnull", 1, 0)
  | gotoW => ("goto_w", 0, 0)
  | jsrW => ("jsr_w", 0, 1)

def mnemonic (o : Opcode) : String := o.row.1

/-- The number of operations. -/
def count : Nat := 202

def code (o : Opcode) : UInt8 := UInt8.ofNat o.ctorIdx

def ofByte? (b : UInt8) : Option Opcode :=
  if b.toNat < count then some (Opcode.ofNat b.toNat) else none

theorem ofByte?_code (o : Opcode) : ofByte? o.code = some o := by
  cases o <;> rfl

/-- The operations by their mnemonics. -/
def byMnemonic : Std.HashMap String Opcode :=
  (List.range count).foldl
    (fun known n => known.insert (Opcode.ofNat n).mnemonic (Opcode.ofNat n)) ∅

def ofMnemonic? (name : String) : Option Opcode := byMnemonic[name]?

/-- Slots popped and pushed, or `none` where a descriptor or an operand decides. -/
def stackEffect? (o : Opcode) : Option (UInt16 × UInt16) :=
  match o with
  | getstatic | putstatic | getfield | putfield | invokevirtual | invokespecial | invokestatic
  | invokeinterface | invokedynamic | multianewarray | wide => none
  | _ => some o.row.2

/-- Jumps with a single target. -/
def isBranch : Opcode → Bool
  | ifeq | ifne | iflt | ifge | ifgt | ifle | ifIcmpeq | ifIcmpne | ifIcmplt | ifIcmpge | ifIcmpgt
  | ifIcmple | ifAcmpeq | ifAcmpne | goto | jsr | ifnull | ifnonnull | gotoW | jsrW => true
  | _ => false

/-- Jumps with a four-byte distance. -/
def isWideBranch : Opcode → Bool
  | gotoW | jsrW => true
  | _ => false

def isReturn : Opcode → Bool
  | ireturn | lreturn | freturn | dreturn | areturn | vreturn => true
  | _ => false

/-- Control never goes on to the next instruction. -/
def endsBlock (o : Opcode) : Bool :=
  o.isReturn || match o with
    | goto | gotoW | athrow | ret | tableswitch | lookupswitch => true
    | _ => false

/-- The slot that is part of the operation itself, as in `iload_2`. -/
def implicitSlot? (o : Opcode) : Option Nat :=
  let c := o.code.toNat
  if 0x1a ≤ c ∧ c ≤ 0x2d then some ((c - 0x1a) % 4)
  else if 0x3b ≤ c ∧ c ≤ 0x4e then some ((c - 0x3b) % 4)
  else none

/-- Slots of the local variable an operation reads or writes. -/
def localSlots? (o : Opcode) : Option Nat :=
  match o with
  | lload | dload | lstore | dstore | lload0 | lload1 | lload2 | lload3 | dload0 | dload1 | dload2
  | dload3 | lstore0 | lstore1 | lstore2 | lstore3 | dstore0 | dstore1 | dstore2 | dstore3 => some 2
  | iload | fload | aload | istore | fstore | astore | ret => some 1
  | _ => if o.implicitSlot?.isSome then some 1 else none

end Opcode

end JvmClass
