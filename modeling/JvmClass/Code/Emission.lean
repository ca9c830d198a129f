import JvmClass.Attribute
import JvmClass.Code.StackDepth
import JvmClass.Pool.Growth

/-!
# Emitting code

The body of a method is given by commands. They emit instructions in order, enter their symbolic
operands into a growing pool, and name positions by labels, which stand for an instruction once
they are bound. `finish` lays the code out and computes its bounds. The first command that fails
ends the emission; the pool keeps what was entered until then.
-/

namespace JvmClass

/-- A position in code that is being emitted, by its number. -/
abbrev Label := UInt32

inductive ValueKind where
  | int | long | float | double | reference
  deriving DecidableEq

inductive FieldAccess where
  | getstatic | putstatic | getfield | putfield
  deriving DecidableEq

inductive MethodCall where
  | virtual | special | static
  deriving DecidableEq

inductive ClassUse where
  | new | anewarray | checkcast | instanceof
  deriving DecidableEq

inductive Command where
  | op (opcode : Opcode)
  | load (kind : ValueKind) (slot : UInt16)
  | store (kind : ValueKind) (slot : UInt16)
  | increment (slot : UInt16) (delta : Int16)
  /-- Pushes an integer by the shortest instruction that holds it. -/
  | pushInt (value : Int32)
  | loadInt (value : Int32)
  | loadFloat (bits : UInt32)
  | loadLong (value : Int64)
  | loadDouble (bits : UInt64)
  | loadString (text : String)
  | loadClass (name : String)
  | field (access : FieldAccess) (member : MemberName)
  | call (kind : MethodCall) (member : MemberName)
  | callInterface (member : MemberName)
  | useClass (use : ClassUse) (name : String)
  | newArray (element : ArrayType)
  | newLabel
  /-- Binds a label to the next instruction. -/
  | bind (label : Label)
  | branch (opcode : Opcode) (label : Label)
  | tableSwitch (low : Int32) (default : Label) (targets : List Label)
  | lookupSwitch (default : Label) (cases : List (Int32 × Label))
  /-- Attributes the next instruction to a source line. -/
  | lineNumber (line : UInt16)
  | localVariable (slot : UInt16) (name descriptor : String) (start stop : Label)
  | handler (start stop handler : Label) (catchType : Option String)

namespace Code

structure LabelledHandler where
  start : Label
  stop : Label
  handler : Label
  catchType : UInt16

structure LabelledVariable where
  slot : UInt16
  name : UInt16
  descriptor : UInt16
  start : Label
  stop : Label

/-- Code as far as it is emitted. -/
structure Emission where
  pool : GrowingPool
  instructions : Array Instruction
  /-- The index of the instruction each label is bound to. -/
  labels : Array (Option Nat)
  handlers : Array LabelledHandler
  lines : Array (Nat × UInt16)
  locals : Array LabelledVariable

def Emission.start (pool : GrowingPool) : Emission := ⟨pool, #[], #[], #[], #[], #[]⟩

abbrev Emit := EStateM Error Emission

namespace Emit

def grow {α : Type} (request : Grow α) : Emit α :=
  fun ⟨pool, instructions, labels, handlers, lines, locals⟩ =>
    match request pool with
    | .ok a pool => .ok a ⟨pool, instructions, labels, handlers, lines, locals⟩
    | .error e pool => .error e ⟨pool, instructions, labels, handlers, lines, locals⟩

def instruction (i : Instruction) : Emit Unit :=
  modify fun e => { e with instructions := e.instructions.push i }

/-! ## Choice of instructions -/

/-- The general operation on a local variable, and the one for slot zero. -/
def loadForms : ValueKind → Opcode × Opcode
  | .int => (.iload, .iload0)
  | .long => (.lload, .lload0)
  | .float => (.fload, .fload0)
  | .double => (.dload, .dload0)
  | .reference => (.aload, .aload0)

def storeForms : ValueKind → Opcode × Opcode
  | .int => (.istore, .istore0)
  | .long => (.lstore, .lstore0)
  | .float => (.fstore, .fstore0)
  | .double => (.dstore, .dstore0)
  | .reference => (.astore, .astore0)

/-- The slots zero to three have operations of their own, which follow each other. -/
def localAccess (forms : Opcode × Opcode) (slot : UInt16) : Instruction :=
  let wide := 0x100 ≤ slot.toNat
  if slot.toNat < 4 then
    match Opcode.ofByte? (forms.2.code + UInt8.ofNat slot.toNat) with
    | some short => .access short slot false
    | none => .access forms.1 slot wide
  else .access forms.1 slot wide

def fitsByte (i : Int) : Bool := -0x80 ≤ i && i < 0x80

/-- The constants minus one to five have operations of their own. -/
def smallInt? (i : Int32) : Option Opcode :=
  match i.toInt with
  | -1 => some .iconstM1
  | 0 => some .iconst0
  | 1 => some .iconst1
  | 2 => some .iconst2
  | 3 => some .iconst3
  | 4 => some .iconst4
  | 5 => some .iconst5
  | _ => none

def loadConstant (index : UInt16) : Emit Unit :=
  instruction (.constant (if index.toNat < 0x100 then .ldc else .ldcW) index)

def loadWideConstant (index : UInt16) : Emit Unit :=
  instruction (.constant .ldc2W index)

def pushInt (i : Int32) : Emit Unit := do
  match smallInt? i with
  | some o => instruction (.simple o)
  | none =>
    if fitsByte i.toInt then instruction (.push .bipush i.toInt16)
    else if -0x8000 ≤ i.toInt ∧ i.toInt < 0x8000 then instruction (.push .sipush i.toInt16)
    else loadConstant (← grow (.integer i))

def fieldOpcode : FieldAccess → Opcode
  | .getstatic => .getstatic
  | .putstatic => .putstatic
  | .getfield => .getfield
  | .putfield => .putfield

def callOpcode : MethodCall → Opcode
  | .virtual => .invokevirtual
  | .special => .invokespecial
  | .static => .invokestatic

def classOpcode : ClassUse → Opcode
  | .new => .new
  | .anewarray => .anewarray
  | .checkcast => .checkcast
  | .instanceof => .instanceof

/-- The greatest key of a table that starts at `low`. -/
def tableHigh? (low : Int32) (count : Nat) : Option Int32 :=
  let high := low.toInt + count - 1
  if 1 ≤ count ∧ count ≤ 0x80000000 ∧ high < 0x80000000 then some high.toInt32 else none

/-! ## Commands -/

def command : Command → Emit Unit
  | .op o => instruction (.simple o)
  | .load kind slot => instruction (localAccess (loadForms kind) slot)
  | .store kind slot => instruction (localAccess (storeForms kind) slot)
  | .increment slot delta =>
    instruction (.increment slot delta (0x100 ≤ slot.toNat || !fitsByte delta.toInt))
  | .pushInt i => pushInt i
  | .loadInt i => do loadConstant (← grow (.integer i))
  | .loadFloat bits => do loadConstant (← grow (.float bits))
  | .loadLong i => do loadWideConstant (← grow (.long i))
  | .loadDouble bits => do loadWideConstant (← grow (.double bits))
  | .loadString s => do loadConstant (← grow (.stringRef s))
  | .loadClass name => do loadConstant (← grow (.classRef name))
  | .field access m => do instruction (.field (fieldOpcode access) (← grow (.fieldRef m)))
  | .call kind m => do instruction (.invoke (callOpcode kind) (← grow (.methodRef m)))
  | .callInterface m => do
    let type ← ofExcept (MethodType.parse m.descriptor)
    let index ← grow (.interfaceMethodRef m)
    instruction (.invokeInterface index (type.parameterSlots + 1).toUInt8)
  | .useClass use name => do instruction (.typed (classOpcode use) (← grow (.classRef name)))
  | .newArray element => instruction (.newArray element)
  | .newLabel => modify fun e => { e with labels := e.labels.push none }
  | .bind label =>
    modify fun e =>
      { e with labels := e.labels.setIfInBounds label.toNat (some e.instructions.size) }
  | .branch o label => instruction (.branch o label)
  | .tableSwitch low default targets => do
    match tableHigh? low targets.length with
    | some high => instruction (.tableSwitch default low high targets)
    | none => throw (.malformedAttribute "Code" (.switchTooLong low targets.length))
  | .lookupSwitch default cases =>
    instruction (.lookupSwitch default (cases.mergeSort fun a b => a.1 ≤ b.1))
  | .lineNumber line => modify fun e => { e with lines := e.lines.push (e.instructions.size, line) }
  | .localVariable slot name descriptor start stop => do
    let name ← grow (.text name)
    let descriptor ← grow (.text descriptor)
    modify fun e =>
      { e with locals := e.locals.push ⟨slot, name, descriptor, start, stop⟩ }
  | .handler start stop handler catchType => do
    let catchType ← match catchType with
      | some name => grow (.classRef name)
      | none => pure 0
    modify fun e => { e with handlers := e.handlers.push ⟨start, stop, handler, catchType⟩ }

/-- The instruction a label is bound to. -/
def bound (labels : Array (Option Nat)) (label : Label) : Except Error Nat :=
  match labels[label.toNat]? with
  | some (some index) => .ok index
  | _ => .error (.unboundLabel label)

/-- The offset a label stands for in laid-out code. -/
def labelOffset (labels : Array (Option Nat)) (offsets : Array Nat) (label : Label) :
    Except Error UInt16 := do
  return UInt16.ofNat (offsets.getD (← bound labels label) 0)

def placeHandler (place : Label → Except Error UInt16) (h : LabelledHandler) :
    Except Error Handler := do
  return ⟨← place h.start, ← place h.stop, ← place h.handler, h.catchType⟩

/-- A variable that ends before it starts has no length. -/
def placeVariable (place : Label → Except Error UInt16) (v : LabelledVariable) :
    Except Error LocalVariable := do
  let start ← place v.start
  let stop ← place v.stop
  return ⟨start, UInt16.ofNat (stop.toNat - start.toNat), v.name, v.descriptor, v.slot⟩

/-- The lines of emitted instructions; a line behind the last one is dropped. -/
def placeLines (offsets : Array Nat) (count : Nat) (lines : List (Nat × UInt16)) :
    List LineNumber :=
  lines.filterMap fun (index, line) =>
    if index < count then some ⟨UInt16.ofNat (offsets.getD index 0), line⟩ else none

/-- An attribute for a table that is not empty. -/
def tableAttribute {α : Type} (name : String) (payload : List α → Payload) (items : List α) :
    Emit (List Attribute) := do
  if items.isEmpty then return []
  else return [⟨← grow (.text name), payload items⟩]

/-- Lays out the emitted code of a method and computes its bounds. -/
def finish (isStatic : Bool) (descriptor : String) : Emit CodeBody := do
  let e ← get
  let assembled ← ofExcept (assemble e.instructions.toList (bound e.labels))
  let place := labelOffset e.labels assembled.offsets
  let handlers ← ofExcept (e.handlers.toList.mapM (placeHandler place))
  let type ← ofExcept (MethodType.parse descriptor)
  let initialLocals := type.parameterSlots + if isStatic then 0 else 1
  let (maxStack, maxLocals) ← ofExcept (maxima e.pool.pool assembled.instructions assembled.offsets
    (handlers.map fun h => h.handler.toNat) initialLocals)
  let lines ← tableAttribute "LineNumberTable" .lineNumberTable
    (placeLines assembled.offsets e.instructions.size e.lines.toList)
  let locals ← ofExcept (e.locals.toList.mapM (placeVariable place))
  let locals ← tableAttribute "LocalVariableTable" .localVariableTable locals
  return ⟨maxStack, maxLocals, assembled.instructions, handlers, lines ++ locals⟩

end Emit

/-- Emits the body of a method. -/
def emit (commands : List Command) (isStatic : Bool) (descriptor : String) : Grow CodeBody :=
  fun pool =>
    match (do commands.forM Emit.command; Emit.finish isStatic descriptor : Emit CodeBody)
        (.start pool) with
    | .ok body e => .ok body e.pool
    | .error err e => .error err e.pool

end Code

end JvmClass
