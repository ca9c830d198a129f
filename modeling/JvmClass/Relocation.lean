import JvmClass.ClassFile
import JvmClass.Code.Layout
import JvmClass.Pool.Import

/-!
# Relocation

Copies attributes of a class into another pool. Every pool index is imported; a load whose
constant lands beyond the reach of one byte is widened, so code may move, and every offset into
it follows. Two kinds of attribute are left out: bootstrap methods, which belong to the old pool,
and raw payloads, which may refer to it in ways unknown.
-/

namespace JvmClass

/-- The pool being grown for a new class, and the log. -/
structure Building where
  pool : GrowingPool
  log : Log

abbrev Build := EStateM Error Building

namespace Build

def grow {α : Type} (request : Grow α) : Build α := fun ⟨pool, log⟩ =>
  match request pool with
  | .ok a pool => .ok a ⟨pool, log⟩
  | .error e pool => .error e ⟨pool, log⟩

def record (e : Event) : Build Unit := fun ⟨pool, log⟩ => .ok () ⟨pool, log.record e⟩

end Build

/-- Where the instructions of relocated code went: the index of each old offset, and the new
offset of each index. -/
structure OffsetMap where
  indices : Std.HashMap Nat Nat
  offsets : Array Nat

namespace OffsetMap

def find (m : OffsetMap) (offset : UInt16) : Except Error UInt16 :=
  match m.indices[offset.toNat]? with
  | some index => .ok (UInt16.ofNat (m.offsets.getD index 0))
  | none => .error (.malformedAttribute "Code" (.noBoundary offset))

/-- The new start and length of a range. Its end is taken modulo `2 ^ 16`, and a range that ends
before it starts has no length. -/
def findRange (m : OffsetMap) (start length : UInt16) : Except Error (UInt16 × UInt16) := do
  let newStart ← m.find start
  let newStop ← m.find (start + length)
  return (newStart, UInt16.ofNat (newStop.toNat - newStart.toNat))

end OffsetMap

/-- The new place of an offset. Outside of code, offsets stay as they are. -/
def moveOffset (moved : Option OffsetMap) (offset : UInt16) : Except Error UInt16 :=
  match moved with
  | some m => m.find offset
  | none => .ok offset

namespace Relocation

open Build

def index (source : ImportSource) (i : UInt16) : Build UInt16 := grow (.importEntry source i)

def optional (source : ImportSource) (i : UInt16) : Build UInt16 := grow (.importOptional source i)

/-! ## Annotations -/

mutual

def value (source : ImportSource) : ElementValue → Build ElementValue
  | .const tag i => do return .const tag (← index source i)
  | .enum type constant => do return .enum (← index source type) (← index source constant)
  | .classInfo i => do return .classInfo (← index source i)
  | .nested content => do return .nested (← annotated source content)
  | .array values => do return .array (← valuesAfter source [] values)

def annotated (source : ImportSource) : AnnotationInfo → Build AnnotationInfo
  | ⟨type, elements⟩ => do
    let type ← index source type
    return ⟨type, ← elementsAfter source [] elements⟩

/-- Relocates values behind those done so far, which stand in reverse. -/
def valuesAfter (source : ImportSource) (done : List ElementValue) :
    List ElementValue → Build (List ElementValue)
  | [] => pure done.reverse
  | v :: rest => do
    let v ← value source v
    valuesAfter source (v :: done) rest

/-- Relocates elements behind those done so far, which stand in reverse. -/
def elementsAfter (source : ImportSource) (done : List Element) :
    List Element → Build (List Element)
  | [] => pure done.reverse
  | ⟨name, v⟩ :: rest => do
    let name ← index source name
    let v ← value source v
    elementsAfter source (⟨name, v⟩ :: done) rest

end

def annotations (source : ImportSource) (items : List AnnotationInfo) :
    Build (List AnnotationInfo) :=
  items.mapM (annotated source)

/-! ## Code -/

/-- An instruction with its pool index imported. Targets are left alone. -/
def instruction (source : ImportSource) : Instruction → Build Instruction
  | .constant o i => do
    let i ← index source i
    return .constant (if o = .ldc ∧ 0x100 ≤ i.toNat then .ldcW else o) i
  | .field o i => do return .field o (← index source i)
  | .invoke o i => do return .invoke o (← index source i)
  | .invokeInterface i count => do return .invokeInterface (← index source i) count
  | .invokeDynamic i => do return .invokeDynamic (← index source i)
  | .typed o i => do return .typed o (← index source i)
  | .multiNewArray i dimensions => do return .multiNewArray (← index source i) dimensions
  | i => pure i

/-- Instructions laid out anew, and where they went. -/
def instructions (source : ImportSource) (code : List Instruction) :
    Build (List Instruction × OffsetMap) := do
  let code' ← code.mapM (instruction source)
  let indices := Code.indexByOffset code
  let assembled ← ofExcept (Code.assemble code' (Code.resolveOffset indices))
  return (assembled.instructions, ⟨indices, assembled.offsets⟩)

def handler (source : ImportSource) (m : OffsetMap) (h : Handler) : Build Handler := do
  let start ← ofExcept (m.find h.start)
  let stop ← ofExcept (m.find h.stop)
  let handler ← ofExcept (m.find h.handler)
  return ⟨start, stop, handler, ← optional source h.catchType⟩

def localVariable (source : ImportSource) (moved : Option OffsetMap) (v : LocalVariable) :
    Build LocalVariable := do
  let (start, length) ← match moved with
    | some m => ofExcept (m.findRange v.start v.length)
    | none => pure (v.start, v.length)
  return ⟨start, length, ← index source v.name, ← index source v.descriptor, v.slot⟩

def verificationType (source : ImportSource) (moved : Option OffsetMap) :
    VerificationType → Build VerificationType
  | .object i => do return .object (← index source i)
  | .uninitialized offset => do return .uninitialized (← ofExcept (moveOffset moved offset))
  | t => pure t

/-- Relocates frames, given with their old offsets, behind those done so far, which stand in
reverse. `previous` is the new offset of the frame before. -/
def framesAfter (source : ImportSource) (moved : Option OffsetMap) (done : List Frame) :
    (previous : Option UInt16) → List (Frame × Nat) → Build (List Frame)
  | _, [] => pure done.reverse
  | previous, (frame, offset) :: rest => do
    let offset ← ofExcept (moveOffset moved (UInt16.ofNat offset))
    let delta := match previous with
      | none => offset
      | some p => offset - p - 1
    let frame ← (frame.withDelta delta).mapTypes (verificationType source moved)
    framesAfter source moved (frame :: done) (some offset) rest

def frames (source : ImportSource) (moved : Option OffsetMap) (table : List Frame) :
    Build (List Frame) :=
  framesAfter source moved [] none (table.zip (Frame.offsets table))

/-! ## Attributes -/

def innerClass (source : ImportSource) (c : InnerClass) : Build InnerClass := do
  return ⟨← index source c.inner, ← optional source c.outer, ← optional source c.name, c.access⟩

def parameter (source : ImportSource) (p : Parameter) : Build Parameter := do
  return ⟨← optional source p.name, p.access⟩

/-- Records that a raw payload is left out. -/
def recordDropped (source : ImportSource) (name : UInt16) (bytes : Bytes) : Build Unit :=
  record (.dropped ((source.pool.text name).toOption.getD "<invalid>") bytes.length)

mutual

/-- Relocates an attribute; `none` for one that is left out. -/
def attribute? (source : ImportSource) (moved : Option OffsetMap) :
    Attribute → Build (Option Attribute)
  | ⟨_, .bootstrapMethods _⟩ => pure none
  | ⟨name, .raw bytes⟩ => do
    recordDropped source name bytes
    return none
  | ⟨name, content⟩ => do
    let name ← index source name
    return some ⟨name, ← payload source moved content⟩

def payload (source : ImportSource) (moved : Option OffsetMap) : Payload → Build Payload
  | .code body => do return .code (← codeBody source body)
  | .constantValue i => do return .constantValue (← index source i)
  | .exceptions classes => do return .exceptions (← classes.mapM (index source))
  | .sourceFile i => do return .sourceFile (← index source i)
  | .signature i => do return .signature (← index source i)
  | .lineNumberTable lines => do
    return .lineNumberTable (← lines.mapM fun l => do
      return ⟨← ofExcept (moveOffset moved l.start), l.line⟩)
  | .localVariableTable locals => do
    return .localVariableTable (← locals.mapM (localVariable source moved))
  | .localVariableTypeTable locals => do
    return .localVariableTypeTable (← locals.mapM (localVariable source moved))
  | .stackMapTable table => do return .stackMapTable (← frames source moved table)
  | .innerClasses classes => do return .innerClasses (← classes.mapM (innerClass source))
  | .enclosingMethod owner method => do
    return .enclosingMethod (← index source owner) (← optional source method)
  | .bootstrapMethods methods => pure (.bootstrapMethods methods)
  | .nestHost i => do return .nestHost (← index source i)
  | .nestMembers classes => do return .nestMembers (← classes.mapM (index source))
  | .permittedSubclasses classes => do
    return .permittedSubclasses (← classes.mapM (index source))
  | .methodParameters parameters => do
    return .methodParameters (← parameters.mapM (parameter source))
  | .deprecated => pure .deprecated
  | .synthetic => pure .synthetic
  | .visibleAnnotations items => do return .visibleAnnotations (← annotations source items)
  | .invisibleAnnotations items => do return .invisibleAnnotations (← annotations source items)
  | .visibleParameterAnnotations parameters => do
    return .visibleParameterAnnotations (← parameters.mapM (annotations source))
  | .invisibleParameterAnnotations parameters => do
    return .invisibleParameterAnnotations (← parameters.mapM (annotations source))
  | .annotationDefault v => do return .annotationDefault (← value source v)
  | .record components => do return .record (← componentsAfter source [] components)
  | .sourceDebugExtension bytes => pure (.sourceDebugExtension bytes)
  | .raw bytes => pure (.raw bytes)

/-- Relocates code. Its bounds are kept. -/
def codeBody (source : ImportSource) : CodeBody → Build CodeBody
  | ⟨maxStack, maxLocals, code, handlers, inner⟩ => do
    let (code, m) ← instructions source code
    let handlers ← handlers.mapM (handler source m)
    return ⟨maxStack, maxLocals, code, handlers, ← attributesAfter source (some m) [] inner⟩

/-- Relocates attributes behind those done so far, which stand in reverse. -/
def attributesAfter (source : ImportSource) (moved : Option OffsetMap) (done : List Attribute) :
    List Attribute → Build (List Attribute)
  | [] => pure done.reverse
  | a :: rest => do
    match ← attribute? source moved a with
    | some a => attributesAfter source moved (a :: done) rest
    | none => attributesAfter source moved done rest

/-- Relocates components behind those done so far, which stand in reverse. -/
def componentsAfter (source : ImportSource) (done : List Component) :
    List Component → Build (List Component)
  | [] => pure done.reverse
  | ⟨name, descriptor, inner⟩ :: rest => do
    let name ← index source name
    let descriptor ← index source descriptor
    let inner ← attributesAfter source none [] inner
    componentsAfter source (⟨name, descriptor, inner⟩ :: done) rest

end

def attributes (source : ImportSource) (items : List Attribute) : Build (List Attribute) :=
  attributesAfter source none [] items

end Relocation

end JvmClass
