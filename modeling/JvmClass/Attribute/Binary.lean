import JvmClass.Attribute
import JvmClass.Code.Layout
import JvmClass.Instruction.Decoder

/-!
# Binary form of attributes

An attribute is its name, the length of its payload, and the payload. A known payload has to be
read to its end; one that ends early or goes on is the fault of its attribute.
-/

namespace JvmClass

/-! ## Tables without attributes of their own -/

def encodeIndices (table : Table) (indices : List UInt16) : Except Error Bytes := do
  return (← table.count indices.length) ++ indices.flatMap Bytes.ofU16

def Handler.encode (h : Handler) : Bytes :=
  Bytes.ofU16 h.start ++ Bytes.ofU16 h.stop ++ Bytes.ofU16 h.handler ++ Bytes.ofU16 h.catchType

def LineNumber.encode (l : LineNumber) : Bytes :=
  Bytes.ofU16 l.start ++ Bytes.ofU16 l.line

def LocalVariable.encode (v : LocalVariable) : Bytes :=
  Bytes.ofU16 v.start ++ Bytes.ofU16 v.length ++ Bytes.ofU16 v.name ++ Bytes.ofU16 v.descriptor ++
    Bytes.ofU16 v.slot

def LocalVariable.encodeTable (locals : List LocalVariable) : Except Error Bytes := do
  return (← Table.localVariables.count locals.length) ++ locals.flatMap encode

def InnerClass.encode (c : InnerClass) : Bytes :=
  Bytes.ofU16 c.inner ++ Bytes.ofU16 c.outer ++ Bytes.ofU16 c.name ++ Bytes.ofU16 c.access.bits

def BootstrapMethod.encode (m : BootstrapMethod) : Except Error Bytes := do
  return Bytes.ofU16 m.method ++ (← encodeIndices .bootstrapArguments m.arguments)

def Parameter.encode (p : Parameter) : Bytes :=
  Bytes.ofU16 p.name ++ Bytes.ofU16 p.access.bits

def encodeParameterAnnotations (parameters : List (List AnnotationInfo)) : Except Error Bytes := do
  return (← Table.parameterAnnotations.shortCount parameters.length) ++
    (← concatM AnnotationInfo.encodeTable parameters)

/-! ## Writing -/

/-- Name and length in front of a payload. -/
def Attribute.frame (name : UInt16) (payload : Bytes) : Except Error Bytes :=
  if payload.length < 0x100000000 then
    .ok (Bytes.ofU16 name ++ Bytes.ofU32 (UInt32.ofNat payload.length) ++ payload)
  else .error (.tooManyEntries .attributePayload payload.length)

mutual

def Attribute.encode : Attribute → Except Error Bytes
  | ⟨name, payload⟩ => do Attribute.frame name (← payload.encode)

def Payload.encode : Payload → Except Error Bytes
  | .code body => body.encode
  | .constantValue index | .sourceFile index | .signature index | .nestHost index =>
    .ok (Bytes.ofU16 index)
  | .exceptions classes => encodeIndices .exceptions classes
  | .nestMembers classes => encodeIndices .nestMembers classes
  | .permittedSubclasses classes => encodeIndices .permittedSubclasses classes
  | .lineNumberTable lines => do
    return (← Table.lineNumbers.count lines.length) ++ lines.flatMap LineNumber.encode
  | .localVariableTable locals | .localVariableTypeTable locals =>
    LocalVariable.encodeTable locals
  | .stackMapTable frames => do
    return (← Table.stackMapFrames.count frames.length) ++ (← concatM Frame.encode frames)
  | .innerClasses classes => do
    return (← Table.innerClasses.count classes.length) ++ classes.flatMap InnerClass.encode
  | .enclosingMethod owner method => .ok (Bytes.ofU16 owner ++ Bytes.ofU16 method)
  | .bootstrapMethods methods => do
    return (← Table.bootstrapMethods.count methods.length) ++
      (← concatM BootstrapMethod.encode methods)
  | .methodParameters parameters => do
    return (← Table.methodParameters.shortCount parameters.length) ++
      parameters.flatMap Parameter.encode
  | .deprecated | .synthetic => .ok []
  | .visibleAnnotations annotations | .invisibleAnnotations annotations =>
    AnnotationInfo.encodeTable annotations
  | .visibleParameterAnnotations parameters | .invisibleParameterAnnotations parameters =>
    encodeParameterAnnotations parameters
  | .annotationDefault value => value.encode
  | .record components => do
    return (← Table.recordComponents.count components.length) ++
      (← encodeComponents [] components)
  | .sourceDebugExtension bytes | .raw bytes => .ok bytes

def CodeBody.encode : CodeBody → Except Error Bytes
  | ⟨maxStack, maxLocals, instructions, handlers, attributes⟩ => do
    let assembled ← Code.reassemble instructions
    let handlerCount ← Table.exceptionTable.count handlers.length
    let attributeCount ← Table.attributes.count attributes.length
    let attributes ← encodeAttributes [] attributes
    return Bytes.ofU16 maxStack ++ Bytes.ofU16 maxLocals ++
      Bytes.ofU32 (UInt32.ofNat assembled.bytes.length) ++ assembled.bytes ++ handlerCount ++
      handlers.flatMap Handler.encode ++ attributeCount ++ attributes

/-- Encodes attributes behind pieces that stand in reverse. -/
def encodeAttributes (pieces : List Bytes) : List Attribute → Except Error Bytes
  | [] => .ok pieces.reverse.flatten
  | a :: rest => do
    let piece ← a.encode
    encodeAttributes (piece :: pieces) rest

/-- Encodes components behind pieces that stand in reverse. -/
def encodeComponents (pieces : List Bytes) : List Component → Except Error Bytes
  | [] => .ok pieces.reverse.flatten
  | ⟨name, descriptor, attributes⟩ :: rest => do
    let count ← Table.attributes.count attributes.length
    let attributes ← encodeAttributes [] attributes
    encodeComponents
      ((Bytes.ofU16 name ++ Bytes.ofU16 descriptor ++ count ++ attributes) :: pieces) rest

end

def Attribute.encodeTable (attributes : List Attribute) : Except Error Bytes := do
  return (← Table.attributes.count attributes.length) ++ (← encodeAttributes [] attributes)

/-! ## Reading -/

open Reader

def Handler.read : Reader Handler := do
  return ⟨← u16, ← u16, ← u16, ← u16⟩

def LineNumber.read : Reader LineNumber := do
  return ⟨← u16, ← u16⟩

def LocalVariable.read : Reader LocalVariable := do
  return ⟨← u16, ← u16, ← u16, ← u16, ← u16⟩

def InnerClass.read : Reader InnerClass := do
  return ⟨← u16, ← u16, ← u16, ⟨← u16⟩⟩

def BootstrapMethod.read : Reader BootstrapMethod := do
  return ⟨← u16, ← u16Table⟩

def Parameter.read : Reader Parameter := do
  return ⟨← u16, ⟨← u16⟩⟩

def readParameters : Reader (List Parameter) := do
  let count ← u8
  need (count.toNat * 4)
  times count.toNat Parameter.read

def readParameterAnnotations : Reader (List (List AnnotationInfo)) := do
  let count ← u8
  times count.toNat AnnotationInfo.readTable

/-- Reads a table of attributes, given how one is read. -/
def Attribute.readTableWith (inner : Reader Attribute) : Reader (List Attribute) :=
  table 6 inner

/-- Reads the payload of a `Code` attribute, given how attributes are read. -/
def CodeBody.readWith (p : Pool) (inner : Reader Attribute) : Reader CodeBody := do
  let maxStack ← u16
  let maxLocals ← u16
  let length ← u32
  let code ← take length.toNat
  let instructions ← ofExcept (Instruction.decode p code)
  let handlers ← table 8 Handler.read
  let attributes ← Attribute.readTableWith inner
  return ⟨maxStack, maxLocals, instructions, handlers, attributes⟩

def Component.readWith (inner : Reader Attribute) : Reader Component := do
  return ⟨← u16, ← u16, ← Attribute.readTableWith inner⟩

/-- Reads the payload stored under a name, given how attributes inside it are read. -/
def Payload.readWith (p : Pool) (inner : Reader Attribute) (name : String) :
    Reader Payload := do
  match name with
  | "Code" => return code (← CodeBody.readWith p inner)
  | "ConstantValue" => return constantValue (← u16)
  | "Exceptions" => return exceptions (← u16Table)
  | "SourceFile" => return sourceFile (← u16)
  | "Signature" => return signature (← u16)
  | "LineNumberTable" => return lineNumberTable (← table 4 LineNumber.read)
  | "LocalVariableTable" => return localVariableTable (← table 10 LocalVariable.read)
  | "LocalVariableTypeTable" => return localVariableTypeTable (← table 10 LocalVariable.read)
  | "StackMapTable" => return stackMapTable (← table 1 Frame.read)
  | "InnerClasses" => return innerClasses (← table 8 InnerClass.read)
  | "EnclosingMethod" => return enclosingMethod (← u16) (← u16)
  | "BootstrapMethods" => return bootstrapMethods (← table 4 BootstrapMethod.read)
  | "NestHost" => return nestHost (← u16)
  | "NestMembers" => return nestMembers (← u16Table)
  | "PermittedSubclasses" => return permittedSubclasses (← u16Table)
  | "MethodParameters" => return methodParameters (← readParameters)
  | "Deprecated" => return deprecated
  | "Synthetic" => return synthetic
  | "RuntimeVisibleAnnotations" => return visibleAnnotations (← AnnotationInfo.readTable)
  | "RuntimeInvisibleAnnotations" => return invisibleAnnotations (← AnnotationInfo.readTable)
  | "RuntimeVisibleParameterAnnotations" =>
    return visibleParameterAnnotations (← readParameterAnnotations)
  | "RuntimeInvisibleParameterAnnotations" =>
    return invisibleParameterAnnotations (← readParameterAnnotations)
  | "AnnotationDefault" => return annotationDefault (← ElementValue.read maxElementNesting)
  | "Record" => return record (← table 6 (Component.readWith inner))
  | "SourceDebugExtension" => return sourceDebugExtension (← rest)
  | _ =>
    Reader.record (.keptUnknown name)
    return raw (← rest)

/-- Reads an attribute in which attributes nest less than `depth` deep. A nested attribute takes
at least six bytes of the payload around it, so a depth of all bytes left is never used up. -/
def Attribute.read (p : Pool) : (depth : Nat) → Reader Attribute
  | 0 => truncated
  | depth + 1 => do
    let nameIndex ← u16
    let length ← u32
    let start ← offset
    let bytes ← take length.toNat
    let name ← ofExcept (p.text nameIndex)
    let (payload, unread, stop) ← mapError (.inAttribute name)
      (within bytes start (Payload.readWith p (Attribute.read p depth) name))
    if unread = 0 then return ⟨nameIndex, payload⟩
    else throw (.malformedAttribute name (.unread unread stop))

def Attribute.readTable (p : Pool) (depth : Nat) : Reader (List Attribute) :=
  readTableWith (Attribute.read p depth)

/-- Reads the payload of a `Code` attribute at the front of `bytes`. -/
def CodeBody.decode (p : Pool) (bytes : Bytes) (log : Log) : EStateM.Result Error Cursor CodeBody :=
  CodeBody.readWith p (Attribute.read p bytes.length) (.start bytes log)

end JvmClass
