import JvmClass.Access
import JvmClass.Annotations
import JvmClass.Frame
import JvmClass.Instruction
import JvmClass.Pool

/-!
# Attributes

An attribute has a name in the pool and a payload. The payload of a known name is decoded, that
of an unknown name is kept as bytes. Code holds attributes of its own, and so do the components
of a record.
-/

namespace JvmClass

/-- A range of code and the handler of its exceptions. The catch type zero catches all. -/
structure Handler where
  start : UInt16
  stop : UInt16
  handler : UInt16
  catchType : UInt16
  deriving DecidableEq

structure LineNumber where
  start : UInt16
  line : UInt16
  deriving DecidableEq

structure LocalVariable where
  start : UInt16
  length : UInt16
  name : UInt16
  descriptor : UInt16
  slot : UInt16
  deriving DecidableEq

structure InnerClass where
  inner : UInt16
  outer : UInt16
  name : UInt16
  access : Access
  deriving DecidableEq

/-- A parameter; the name zero stands for none. -/
structure Parameter where
  name : UInt16
  access : Access
  deriving DecidableEq

mutual

structure Attribute where
  name : UInt16
  payload : Payload

inductive Payload where
  | code (body : CodeBody)
  | constantValue (index : UInt16)
  | exceptions (classes : List UInt16)
  | sourceFile (index : UInt16)
  | signature (index : UInt16)
  | lineNumberTable (lines : List LineNumber)
  | localVariableTable (locals : List LocalVariable)
  | localVariableTypeTable (locals : List LocalVariable)
  | stackMapTable (frames : List Frame)
  | innerClasses (classes : List InnerClass)
  | enclosingMethod (owner method : UInt16)
  | bootstrapMethods (methods : List BootstrapMethod)
  | nestHost (index : UInt16)
  | nestMembers (classes : List UInt16)
  | permittedSubclasses (classes : List UInt16)
  | methodParameters (parameters : List Parameter)
  | deprecated
  | synthetic
  | visibleAnnotations (annotations : List AnnotationInfo)
  | invisibleAnnotations (annotations : List AnnotationInfo)
  | visibleParameterAnnotations (parameters : List (List AnnotationInfo))
  | invisibleParameterAnnotations (parameters : List (List AnnotationInfo))
  | annotationDefault (value : ElementValue)
  | record (components : List Component)
  | sourceDebugExtension (bytes : Bytes)
  | raw (bytes : Bytes)

structure CodeBody where
  maxStack : UInt16
  maxLocals : UInt16
  instructions : List Instruction
  handlers : List Handler
  attributes : List Attribute

/-- A component of a record class. -/
structure Component where
  name : UInt16
  descriptor : UInt16
  attributes : List Attribute

end

/-- The name under which a payload is stored; raw bytes have any other. -/
def Payload.name? : Payload → Option String
  | code _ => some "Code"
  | constantValue _ => some "ConstantValue"
  | exceptions _ => some "Exceptions"
  | sourceFile _ => some "SourceFile"
  | signature _ => some "Signature"
  | lineNumberTable _ => some "LineNumberTable"
  | localVariableTable _ => some "LocalVariableTable"
  | localVariableTypeTable _ => some "LocalVariableTypeTable"
  | stackMapTable _ => some "StackMapTable"
  | innerClasses _ => some "InnerClasses"
  | enclosingMethod .. => some "EnclosingMethod"
  | bootstrapMethods _ => some "BootstrapMethods"
  | nestHost _ => some "NestHost"
  | nestMembers _ => some "NestMembers"
  | permittedSubclasses _ => some "PermittedSubclasses"
  | methodParameters _ => some "MethodParameters"
  | deprecated => some "Deprecated"
  | synthetic => some "Synthetic"
  | visibleAnnotations _ => some "RuntimeVisibleAnnotations"
  | invisibleAnnotations _ => some "RuntimeInvisibleAnnotations"
  | visibleParameterAnnotations _ => some "RuntimeVisibleParameterAnnotations"
  | invisibleParameterAnnotations _ => some "RuntimeInvisibleParameterAnnotations"
  | annotationDefault _ => some "AnnotationDefault"
  | record _ => some "Record"
  | sourceDebugExtension _ => some "SourceDebugExtension"
  | raw _ => none

namespace Attribute

/-- The first attribute stored under a name, and its position. -/
def findByName? (attributes : List Attribute) (p : Pool) (name : String) : Option Nat :=
  attributes.findIdx? fun a => p.get? a.name == some (.utf8 name)

def code? (attributes : List Attribute) : Option CodeBody :=
  attributes.findSome? fun a =>
    match a.payload with
    | .code body => some body
    | _ => none

def lineNumbers? (attributes : List Attribute) : Option (List LineNumber) :=
  attributes.findSome? fun a =>
    match a.payload with
    | .lineNumberTable lines => some lines
    | _ => none

def localVariables? (attributes : List Attribute) : Option (List LocalVariable) :=
  attributes.findSome? fun a =>
    match a.payload with
    | .localVariableTable locals => some locals
    | _ => none

def visibleAnnotations? (attributes : List Attribute) : Option (List AnnotationInfo) :=
  attributes.findSome? fun a =>
    match a.payload with
    | .visibleAnnotations annotations => some annotations
    | _ => none

def bootstrapMethods? (attributes : List Attribute) : Option (List BootstrapMethod) :=
  attributes.findSome? fun a =>
    match a.payload with
    | .bootstrapMethods methods => some methods
    | _ => none

end Attribute

end JvmClass
