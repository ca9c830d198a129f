import JvmClass.Annotations.Resolved
import JvmClass.Inspect.Rendering

/-!
# Views of a class

What a reader of a class wants to know, with names in place of indices.
-/

namespace JvmClass

structure LocalVariableView where
  name : String
  descriptor : String
  start : UInt16
  length : UInt16
  slot : UInt16

structure MethodSummary where
  name : String
  descriptor : String
  access : Access
  /-- Without code there are no bounds. -/
  maxStack : Option UInt16
  maxLocals : Option UInt16
  instructionCount : Nat

structure EntryView where
  index : UInt16
  kind : String
  value : String

structure Inheritance where
  superClass : Option String
  interfaces : List String

/-- The visible annotations among some attributes, resolved. -/
def Attribute.annotations (attributes : List Attribute) (p : Pool) :
    Except Error (List AnnotationView) :=
  AnnotationInfo.resolveAll p ((visibleAnnotations? attributes).getD [])

namespace ClassFile

/-- Whether a text comes before another, by code points. -/
def textLe (a b : String) : Bool := !decide (b < a)

/-- Texts in order, each once. -/
def sortedOnce (texts : List String) : List String :=
  (texts.mergeSort textLe).eraseReps

/-- The names of all classes the pool refers to, the class itself included. -/
def dependencies (c : ClassFile) : Except Error (List String) := do
  let classes := c.pool.usable.filter fun (_, entry) => Role.classRef.accepts entry
  return sortedOnce (← classes.mapM fun (index, _) => c.pool.className index)

/-- The local variable table of a method's code, empty when there is none. -/
def localVariables (c : ClassFile) (m : Member) : Except Error (List LocalVariableView) :=
  match m.code? with
  | none => .ok []
  | some body =>
    ((Attribute.localVariables? body.attributes).getD []).mapM fun v => do
      return ⟨← c.pool.text v.name, ← c.pool.text v.descriptor, v.start, v.length, v.slot⟩

def methodSummary (c : ClassFile) (m : Member) : Except Error MethodSummary := do
  let code := m.code?
  return {
    name := ← c.memberName m
    descriptor := ← c.memberDescriptor m
    access := m.access
    maxStack := code.map (·.maxStack)
    maxLocals := code.map (·.maxLocals)
    instructionCount := (code.map (·.instructions.length)).getD 0 }

def methodSummaries (c : ClassFile) : Except Error (List MethodSummary) :=
  c.methods.mapM c.methodSummary

/-- One view for each usable entry of the pool. -/
def entryViews (c : ClassFile) : Except Error (List EntryView) :=
  c.pool.usable.mapM fun (index, entry) => do
    return ⟨index, entry.kindName, ← c.pool.render entry⟩

def inheritance (c : ClassFile) : Except Error Inheritance := do
  return ⟨← c.superName?, ← c.interfaceNames⟩

/-- The code of a method, one instruction a line, behind its offset. -/
def disassemble (c : ClassFile) (m : Member) : Except Error (List String) :=
  match m.code? with
  | none => .ok []
  | some body =>
    (body.instructions.zip (Code.offsets body.instructions).toList).mapM fun (i, offset) => do
      return Text.padLeft 4 ' ' (toString offset) ++ ": " ++ (← i.render c.pool)

end ClassFile

end JvmClass
