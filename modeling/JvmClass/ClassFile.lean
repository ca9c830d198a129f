import JvmClass.Attribute

/-!
# Class files

A class with its constant pool, fields, methods and attributes. Names and types stay in the pool
and are given by index, as in the binary form.
-/

namespace JvmClass

/-- A field or a method. -/
structure Member where
  access : Access
  name : UInt16
  descriptor : UInt16
  attributes : List Attribute

def Member.code? (m : Member) : Option CodeBody := Attribute.code? m.attributes

structure ClassFile where
  minor : UInt16
  major : UInt16
  pool : Pool
  access : Access
  thisClass : UInt16
  /-- Zero for the class without a superclass. -/
  superClass : UInt16
  interfaces : List UInt16
  fields : List Member
  methods : List Member
  attributes : List Attribute

namespace ClassFile

def magic : UInt32 := 0xCAFEBABE

def minMajor : UInt16 := 45

def maxMajor : UInt16 := 69

def className (c : ClassFile) : Except Error String := c.pool.className c.thisClass

def superName? (c : ClassFile) : Except Error (Option String) :=
  if c.superClass = 0 then .ok none else some <$> c.pool.className c.superClass

def interfaceNames (c : ClassFile) : Except Error (List String) :=
  c.interfaces.mapM c.pool.className

def memberName (c : ClassFile) (m : Member) : Except Error String := c.pool.text m.name

def memberDescriptor (c : ClassFile) (m : Member) : Except Error String :=
  c.pool.text m.descriptor

/-- The position of the first member with a name and a descriptor. -/
def findMember? (c : ClassFile) (members : List Member) (name descriptor : String) : Option Nat :=
  members.findIdx? fun m =>
    (c.memberName m).toOption == some name && (c.memberDescriptor m).toOption == some descriptor

def sourceFile? (c : ClassFile) : Except Error (Option String) :=
  (c.attributes.findSome? fun a =>
    match a.payload with
    | .sourceFile index => some index
    | _ => none).mapM c.pool.text

/-- The bootstrap method table, empty when there is none. -/
def bootstrapMethods (c : ClassFile) : List BootstrapMethod :=
  (Attribute.bootstrapMethods? c.attributes).getD []

end ClassFile

end JvmClass
