import JvmClass.Pool.Binary
import Std.Data.HashMap

/-!
# Growing pools

A pool under construction hands out the index of an equal entry instead of adding a second one.
Entries are equal when their binary forms are, so two zeros of different sign stay apart. A
request that fails may leave behind the entries it added before.
-/

namespace JvmClass

structure GrowingPool where
  pool : Pool
  /-- The index of each entry, by its binary form. -/
  indices : Std.HashMap Bytes UInt16
  bootstrap : Array BootstrapMethod
  bootstrapIndices : Std.HashMap BootstrapMethod UInt16

def GrowingPool.empty : GrowingPool := ⟨.empty, ∅, #[], ∅⟩

instance : Inhabited GrowingPool := ⟨.empty⟩

/-- A request to a growing pool. -/
abbrev Grow := EStateM Error GrowingPool

namespace Grow

/-- The index of an entry, which is added unless it is there. The slots stay below 65535, so that
the count, which is one more, fits in two bytes. -/
def add (c : Constant) : Grow UInt16 := fun g =>
  match c.encode with
  | .error e => .error e g
  | .ok key =>
    match g.indices[key]? with
    | some index => .ok index g
    | none =>
      if g.pool.size + c.slots < 0xFFFF then
        let index := UInt16.ofNat (g.pool.size + 1)
        .ok index { g with pool := g.pool.append c, indices := g.indices.insert key index }
      else .error .poolOverflow g

def text (s : String) : Grow UInt16 := add (.utf8 s)

def integer (i : Int32) : Grow UInt16 := add (.integer i)

def float (bits : UInt32) : Grow UInt16 := add (.float bits)

def long (i : Int64) : Grow UInt16 := add (.long i)

def double (bits : UInt64) : Grow UInt16 := add (.double bits)

def classRef (name : String) : Grow UInt16 := do add (.classRef (← text name))

def stringRef (s : String) : Grow UInt16 := do add (.stringRef (← text s))

def methodType (descriptor : String) : Grow UInt16 := do add (.methodType (← text descriptor))

def moduleRef (name : String) : Grow UInt16 := do add (.moduleRef (← text name))

def packageRef (name : String) : Grow UInt16 := do add (.packageRef (← text name))

def nameAndType (name descriptor : String) : Grow UInt16 := do
  let name ← text name
  let descriptor ← text descriptor
  add (.nameAndType name descriptor)

/-- A reference to a member of a class, by one of the three reference entries. -/
def member (entry : UInt16 → UInt16 → Constant) (m : MemberName) : Grow UInt16 := do
  let owner ← classRef m.owner
  let member ← nameAndType m.name m.descriptor
  add (entry owner member)

def fieldRef (m : MemberName) : Grow UInt16 := member .fieldRef m

def methodRef (m : MemberName) : Grow UInt16 := member .methodRef m

def interfaceMethodRef (m : MemberName) : Grow UInt16 := member .interfaceMethodRef m

/-- A handle on an entry that is already in the pool. -/
def methodHandle (kind : UInt8) (reference : UInt16) : Grow UInt16 :=
  add (.methodHandle kind reference)

/-- The position of a bootstrap method, whose indices are those of this pool. -/
def bootstrapMethod (m : BootstrapMethod) : Grow UInt16 := fun g =>
  match g.bootstrapIndices[m]? with
  | some index => .ok index g
  | none =>
    if g.bootstrap.size < 0x10000 then
      let index := UInt16.ofNat g.bootstrap.size
      .ok index
        { g with
          bootstrap := g.bootstrap.push m
          bootstrapIndices := g.bootstrapIndices.insert m index }
    else .error (.tooManyEntries .newBootstrapMethods (g.bootstrap.size + 1)) g

/-- A constant or call site that a bootstrap method computes, by one of the two dynamic
entries. -/
def computed (entry : UInt16 → UInt16 → Constant) (m : BootstrapMethod) (name descriptor : String) :
    Grow UInt16 := do
  let bootstrap ← bootstrapMethod m
  let member ← nameAndType name descriptor
  add (entry bootstrap member)

def dynamic (m : BootstrapMethod) (name descriptor : String) : Grow UInt16 :=
  computed .dynamic m name descriptor

def invokeDynamic (m : BootstrapMethod) (name descriptor : String) : Grow UInt16 :=
  computed .invokeDynamic m name descriptor

end Grow

end JvmClass
