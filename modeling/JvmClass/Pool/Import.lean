import JvmClass.Pool.Growth

/-!
# Importing entries

An entry of one pool is copied into another with everything it refers to, the bootstrap methods
of dynamic entries included. References are followed to a limited depth, so an entry that reaches
itself is refused.
-/

namespace JvmClass

/-- A pool to copy from, with the bootstrap methods of its class. -/
structure ImportSource where
  pool : Pool
  bootstrap : Array BootstrapMethod

namespace Grow

/-- Copies the entry at `index`, following references `budget` steps. -/
def importWithin (source : ImportSource) : (budget : Nat) → UInt16 → Grow UInt16
  | 0, index => throw (.malformedConstant index .nestedTooDeep)
  | budget + 1, index => do
    let textAt (i : UInt16) : Grow String := ofExcept (source.pool.text i)
    let member (entry : UInt16 → UInt16 → Constant) (a b : UInt16) : Grow UInt16 := do
      let owner ← importWithin source budget a
      let member ← importWithin source budget b
      add (entry owner member)
    let computed (entry : UInt16 → UInt16 → Constant) (method nameAndType : UInt16) :
        Grow UInt16 := do
      match source.bootstrap[method.toNat]? with
      | none => throw (.malformedConstant index (.missingBootstrap method))
      | some m =>
        let handle ← importWithin source budget m.method
        let arguments ← m.arguments.mapM (importWithin source budget)
        let bootstrap ← bootstrapMethod ⟨handle, arguments⟩
        let member ← importWithin source budget nameAndType
        add (entry bootstrap member)
    match ← ofExcept (source.pool.get index) with
    | .utf8 s => text s
    | .utf8Unpaired us => add (.utf8Unpaired us)
    | .integer i => integer i
    | .float bits => float bits
    | .long i => long i
    | .double bits => double bits
    | .classRef name => classRef (← textAt name)
    | .stringRef s => add (.stringRef (← importWithin source budget s))
    | .nameAndType name descriptor => nameAndType (← textAt name) (← textAt descriptor)
    | .fieldRef a b => member .fieldRef a b
    | .methodRef a b => member .methodRef a b
    | .interfaceMethodRef a b => member .interfaceMethodRef a b
    | .methodHandle kind reference => methodHandle kind (← importWithin source budget reference)
    | .methodType descriptor => methodType (← textAt descriptor)
    | .dynamic method nat => computed .dynamic method nat
    | .invokeDynamic method nat => computed .invokeDynamic method nat
    | .moduleRef name => moduleRef (← textAt name)
    | .packageRef name => packageRef (← textAt name)
    | .unusable => throw (.malformedConstant index .secondSlot)

/-- Copies an entry, and returns its new index. -/
def importEntry (source : ImportSource) (index : UInt16) : Grow UInt16 :=
  importWithin source (maxReferenceNesting + 1) index

/-- Copies an entry, unless the index is zero, which stands for none. -/
def importOptional (source : ImportSource) (index : UInt16) : Grow UInt16 :=
  if index = 0 then pure 0 else importEntry source index

end Grow

end JvmClass
