/-!
# Access flags

The sixteen property bits of a class, field or method. The same bit means different things in
different places, so the names are read off one of two tables.
-/

namespace JvmClass

structure Access where
  bits : UInt16
  deriving DecidableEq, Inhabited

namespace Access

/-- The flag of a `public` class with the usual treatment of `super` calls. -/
def publicSuper : Access := ⟨0x0021⟩

def has (a : Access) (mask : UInt16) : Bool :=
  a.bits &&& mask == mask

def isStatic (a : Access) : Bool := a.has 0x0008

def classNames : List (UInt16 × String) :=
  [(0x0001, "public"), (0x0010, "final"), (0x0020, "super"), (0x0200, "interface"),
    (0x0400, "abstract"), (0x1000, "synthetic"), (0x2000, "annotation"), (0x4000, "enum"),
    (0x8000, "module")]

def methodNames : List (UInt16 × String) :=
  [(0x0001, "public"), (0x0002, "private"), (0x0004, "protected"), (0x0008, "static"),
    (0x0010, "final"), (0x0020, "synchronized"), (0x0040, "bridge"), (0x0080, "varargs"),
    (0x0100, "native"), (0x0400, "abstract"), (0x0800, "strict"), (0x1000, "synthetic")]

def named (a : Access) (names : List (UInt16 × String)) : List String :=
  (names.filter fun (mask, _) => a.has mask).map Prod.snd

/-- The set bits, read as flags of a class. -/
def classModifiers (a : Access) : List String := a.named classNames

/-- The set bits, read as flags of a method. -/
def methodModifiers (a : Access) : List String := a.named methodNames

end Access

end JvmClass
