import JvmClass.Pool
import JvmClass.Reader

/-!
# Binary form of constants and pools

An entry is a tag byte and a payload; the second slot of a long or double has no bytes of its
own. A pool is the number of its slots plus one, then its entries.
-/

namespace JvmClass

namespace Constant

def encodeText (bytes : Bytes) : Except Error Bytes :=
  if bytes.length < 0x10000 then .ok (1 :: (Bytes.ofCount bytes.length ++ bytes))
  else .error (.textTooLong bytes.length)

def encode : Constant → Except Error Bytes
  | utf8 s => encodeText (Text.encode s)
  | utf8Unpaired us => encodeText (Text.encodeUnits us)
  | integer i => .ok (3 :: Bytes.ofU32 i.toUInt32)
  | float bits => .ok (4 :: Bytes.ofU32 bits)
  | long i => .ok (5 :: Bytes.ofU64 i.toUInt64)
  | double bits => .ok (6 :: Bytes.ofU64 bits)
  | classRef name => .ok (7 :: Bytes.ofU16 name)
  | stringRef text => .ok (8 :: Bytes.ofU16 text)
  | fieldRef owner member => .ok (9 :: (Bytes.ofU16 owner ++ Bytes.ofU16 member))
  | methodRef owner member => .ok (10 :: (Bytes.ofU16 owner ++ Bytes.ofU16 member))
  | interfaceMethodRef owner member => .ok (11 :: (Bytes.ofU16 owner ++ Bytes.ofU16 member))
  | nameAndType name descriptor => .ok (12 :: (Bytes.ofU16 name ++ Bytes.ofU16 descriptor))
  | methodHandle kind reference => .ok (15 :: kind :: Bytes.ofU16 reference)
  | methodType descriptor => .ok (16 :: Bytes.ofU16 descriptor)
  | dynamic bootstrap member => .ok (17 :: (Bytes.ofU16 bootstrap ++ Bytes.ofU16 member))
  | invokeDynamic bootstrap member => .ok (18 :: (Bytes.ofU16 bootstrap ++ Bytes.ofU16 member))
  | moduleRef name => .ok (19 :: Bytes.ofU16 name)
  | packageRef name => .ok (20 :: Bytes.ofU16 name)
  | unusable => .ok []

open Reader in
/-- Reads the entry at `index`. -/
def read (index : UInt16) : Reader Constant := do
  let tag ← u8
  match tag.toNat with
  | 1 =>
    let length ← u16
    let bytes ← take length.toNat
    match ofTextBytes? bytes with
    | some c => return c
    | none => throw (.malformedConstant index .invalidText)
  | 3 => return integer (← i32)
  | 4 => return float (← u32)
  | 5 => return long (← i64)
  | 6 => return double (← u64)
  | 7 => return classRef (← u16)
  | 8 => return stringRef (← u16)
  | 9 => return fieldRef (← u16) (← u16)
  | 10 => return methodRef (← u16) (← u16)
  | 11 => return interfaceMethodRef (← u16) (← u16)
  | 12 => return nameAndType (← u16) (← u16)
  | 15 => return methodHandle (← u8) (← u16)
  | 16 => return methodType (← u16)
  | 17 => return dynamic (← u16) (← u16)
  | 18 => return invokeDynamic (← u16) (← u16)
  | 19 => return moduleRef (← u16)
  | 20 => return packageRef (← u16)
  | _ => throw (.malformedConstant index (.unknownTag tag))

end Constant

namespace Pool

/-- The number of slots plus one, as it is stored. -/
def count (p : Pool) : UInt16 := UInt16.ofNat (p.size + 1)

/-- The pieces in which a pool is written: its count, then entry by entry. -/
def pieces (p : Pool) : List (Except Error Bytes) :=
  .ok (Bytes.ofU16 p.count) :: p.slots.toList.map Constant.encode

def encode (p : Pool) : Except Error Bytes :=
  concatM id p.pieces

/-- Reads entries until all `total` slots are filled. Each entry fills one slot at least, so
`budget` is the number of slots still free. -/
def readSlots (total : Nat) : (budget : Nat) → Pool → Reader Pool
  | 0, p => pure p
  | budget + 1, p =>
    if p.size < total then do
      let index := UInt16.ofNat (p.size + 1)
      let c ← Constant.read index
      if p.size + c.slots ≤ total then readSlots total budget (p.append c)
      else throw (.malformedConstant index (.lastSlot c.kindName))
    else pure p

/-- Reads a pool. No entry takes fewer than three bytes for a slot. -/
def read : Reader Pool := do
  let count ← Reader.u16
  if count = 0 then throw (.malformedConstant 0 .noCount)
  let total := count.toNat - 1
  Reader.need (total * 3)
  readSlots total total .empty

/-- Reads and checks a pool at the front of `bytes`, and counts the bytes it takes. -/
def decode (bytes : Bytes) : Except Error (Pool × Nat) :=
  Reader.runOn (do
    let p ← read
    ofExcept p.validate
    return (p, ← Reader.offset)) bytes

end Pool

end JvmClass
