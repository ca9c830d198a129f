import JvmClass.Error
import JvmClass.Log

/-!
# Readers

A reader takes bytes from the front of a cursor. It fails with `Error.truncated` at the offset
where the missing item starts; every other failure depends only on bytes that are there. The
cursor keeps the log, so what was recorded survives a failure.
-/

namespace JvmClass

/-- The bytes not yet read, and the offset of the first of them in the whole input. -/
structure Cursor where
  bytes : Bytes
  offset : Nat
  log : Log

def Cursor.start (bytes : Bytes) (log : Log) : Cursor := ⟨bytes, 0, log⟩

abbrev Reader := EStateM Error Cursor

namespace Reader

/-- The outcome of a reader on bytes of its own, with no log. -/
def runOn {α : Type} (r : Reader α) (bytes : Bytes) : Except Error α :=
  match r (.start bytes .off) with
  | .ok a _ => .ok a
  | .error e _ => .error e

def offset : Reader Nat := fun c => .ok c.offset c

def truncated {α : Type} : Reader α := fun c => .error (.truncated c.offset) c

def record (e : Event) : Reader Unit := fun c => .ok () { c with log := c.log.record e }

def u8 : Reader UInt8 := fun c =>
  match c.bytes with
  | a :: rest => .ok a { c with bytes := rest, offset := c.offset + 1 }
  | _ => truncated c

def u16 : Reader UInt16 := fun c =>
  match c.bytes with
  | a :: b :: rest => .ok (Bytes.u16 a b) { c with bytes := rest, offset := c.offset + 2 }
  | _ => truncated c

def u32 : Reader UInt32 := fun c =>
  match c.bytes with
  | a :: b :: d :: e :: rest =>
    .ok (Bytes.u32 a b d e) { c with bytes := rest, offset := c.offset + 4 }
  | _ => truncated c

def u64 : Reader UInt64 := fun c =>
  match c.bytes with
  | a :: b :: d :: e :: f :: g :: h :: i :: rest =>
    .ok (Bytes.u64 (Bytes.u32 a b d e) (Bytes.u32 f g h i))
      { c with bytes := rest, offset := c.offset + 8 }
  | _ => truncated c

def i8 : Reader Int8 := UInt8.toInt8 <$> u8

def i16 : Reader Int16 := UInt16.toInt16 <$> u16

def i32 : Reader Int32 := UInt32.toInt32 <$> u32

def i64 : Reader Int64 := UInt64.toInt64 <$> u64

/-- Fails unless `n` bytes are left. -/
def need (n : Nat) : Reader Unit := fun c =>
  if Bytes.atLeast n c.bytes then .ok () c else truncated c

def take (n : Nat) : Reader Bytes := fun c =>
  if Bytes.atLeast n c.bytes then
    let (taken, rest) := c.bytes.splitAt n
    .ok taken { c with bytes := rest, offset := c.offset + n }
  else truncated c

/-- All bytes that are left. -/
def rest : Reader Bytes := fun c =>
  .ok c.bytes { c with bytes := [], offset := c.offset + c.bytes.length }

/-- Reads `n` items behind those read so far, which stand in reverse. -/
def timesAfter {α : Type} (r : Reader α) : Nat → List α → Reader (List α)
  | 0, items => pure items.reverse
  | n + 1, items => do
    let a ← r
    timesAfter r n (a :: items)

def times {α : Type} (n : Nat) (r : Reader α) : Reader (List α) :=
  timesAfter r n []

/-- A two-byte count and that many items. It fails at once when fewer than `size` bytes are left
for each of them. -/
def table {α : Type} (size : Nat) (r : Reader α) : Reader (List α) := do
  let n ← u16
  need (n.toNat * size)
  times n.toNat r

def u16Table : Reader (List UInt16) := table 2 u16

/-- Runs `r` on a payload that starts at offset `start` of the input, and returns its value with
the number of bytes it left and their offset. -/
def within {α : Type} (payload : Bytes) (start : Nat) (r : Reader α) : Reader (α × Nat × Nat) :=
  fun c =>
    match r ⟨payload, start, c.log⟩ with
    | .ok a inner => .ok (a, inner.bytes.length, inner.offset) { c with log := inner.log }
    | .error e inner => .error e { c with log := inner.log }

/-- Changes the error of a failing reader. -/
def mapError {α : Type} (f : Error → Error) (r : Reader α) : Reader α := fun c =>
  match r c with
  | .ok a c => .ok a c
  | .error e c => .error (f e) c

end Reader

end JvmClass
