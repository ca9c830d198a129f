/-!
# Byte strings

A byte string is a list of bytes; words are stored most significant byte first. The word
functions go through `Nat`, so that their laws are linear arithmetic.
-/

namespace JvmClass

abbrev Bytes := List UInt8

namespace Bytes

def ofU16 (w : UInt16) : Bytes :=
  [UInt8.ofNat (w.toNat / 0x100), UInt8.ofNat w.toNat]

def ofU32 (w : UInt32) : Bytes :=
  [UInt8.ofNat (w.toNat / 0x1000000), UInt8.ofNat (w.toNat / 0x10000),
    UInt8.ofNat (w.toNat / 0x100), UInt8.ofNat w.toNat]

def ofU64 (w : UInt64) : Bytes :=
  ofU32 (UInt32.ofNat (w.toNat / 0x100000000)) ++ ofU32 (UInt32.ofNat w.toNat)

def u16 (a b : UInt8) : UInt16 :=
  UInt16.ofNat (a.toNat * 0x100 + b.toNat)

def u32 (a b c d : UInt8) : UInt32 :=
  UInt32.ofNat (((a.toNat * 0x100 + b.toNat) * 0x100 + c.toNat) * 0x100 + d.toNat)

def u64 (hi lo : UInt32) : UInt64 :=
  UInt64.ofNat (hi.toNat * 0x100000000 + lo.toNat)

@[simp]
theorem length_ofU16 (w : UInt16) : (ofU16 w).length = 2 := rfl

@[simp]
theorem length_ofU32 (w : UInt32) : (ofU32 w).length = 4 := rfl

@[simp]
theorem length_ofU64 (w : UInt64) : (ofU64 w).length = 8 := rfl

theorem u16_ofU16 (w : UInt16) :
    u16 (UInt8.ofNat (w.toNat / 0x100)) (UInt8.ofNat w.toNat) = w := by
  apply UInt16.toNat_inj.1
  have h := w.toNat_lt
  simp only [u16, UInt8.toNat_ofNat', UInt16.toNat_ofNat']
  omega

theorem ofU16_u16 (a b : UInt8) : ofU16 (u16 a b) = [a, b] := by
  have ha := a.toNat_lt
  have hb := b.toNat_lt
  simp only [ofU16, u16, UInt16.toNat_ofNat', List.cons.injEq, and_true]
  constructor <;> apply UInt8.toNat_inj.1 <;> simp only [UInt8.toNat_ofNat'] <;> omega

theorem u32_ofU32 (w : UInt32) :
    u32 (UInt8.ofNat (w.toNat / 0x1000000)) (UInt8.ofNat (w.toNat / 0x10000))
      (UInt8.ofNat (w.toNat / 0x100)) (UInt8.ofNat w.toNat) = w := by
  apply UInt32.toNat_inj.1
  have h := w.toNat_lt
  simp only [u32, UInt8.toNat_ofNat', UInt32.toNat_ofNat']
  omega

theorem ofU32_u32 (a b c d : UInt8) : ofU32 (u32 a b c d) = [a, b, c, d] := by
  have ha := a.toNat_lt
  have hb := b.toNat_lt
  have hc := c.toNat_lt
  have hd := d.toNat_lt
  simp only [ofU32, u32, UInt32.toNat_ofNat', List.cons.injEq, and_true]
  refine ⟨?_, ?_, ?_, ?_⟩ <;> apply UInt8.toNat_inj.1 <;> simp only [UInt8.toNat_ofNat'] <;> omega

theorem u64_ofU64 (w : UInt64) :
    u64 (UInt32.ofNat (w.toNat / 0x100000000)) (UInt32.ofNat w.toNat) = w := by
  apply UInt64.toNat_inj.1
  have h := w.toNat_lt
  simp only [u64, UInt32.toNat_ofNat', UInt64.toNat_ofNat']
  omega

theorem ofU64_u64 (hi lo : UInt32) : ofU64 (u64 hi lo) = ofU32 hi ++ ofU32 lo := by
  have hh := hi.toNat_lt
  have hl := lo.toNat_lt
  have e1 : UInt32.ofNat ((u64 hi lo).toNat / 0x100000000) = hi := by
    apply UInt32.toNat_inj.1
    simp only [u64, UInt32.toNat_ofNat', UInt64.toNat_ofNat']
    omega
  have e2 : UInt32.ofNat (u64 hi lo).toNat = lo := by
    apply UInt32.toNat_inj.1
    simp only [u64, UInt32.toNat_ofNat', UInt64.toNat_ofNat']
    omega
  rw [ofU64, e1, e2]

/-- Whether at least `n` bytes are present; it looks at no more than `n` of them. -/
def atLeast : Nat → Bytes → Bool
  | 0, _ => true
  | _ + 1, [] => false
  | n + 1, _ :: rest => atLeast n rest

theorem atLeast_iff {n : Nat} {bytes : Bytes} : atLeast n bytes = true ↔ n ≤ bytes.length := by
  induction n generalizing bytes with
  | zero => simp [atLeast]
  | succ n ih => cases bytes <;> simp [atLeast, ih]

/-- A two-byte count is exact for every table it can announce. -/
def ofCount (n : Nat) : Bytes :=
  ofU16 (UInt16.ofNat n)

end Bytes

/-- The results of a fallible function, end to end; the first failure wins. -/
def concatM {ε α : Type} (f : α → Except ε Bytes) (items : List α) : Except ε Bytes :=
  (items.mapM f).map List.flatten

end JvmClass
