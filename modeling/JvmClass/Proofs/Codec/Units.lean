import JvmClass.Proofs.Codec.Text
import Mathlib.Logic.ExistsUnique

/-!
# One encoding for each list of units

Units are decoded from their encoding and from nothing else, so `encodeUnits` is one to one and
`decodeUnits` accepts just what it writes. Refused bytes are described without the decoder: behind
the encoding of some units stands a fault (`Text.Fault`), which is a zero byte, a byte that starts
no form, a form with too few continuation bytes, or a form that is longer than its unit needs.
-/

namespace JvmClass.Text

/-! ## Faults -/

/-- A byte that continues a form. -/
def IsContinuation (b : UInt8) : Prop := 0x80 ≤ b.toNat ∧ b.toNat < 0xC0

/-- At least `count` continuation bytes stand in front. -/
def Continues (count : Nat) (bytes : Bytes) : Prop :=
  count ≤ bytes.length ∧ ∀ b ∈ bytes.take count, IsContinuation b

/-- No unit has its form at the start of these bytes. -/
inductive Fault : Bytes → Prop
  /-- A zero byte, or the first byte of a form of four bytes or more. -/
  | foreign {a rest} : IsForeign a → Fault (a :: rest)
  /-- A continuation byte with nothing to continue. -/
  | stray {a rest} : IsContinuation a → Fault (a :: rest)
  | cutTwo {a rest} : 0xC0 ≤ a.toNat → a.toNat ≤ 0xDF → ¬Continues 1 rest → Fault (a :: rest)
  | cutThree {a rest} : 0xE0 ≤ a.toNat → a.toNat ≤ 0xEF → ¬Continues 2 rest → Fault (a :: rest)
  /-- Two bytes for a unit below `0x80`; zero has no other form than `C0 80`. -/
  | overlongTwo {a b rest} : a.toNat = 0xC0 ∧ b.toNat ≠ 0x80 ∨ a.toNat = 0xC1 →
      Continues 1 (b :: rest) → Fault (a :: b :: rest)
  /-- Three bytes for a unit below `0x800`. -/
  | overlongThree {a b rest} : a.toNat = 0xE0 → b.toNat < 0xA0 → Continues 2 (b :: rest) →
      Fault (a :: b :: rest)

theorem continues_one {b : UInt8} {rest : Bytes} : Continues 1 (b :: rest) ↔ IsContinuation b := by
  simp [Continues]

theorem continues_two {b c : UInt8} {rest : Bytes} :
    Continues 2 (b :: c :: rest) ↔ IsContinuation b ∧ IsContinuation c := by
  simp [Continues]

theorem continuation?_eq_none {b : UInt8} : continuation? b = none ↔ ¬IsContinuation b := by
  simp [continuation?, IsContinuation]

theorem continuation?_eq {b : UInt8} (h : IsContinuation b) :
    continuation? b = some (b.toNat - 0x80) := if_pos h

/-- Two bytes are no form if the second does not continue the first, or if one would do. -/
theorem twoByteUnit?_eq_none {a b : UInt8} (ha : 0xC0 ≤ a.toNat) :
    twoByteUnit? a b = none ↔
      ¬IsContinuation b ∨ a.toNat = 0xC0 ∧ b.toNat ≠ 0x80 ∨ a.toNat = 0xC1 := by
  unfold twoByteUnit?
  by_cases hb : IsContinuation b
  · obtain ⟨h1, h2⟩ := hb
    rw [continuation?_eq ⟨h1, h2⟩]
    simp only [Option.bind_eq_bind, Option.bind_some, ite_eq_right_iff, reduceCtorEq, imp_false]
    constructor
    · intro h
      omega
    · rintro (h | h)
      · exact absurd ⟨h1, h2⟩ h
      · omega
  · simp [continuation?_eq_none.2 hb, hb]

/-- Three bytes are no form if one of the last two is no continuation, or if two would do. -/
theorem threeByteUnit?_eq_none {a b c : UInt8} (ha : 0xE0 ≤ a.toNat) :
    threeByteUnit? a b c = none ↔
      ¬(IsContinuation b ∧ IsContinuation c) ∨ a.toNat = 0xE0 ∧ b.toNat < 0xA0 := by
  unfold threeByteUnit?
  by_cases hb : IsContinuation b
  · by_cases hc : IsContinuation c
    · obtain ⟨h1, h2⟩ := hb
      obtain ⟨h3, h4⟩ := hc
      rw [continuation?_eq ⟨h1, h2⟩, continuation?_eq ⟨h3, h4⟩]
      simp only [Option.bind_eq_bind, Option.bind_some, ite_eq_right_iff, reduceCtorEq, imp_false]
      constructor
      · intro h
        omega
      · rintro (h | h)
        · exact absurd ⟨⟨h1, h2⟩, h3, h4⟩ h
        · omega
    · simp [continuation?_eq_none.2 hc, hc, continuation?_eq hb]
  · simp [continuation?_eq_none.2 hb, hb]

/-! ## Where decoding stops -/

theorem decodeUnitsAfter_append (us found : List UInt16) (rest : Bytes) :
    decodeUnitsAfter found (encodeUnits us ++ rest) =
      decodeUnitsAfter (us.reverse ++ found) rest := by
  induction us generalizing found with
  | nil => rfl
  | cons u us ih =>
    rw [encodeUnits_cons, List.append_assoc, decodeUnitsAfter_encodeUnit, ih]
    simp

theorem Fault.decodeUnitsAfter_eq_none {bytes : Bytes} (h : Fault bytes) (found : List UInt16) :
    decodeUnitsAfter found bytes = none := by
  cases h with
  | foreign ha => exact decodeUnitsAfter_of_isForeign ha found _
  | stray ha =>
    obtain ⟨h1, h2⟩ := ha
    rw [decodeUnitsAfter.eq_def]
    dsimp only
    rw [if_neg (by omega), if_neg (by omega), if_neg (by omega)]
  | @cutTwo a rest h1 h2 hcut =>
    rw [decodeUnitsAfter.eq_def]
    dsimp only
    rw [if_neg (by omega), if_pos ⟨h1, h2⟩]
    cases rest with
    | nil => rfl
    | cons b rest =>
      rw [continues_one] at hcut
      simp only [(twoByteUnit?_eq_none h1).2 (.inl hcut)]
  | @cutThree a rest h1 h2 hcut =>
    rw [decodeUnitsAfter.eq_def]
    dsimp only
    rw [if_neg (by omega), if_neg (by omega), if_pos ⟨h1, h2⟩]
    rcases rest with _ | ⟨b, _ | ⟨c, rest⟩⟩
    · rfl
    · rfl
    · rw [continues_two] at hcut
      simp only [(threeByteUnit?_eq_none h1).2 (.inl hcut)]
  | @overlongTwo a b rest hlong _ =>
    rw [decodeUnitsAfter.eq_def]
    dsimp only
    rw [if_neg (by omega), if_pos (by omega), (twoByteUnit?_eq_none (by omega)).2 (.inr hlong)]
  | @overlongThree a b rest ha hb _ =>
    rw [decodeUnitsAfter.eq_def]
    dsimp only
    rw [if_neg (by omega), if_neg (by omega), if_pos (by omega)]
    cases rest with
    | nil => rfl
    | cons c rest => simp only [(threeByteUnit?_eq_none (c := c) (by omega)).2 (.inr ⟨ha, hb⟩)]

/-- Decoding fails at the first fault. -/
theorem exists_fault_of_decodeUnitsAfter {found : List UInt16} {bytes : Bytes}
    (h : decodeUnitsAfter found bytes = none) :
    ∃ us rest, bytes = encodeUnits us ++ rest ∧ Fault rest := by
  fun_induction decodeUnitsAfter found bytes with
  | case1 => cases h
  | case2 found a rest ha ih =>
    obtain ⟨us, tail, rfl, hfault⟩ := ih h
    refine ⟨a.toUInt16 :: us, tail, ?_, hfault⟩
    rw [encodeUnits_cons]
    simp [encodeUnit, ha]
  | case3 found a _ ha b rest u hu ih =>
    obtain ⟨us, tail, rfl, hfault⟩ := ih h
    refine ⟨u :: us, tail, ?_, hfault⟩
    rw [encodeUnits_cons, encodeUnit_of_twoByteUnit? ha hu]
    rfl
  | case4 found a _ ha b rest hu =>
    refine ⟨[], _, rfl, ?_⟩
    by_cases hb : IsContinuation b
    · have hlong := ((twoByteUnit?_eq_none ha.1).1 hu).resolve_left (not_not_intro hb)
      exact .overlongTwo hlong (continues_one.2 hb)
    · exact .cutTwo ha.1 ha.2 (by rwa [continues_one])
  | case5 found a _ ha => exact ⟨[], _, rfl, .cutTwo ha.1 ha.2 (by simp [Continues])⟩
  | case6 found a _ _ ha b c rest u hu ih =>
    obtain ⟨us, tail, rfl, hfault⟩ := ih h
    refine ⟨u :: us, tail, ?_, hfault⟩
    rw [encodeUnits_cons, encodeUnit_of_threeByteUnit? ha hu]
    rfl
  | case7 found a _ _ ha b c rest hu =>
    refine ⟨[], _, rfl, ?_⟩
    by_cases hbc : IsContinuation b ∧ IsContinuation c
    · obtain ⟨h1, h2⟩ := ((threeByteUnit?_eq_none ha.1).1 hu).resolve_left (not_not_intro hbc)
      exact .overlongThree h1 h2 (continues_two.2 hbc)
    · exact .cutThree ha.1 ha.2 (by rwa [continues_two])
  | case8 found a rest _ _ ha hshort =>
    refine ⟨[], _, rfl, .cutThree ha.1 ha.2 fun hcontinues => ?_⟩
    rcases rest with _ | ⟨b, _ | ⟨c, rest⟩⟩
    · exact absurd hcontinues.1 (by simp)
    · exact absurd hcontinues.1 (by simp)
    · exact hshort b c rest rfl
  | case9 found a rest h1 h2 h3 =>
    refine ⟨[], _, rfl, ?_⟩
    by_cases ha : IsContinuation a
    · exact .stray ha
    · unfold IsContinuation at ha
      refine .foreign ?_
      by_cases hzero : a.toNat = 0
      · exact .inl (UInt8.toNat_inj.1 hzero)
      · exact .inr (by omega)

theorem decodeUnits_eq_none_iff {bytes : Bytes} :
    decodeUnits bytes = none ↔ ∃ us rest, bytes = encodeUnits us ++ rest ∧ Fault rest := by
  constructor
  · exact exists_fault_of_decodeUnitsAfter
  · rintro ⟨us, rest, rfl, hfault⟩
    rw [decodeUnits, decodeUnitsAfter_append]
    exact hfault.decodeUnitsAfter_eq_none _

theorem decodeUnits_eq_some_iff {bytes : Bytes} {us : List UInt16} :
    decodeUnits bytes = some us ↔ encodeUnits us = bytes := by
  constructor
  · exact encodeUnits_of_decodeUnits
  · rintro rfl
    exact decodeUnits_encodeUnits us

/-- Units have one encoding each. It is decoded as the units, and other bytes are refused: those
with a fault behind a good beginning, and so all that hold a zero byte or one that starts four. -/
theorem encodeUnits_unique :
    (∀ us, decodeUnits (encodeUnits us) = some us) ∧
      (∀ bytes us, decodeUnits bytes = some us ↔ encodeUnits us = bytes) ∧
      (∀ us, ∃! bytes, decodeUnits bytes = some us) ∧
      (∀ bytes, decodeUnits bytes = none ↔
        ∃ us rest, bytes = encodeUnits us ++ rest ∧ Fault rest) ∧
      ∀ bytes, (∃ b ∈ bytes, IsForeign b) → decodeUnits bytes = none := by
  refine ⟨decodeUnits_encodeUnits, fun _ _ => decodeUnits_eq_some_iff, fun us => ?_,
    fun _ => decodeUnits_eq_none_iff, ?_⟩
  · refine ⟨encodeUnits us, decodeUnits_encodeUnits us, fun bytes h => ?_⟩
    exact (decodeUnits_eq_some_iff.1 h).symm
  · rintro bytes ⟨b, hb, hforeign⟩
    cases h : decodeUnits bytes with
    | none => rfl
    | some us =>
      rw [← decodeUnits_eq_some_iff.1 h, encodeUnits] at hb
      obtain ⟨u, -, hu⟩ := List.mem_flatMap.1 hb
      exact absurd hforeign (not_isForeign_of_mem_encodeUnit hu)

end JvmClass.Text
