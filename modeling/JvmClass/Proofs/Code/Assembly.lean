import JvmClass.Proofs.Code.Emitted

/-!
# Laying out and decoding

Instructions that are laid out are decoded as they were placed: each stands at its offset, and its
targets are the offsets of the instructions that its keys stand for. Decoded code, in turn, has the
offsets at which it was read, and is laid out again at the same ones.
-/

namespace JvmClass

namespace Instruction

/-- A form that reading yields. The pairs of a switch are not counted: code that can be laid out has
no room for too many. -/
def IsForm (p : Pool) (i : Instruction) : Prop :=
  (∀ default pairs, i = lookupSwitch default pairs → pairs.length < 0x80000000) → i.Fits p

end Instruction

namespace Code

open Instruction

/-- Read off `bytes` one after the other, the instructions of `code` are found at `starts`: each
ends where the next one starts, and the last one where the bytes end. -/
structure LiesAt (p : Pool) (bytes : Bytes) (starts : Array Nat) (code : List Instruction) :
    Prop where
  located : (readAll p bytes.length []).runOn bytes = .ok (starts.toList.zip code)
  size : starts.size = code.length + 1
  first : starts[0]? = some 0
  each : ∀ k i, code[k]? = some i → ∃ o o', starts[k]? = some o ∧ starts[k + 1]? = some o' ∧
    read p o ⟨bytes.drop o, o, .off⟩ = .ok i ⟨bytes.drop o', o', .off⟩
  last : starts[code.length]? = some bytes.length

/-- Where bytes are made of one piece for each instruction, a piece starts at its offset. -/
theorem exists_piece {P : Nat → Instruction → Bytes → Prop}
    {W : Nat → List Instruction → Bytes → Prop}
    (hlength : ∀ o i u, P o i u → u.length = i.encodedLength o)
    (hcons : ∀ o i rest used, W o (i :: rest) used →
      ∃ u v, P o i u ∧ W (o + i.encodedLength o) rest v ∧ used = u ++ v)
    {bytes used : Bytes} {offset : Nat} {code : List Instruction} (h : W offset code used)
    (hused : bytes.drop offset = used) {k : Nat} {i : Instruction} (hi : code[k]? = some i) :
    ∃ o u, (startsFrom offset code ++ [endFrom offset code])[k]? = some o ∧
      (startsFrom offset code ++ [endFrom offset code])[k + 1]? = some (o + u.length) ∧
      P o i u ∧ bytes.drop o = u ++ bytes.drop (o + u.length) := by
  induction code generalizing offset used k with
  | nil => cases hi
  | cons j rest ih =>
    obtain ⟨u, v, hu, hv, rfl⟩ := hcons _ _ _ _ h
    have hlen := hlength _ _ _ hu
    have hdrop : bytes.drop (offset + j.encodedLength offset) = v := by
      rw [← List.drop_drop, hused, ← hlen, List.drop_left]
    rw [startsFrom, endFrom, List.cons_append]
    cases k with
    | zero =>
      cases hi
      refine ⟨offset, u, rfl, ?_, hu, ?_⟩
      · rw [hlen]
        cases rest <;> rfl
      · rw [hused, hlen, hdrop]
    | succ k => exact ih hv hdrop hi

theorem SpellsFrom.liesAt {p : Pool} {bytes : Bytes} {code : List Instruction}
    (h : SpellsFrom p 0 code bytes) : LiesAt p bytes (offsets code) code := by
  have hlist : (offsets code).toList = startsFrom 0 code ++ [endFrom 0 code] := by
    rw [offsets_eq]
  have hstarts := length_startsFrom 0 code
  refine ⟨?_, size_offsets code, ?_, fun k i hi => ?_, ?_⟩
  · rw [runOn_readAll]
    refine ⟨code, h, ?_⟩
    calc
      (offsets code).toList.zip code
        = (startsFrom 0 code ++ [endFrom 0 code]).zip (code ++ []) := by
          rw [hlist, List.append_nil]
      _ = (startsFrom 0 code).zip code := by
          rw [List.zip_append hstarts, List.zip_nil_right, List.append_nil]
  · rw [offsets_eq]
    cases code <;> rfl
  · obtain ⟨o, u, ho, ho', hu, hdrop⟩ :=
      exists_piece (fun _ _ _ hu => hu.length_eq) (fun _ _ _ _ h => h) h List.drop_zero hi
    rw [offsets_eq]
    simp only [List.getElem?_toArray]
    exact ⟨o, _, ho, ho', hdrop ▸ (reads_read p o).run hu _ o⟩
  · rw [offsets_eq, List.getElem?_toArray, ← hstarts, List.getElem?_concat_length, h.end_eq,
      Nat.zero_add]

/-- Forms that are read are laid out as a spelling of them. -/
theorem spellsFrom_of_assemble {p : Pool} {code : List Instruction}
    {resolve : UInt32 → Except Error Nat} {a : Assembled} (hcode : ∀ i ∈ code, i.IsForm p)
    (h : assemble code resolve = .ok a) : SpellsFrom p 0 a.instructions a.bytes := by
  obtain ⟨hend, hplaced, hencode, -⟩ := assemble_eq_ok_iff.1 h
  have hfits : ∀ j ∈ a.instructions, j.Fits p := by
    intro j hj
    obtain ⟨i, hi, hij⟩ := exists_of_forall₂ (retargeted_of_assemble h).2 j hj
    refine hij.fits (hcode i hi fun default pairs he => ?_)
    exact length_lt_of_mem hend (he ▸ hi)
  have hshort : endFrom 0 a.instructions < 0x10000 := by rwa [hplaced.end_eq]
  exact .of_encode hfits ((targetsIn_of_assemble h).inReach hshort) hencode

/-- Laying out and decoding undo each other. Forms that are read are laid out, whatever their keys
stand for, as code that is decoded as they were placed. Decoded code lies at its offsets, and is
laid out again, unless it is too long, as code of its length that is decoded alike. -/
theorem assemble_decode_inverse (p : Pool) :
    (∀ code resolve a, (∀ i ∈ code, i.IsForm p) → assemble code resolve = .ok a →
      decode p a.bytes = .ok a.instructions ∧ LiesAt p a.bytes a.offsets a.instructions ∧
        List.Forall₂ (Retargeted fun key target => ∃ index, resolve key = .ok index ∧
          index < code.length ∧ a.offsets[index]? = some target.toNat) code a.instructions) ∧
      ∀ bytes code, decode p bytes = .ok code →
        LiesAt p bytes (offsets code) code ∧
          (bytes.length ≤ 65535 → ∃ a, reassemble code = .ok a ∧
            a.bytes.length = bytes.length ∧ decode p a.bytes = .ok code) := by
  constructor
  · intro code resolve a hcode h
    have hs := spellsFrom_of_assemble hcode h
    obtain ⟨hoffsets, hretargeted⟩ := retargeted_of_assemble h
    exact ⟨decode_eq_ok_iff.2 ⟨hs, targetsIn_of_assemble h⟩, hoffsets ▸ hs.liesAt, hretargeted⟩
  · intro bytes code h
    refine ⟨(decode_eq_ok_iff.1 h).1.liesAt, fun hlength => ?_⟩
    obtain ⟨out, hout, hlen, hdecode, -⟩ := reassemble_of_decode h (Nat.lt_succ_of_le hlength)
    exact ⟨_, hout, hlen, hdecode⟩

/-! ### A switch with a way back -/

/-- Its targets are the numbers of instructions. -/
def switching : List Instruction :=
  [.simple .iconst0, .tableSwitch 3 0 1 [2, 3], .branch .gotoW 0, .simple .vreturn]

/-- The same, laid out: the operands of the switch start at offset four. -/
def switchingCode : Assembled where
  bytes := [0x03, 0xAA, 0, 0, 0, 0, 0, 28, 0, 0, 0, 0, 0, 0, 0, 1, 0, 0, 0, 23, 0, 0, 0, 28,
    0xC8, 0xFF, 0xFF, 0xFF, 0xE8, 0xB1]
  offsets := #[0, 1, 24, 29, 30]
  instructions :=
    [.simple .iconst0, .tableSwitch 29 0 1 [24, 29], .branch .gotoW 0, .simple .vreturn]

theorem assemble_decode_inverse_switching :
    assemble switching (fun key => .ok key.toNat) = .ok switchingCode ∧
      LiesAt .empty switchingCode.bytes switchingCode.offsets switchingCode.instructions ∧
      ∃ a, reassemble switchingCode.instructions = .ok a ∧
        a.bytes.length = switchingCode.bytes.length ∧
        decode .empty a.bytes = .ok switchingCode.instructions := by
  have hassemble : assemble switching (fun key => .ok key.toNat) = .ok switchingCode := by rfl
  have hforms : ∀ i ∈ switching, i.IsForm .empty := by
    intro i hi _
    simp only [switching, List.mem_cons, List.not_mem_nil, or_false] at hi
    rcases hi with rfl | rfl | rfl | rfl
    · exact fits_of_poolIndex rfl rfl
    · exact fits_of_poolIndex ⟨by decide, by decide⟩ rfl
    · exact fits_of_poolIndex rfl rfl
    · exact fits_of_poolIndex rfl rfl
  obtain ⟨hlaid, hdecoded⟩ := assemble_decode_inverse .empty
  obtain ⟨hdecode, hlies, -⟩ := hlaid _ _ _ hforms hassemble
  exact ⟨hassemble, hlies, (hdecoded _ _ hdecode).2 (by decide)⟩

end Code

end JvmClass
