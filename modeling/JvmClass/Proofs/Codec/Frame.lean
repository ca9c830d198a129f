import JvmClass.Frame
import JvmClass.Proofs.Codec.Reads
import JvmClass.Proofs.Codec.Text

/-!
# Spellings of stack map frames

A frame is read off what is written for it. The compact forms are read with small differences
only; a larger one is written in the extended form, and read as that (`Frame.promote`).
-/

namespace JvmClass

open Reader

namespace VerificationType

theorem reads_read : Reads VerificationType.read fun t used => used = t.encode := by
  refine Reads.offset fun start => Reads.intro ?_ ?_
  · refine reads_u8.sound.bind fun tag u hu => ?_
    subst hu
    have plain {n : Nat} (hn : tag.toNat = n) {t : VerificationType}
        (ht : t.encode = [UInt8.ofNat n]) :
        Sound (pure t : Reader VerificationType) fun t v => [tag] ++ v = t.encode := by
      refine (reads_pure t).sound.mono ?_
      rintro _ _ ⟨rfl, rfl⟩
      rw [ht, byte_eq hn.symm]
      rfl
    have indexed {n : Nat} (hn : tag.toNat = n) {make : UInt16 → VerificationType}
        (ht : ∀ i, (make i).encode = UInt8.ofNat n :: Bytes.ofU16 i) :
        Sound (do return make (← u16)) fun t v => [tag] ++ v = t.encode := by
      refine (reads_u16.map make).sound.mono ?_
      rintro _ _ ⟨i, rfl, rfl⟩
      rw [ht, byte_eq hn.symm]
      rfl
    split
    · exact plain (by assumption) rfl
    · exact plain (by assumption) rfl
    · exact plain (by assumption) rfl
    · exact plain (by assumption) rfl
    · exact plain (by assumption) rfl
    · exact plain (by assumption) rfl
    · exact plain (by assumption) rfl
    · exact indexed (by assumption) fun _ => rfl
    · exact indexed (by assumption) fun _ => rfl
    · exact .throw _
  · rintro t _ rest offset rfl
    cases t with
    | object i => exact run_tagged (reads_u16.map object) ⟨i, rfl, rfl⟩ rest offset
    | uninitialized i => exact run_tagged (reads_u16.map uninitialized) ⟨i, rfl, rfl⟩ rest offset
    | _ => rfl

theorem encode_length_pos (t : VerificationType) : 1 ≤ t.encode.length := by
  cases t <;> simp [encode]

theorem reads_table :
    Reads (Reader.table 1 VerificationType.read) fun types used => encodeTable types = .ok used :=
  reads_read.encodedTable .verificationTypes encode_length_pos

end VerificationType

namespace Frame

/-- Frames that reading can yield: a compact form has a small difference. -/
def IsReadable : Frame → Prop
  | same d | oneItem d _ => d.toNat < compactLimit
  | _ => True

/-- The frame as it is written: a compact form with a large difference is extended. -/
def promote : Frame → Frame
  | same d => if d.toNat < compactLimit then same d else sameExtended d
  | oneItem d item => if d.toNat < compactLimit then oneItem d item else oneItemExtended d item
  | frame => frame

theorem isReadable_promote (frame : Frame) : frame.promote.IsReadable := by
  cases frame with
  | same d | oneItem d item =>
    rw [promote]
    split
    · assumption
    · trivial
  | _ => trivial

@[simp]
theorem delta_promote (frame : Frame) : frame.promote.delta = frame.delta := by
  cases frame with
  | same d | oneItem d item =>
    rw [promote]
    split <;> rfl
  | _ => rfl

@[simp]
theorem encode_promote (frame : Frame) : frame.promote.encode = frame.encode := by
  cases frame with
  | same d | oneItem d item =>
    rw [promote]
    split
    · rfl
    · rename_i h
      rw [encode, encode, if_neg h]
  | _ => rfl

theorem fewLocals_iff {n : Nat} : fewLocals n = true ↔ 1 ≤ n ∧ n ≤ 3 := by
  simp [fewLocals]

theorem reads_full :
    Reads (do
      let d ← u16
      let locals ← table 1 VerificationType.read
      let stack ← table 1 VerificationType.read
      return full d locals stack) fun frame used =>
        ∃ d locals stack u v, VerificationType.encodeTable locals = .ok u ∧
          VerificationType.encodeTable stack = .ok v ∧ frame = full d locals stack ∧
          used = Bytes.ofU16 d ++ u ++ v := by
  refine (reads_u16.bind fun d _ _ => VerificationType.reads_table.bind fun locals _ _ =>
    VerificationType.reads_table.map (full d locals)).congr fun frame used => ?_
  constructor
  · rintro ⟨d, _, _, rfl, ⟨locals, u, v, hu, ⟨stack, rfl, hv⟩, rfl⟩, rfl⟩
    exact ⟨d, locals, stack, u, v, hu, hv, rfl, by simp⟩
  · rintro ⟨d, locals, stack, u, v, hu, hv, rfl, rfl⟩
    exact ⟨d, _, _, rfl, ⟨locals, u, v, hu, ⟨stack, rfl, hv⟩, rfl⟩, by simp⟩

theorem reads_append (n : Nat) :
    Reads (do return append (← u16) (← times n VerificationType.read)) fun frame used =>
      ∃ d locals, locals.length = n ∧ frame = append d locals ∧
        used = Bytes.ofU16 d ++ locals.flatMap VerificationType.encode := by
  refine (reads_u16.bind fun d _ _ => (VerificationType.reads_read.times n).map (append d)).congr
    fun frame used => ?_
  simp only [SpellsAll.eq_flatMap]
  constructor
  · rintro ⟨d, _, _, rfl, ⟨locals, rfl, hn, rfl⟩, rfl⟩
    exact ⟨d, locals, hn, rfl, rfl⟩
  · rintro ⟨d, locals, hn, rfl, rfl⟩
    exact ⟨d, _, _, rfl, ⟨locals, rfl, hn, rfl⟩, rfl⟩

theorem reads_oneItemExtended :
    Reads (do return oneItemExtended (← u16) (← VerificationType.read)) fun frame used =>
      ∃ d item, frame = oneItemExtended d item ∧ used = Bytes.ofU16 d ++ item.encode := by
  refine (reads_u16.bind fun d _ _ => VerificationType.reads_read.map (oneItemExtended d)).congr
    fun frame used => ?_
  constructor
  · rintro ⟨d, _, _, rfl, ⟨item, rfl, rfl⟩, rfl⟩
    exact ⟨d, item, rfl, rfl⟩
  · rintro ⟨d, item, rfl, rfl⟩
    exact ⟨d, _, _, rfl, ⟨item, rfl, rfl⟩, rfl⟩

theorem encode_chop {d : UInt16} {n : Nat} (h1 : 248 ≤ n) (h2 : n < 251) :
    (chop d (UInt8.ofNat (251 - n))).encode = .ok (UInt8.ofNat n :: Bytes.ofU16 d) := by
  have hc : (UInt8.ofNat (251 - n)).toNat = 251 - n := toNat_byte (by omega)
  rw [encode, hc, if_pos (fewLocals_iff.2 (by omega)), show 251 - (251 - n) = n by omega]

theorem sound_readTagged (start : Nat) (tag : UInt8) :
    Sound (readTagged start tag) fun frame v =>
      frame.IsReadable ∧ frame.encode = .ok (tag :: v) := by
  have htag := tag.toNat_lt
  unfold readTagged
  dsimp only
  split
  · rename_i ht
    refine (reads_pure _).sound.mono ?_
    rintro _ _ ⟨rfl, rfl⟩
    have hd : (UInt16.ofNat tag.toNat).toNat = tag.toNat := toNat_unit (by omega)
    refine ⟨by rw [IsReadable, hd]; exact ht, ?_⟩
    rw [encode, hd, if_pos (by exact ht), UInt8.ofNat_toNat]
  · split
    · rename_i h1 ht
      have hitem := VerificationType.reads_read.map (oneItem (UInt16.ofNat (tag.toNat - 64)))
      refine hitem.sound.mono ?_
      rintro _ _ ⟨item, rfl, rfl⟩
      have hd : (UInt16.ofNat (tag.toNat - 64)).toNat = tag.toNat - 64 := toNat_unit (by omega)
      have hc : tag.toNat - 64 < compactLimit := by unfold compactLimit; omega
      refine ⟨by rw [IsReadable, hd]; exact hc, ?_⟩
      rw [encode, hd, if_pos hc, show 64 + (tag.toNat - 64) = tag.toNat by omega, UInt8.ofNat_toNat]
    · split
      · exact .throw _
      · split
        · rename_i ht
          refine reads_oneItemExtended.sound.mono ?_
          rintro _ _ ⟨d, item, rfl, rfl⟩
          exact ⟨trivial, by rw [encode, ← byte_eq ht.symm]; rfl⟩
        · split
          · rename_i ht
            refine (reads_u16.map fun d => chop d (UInt8.ofNat (251 - tag.toNat))).sound.mono ?_
            rintro _ _ ⟨d, rfl, rfl⟩
            exact ⟨trivial, by rw [encode_chop (by omega) ht, UInt8.ofNat_toNat]⟩
          · split
            · rename_i ht
              refine (reads_u16.map sameExtended).sound.mono ?_
              rintro _ _ ⟨d, rfl, rfl⟩
              exact ⟨trivial, by rw [encode, ← byte_eq ht.symm]; rfl⟩
            · split
              · refine (reads_append (tag.toNat - 251)).sound.mono ?_
                rintro _ _ ⟨d, locals, hn, rfl, rfl⟩
                refine ⟨trivial, ?_⟩
                rw [encode, if_pos (fewLocals_iff.2 (by omega)), hn,
                  show 251 + (tag.toNat - 251) = tag.toNat by omega, UInt8.ofNat_toNat]
              · refine reads_full.sound.mono ?_
                rintro _ _ ⟨d, locals, stack, u, v, hu, hv, rfl, rfl⟩
                refine ⟨trivial, ?_⟩
                rw [encode, hu, hv, ← byte_eq (show 255 = tag.toNat by omega)]
                rfl

theorem reads_read :
    Reads Frame.read fun frame used => frame.IsReadable ∧ frame.encode = .ok used := by
  refine Reads.offset fun start => Reads.intro ?_ ?_
  · refine reads_u8.sound.bind fun tag u hu => ?_
    subst hu
    exact sound_readTagged start tag
  · rintro frame used rest offset ⟨hr, he⟩
    cases frame with
    | same d =>
      have hd : d.toNat < 64 := hr
      have ht : (UInt8.ofNat d.toNat).toNat = d.toNat := toNat_byte (by omega)
      rw [encode, if_pos (show d.toNat < compactLimit from hr)] at he
      cases he
      have h : readTagged start (UInt8.ofNat d.toNat) = pure (same d) := by
        unfold readTagged
        simp only [ht, hd, ↓reduceIte, UInt16.ofNat_toNat]
      exact run_tagged (h ▸ reads_pure _) ⟨rfl, rfl⟩ rest offset
    | oneItem d item =>
      have hd : d.toNat < 64 := hr
      have ht : (UInt8.ofNat (64 + d.toNat)).toNat = 64 + d.toNat := toNat_byte (by omega)
      rw [encode, if_pos (show d.toNat < compactLimit from hr)] at he
      cases he
      have h : readTagged start (UInt8.ofNat (64 + d.toNat)) =
          (do return oneItem d (← VerificationType.read)) := by
        unfold readTagged
        dsimp only
        rw [ht, if_neg (by omega), if_pos (by omega), Nat.add_sub_cancel_left, UInt16.ofNat_toNat]
      exact run_tagged (h ▸ VerificationType.reads_read.map (oneItem d)) ⟨item, rfl, rfl⟩ rest
        offset
    | sameExtended d =>
      cases he
      exact run_tagged (reads_u16.map sameExtended) ⟨d, rfl, rfl⟩ rest offset
    | oneItemExtended d item =>
      cases he
      exact run_tagged reads_oneItemExtended ⟨d, item, rfl, rfl⟩ rest offset
    | chop d count =>
      rw [encode] at he
      split at he
      · rename_i hc
        cases he
        obtain ⟨h1, h2⟩ := fewLocals_iff.1 hc
        have ht : (UInt8.ofNat (251 - count.toNat)).toNat = 251 - count.toNat :=
          toNat_byte (by omega)
        have h : readTagged start (UInt8.ofNat (251 - count.toNat)) =
            (do return chop (← u16) count) := by
          unfold readTagged
          dsimp only
          rw [ht, if_neg (by omega), if_neg (by omega), if_neg (by omega), if_neg (by omega),
            if_pos (by omega), show 251 - (251 - count.toNat) = count.toNat by omega,
            UInt8.ofNat_toNat]
        exact run_tagged (h ▸ reads_u16.map fun d => chop d count) ⟨d, rfl, rfl⟩ rest offset
      · cases he
    | append d locals =>
      rw [encode] at he
      split at he
      · rename_i hc
        cases he
        obtain ⟨h1, h2⟩ := fewLocals_iff.1 hc
        have ht : (UInt8.ofNat (251 + locals.length)).toNat = 251 + locals.length :=
          toNat_byte (by omega)
        have h : readTagged start (UInt8.ofNat (251 + locals.length)) =
            (do return append (← u16) (← times locals.length VerificationType.read)) := by
          unfold readTagged
          dsimp only
          rw [ht, if_neg (by omega), if_neg (by omega), if_neg (by omega), if_neg (by omega),
            if_neg (by omega), if_neg (by omega), if_pos (by omega), Nat.add_sub_cancel_left]
        exact run_tagged (h ▸ reads_append locals.length) ⟨d, locals, rfl, rfl, rfl⟩ rest offset
      · cases he
    | full d locals stack =>
      obtain ⟨u, hu, he⟩ := exceptBind_eq_ok.1 he
      obtain ⟨v, hv, he⟩ := exceptBind_eq_ok.1 he
      cases he
      exact run_tagged reads_full ⟨d, locals, stack, u, v, hu, hv, rfl, rfl⟩ rest offset

theorem encode_length_pos {frame : Frame} {out : Bytes} (h : frame.encode = .ok out) :
    1 ≤ out.length := by
  cases frame with
  | same | oneItem | chop | append =>
    rw [encode] at h
    split at h <;> cases h <;> simp
  | sameExtended | oneItemExtended =>
    cases h
    simp
  | full =>
    obtain ⟨u, -, h⟩ := exceptBind_eq_ok.1 h
    obtain ⟨v, -, h⟩ := exceptBind_eq_ok.1 h
    cases h
    simp

end Frame

end JvmClass
