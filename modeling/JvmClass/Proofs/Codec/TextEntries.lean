import JvmClass.Proofs.Codec.Pool

/-!
# Text entries

A text entry is kept as text whenever it can be, and by its code units only if one of these is an
unpaired surrogate (`Text.UnpairedAt`). Bytes have one reading: taking standard UTF-8 first, then
modified UTF-8 character by character (`Text.decodeChars`), then modified UTF-8 unit by unit
(`Constant.inTurn?`) comes to the same as reading units at once, so no two of these disagree on
any bytes. Writing an entry gives back the bytes it was read from, unless they were standard UTF-8
that modified UTF-8 spells differently.
-/

namespace JvmClass

namespace Text

/-! ## Unpaired surrogates -/

/-- The unit at `k` is a surrogate without its other half: a high one with no low one right behind
it, or a low one with no high one right before it. -/
def UnpairedAt (us : List UInt16) (k : Nat) : Prop :=
  ∃ u, us[k]? = some u ∧
    (isHighSurrogate u ∧ (∀ v, us[k + 1]? = some v → ¬isLowSurrogate v) ∨
      isLowSurrogate u ∧ ∀ j v, k = j + 1 → us[j]? = some v → ¬isHighSurrogate v)

theorem isHighSurrogate_iff {u : UInt16} :
    isHighSurrogate u = true ↔ 0xD800 ≤ u.toNat ∧ u.toNat < 0xDC00 := by
  simp [isHighSurrogate]

theorem isLowSurrogate_iff {u : UInt16} :
    isLowSurrogate u = true ↔ 0xDC00 ≤ u.toNat ∧ u.toNat < 0xE000 := by
  simp [isLowSurrogate]

theorem not_low_of_high {u : UInt16} (h : isHighSurrogate u) : ¬isLowSurrogate u := by
  rw [isHighSurrogate_iff] at h
  rw [isLowSurrogate_iff]
  omega

/-- A unit that is no high surrogate is the first half of nothing. -/
theorem unpairedAt_succ_iff {u : UInt16} (hu : ¬isHighSurrogate u) (us : List UInt16) (k : Nat) :
    UnpairedAt (u :: us) (k + 1) ↔ UnpairedAt us k := by
  unfold UnpairedAt
  simp only [List.getElem?_cons_succ]
  refine exists_congr fun w => and_congr_right fun _ => or_congr_right (and_congr_right fun _ => ?_)
  constructor
  · rintro h j v rfl hv
    exact h (j + 1) v rfl hv
  · rintro h j v hk hv
    cases Nat.succ.inj hk
    cases k with
    | zero =>
      cases hv
      exact hu
    | succ k => exact h k v rfl hv

theorem exists_unpairedAt_cons {u : UInt16} (hu : ¬isHighSurrogate u) (us : List UInt16) :
    (∃ k, UnpairedAt (u :: us) k) ↔ isLowSurrogate u ∨ ∃ k, UnpairedAt us k := by
  constructor
  · rintro ⟨k, h⟩
    cases k with
    | zero =>
      obtain ⟨w, hw, h⟩ := h
      cases hw
      exact .inl (h.resolve_left fun h => hu h.1).1
    | succ k => exact .inr ⟨k, (unpairedAt_succ_iff hu us k).1 h⟩
  · rintro (hl | ⟨k, h⟩)
    · exact ⟨0, u, rfl, .inr ⟨hl, fun j v hj => by omega⟩⟩
    · exact ⟨k + 1, (unpairedAt_succ_iff hu us k).2 h⟩

theorem exists_unpairedAt_pair {u v : UInt16} (hu : isHighSurrogate u) (hv : isLowSurrogate v)
    (us : List UInt16) : (∃ k, UnpairedAt (u :: v :: us) k) ↔ ∃ k, UnpairedAt us k := by
  have hv' : ¬isHighSurrogate v := fun h => not_low_of_high h hv
  constructor
  · rintro ⟨k, h⟩
    match k with
    | 0 =>
      obtain ⟨w, hw, ⟨-, h⟩ | ⟨h, -⟩⟩ := h
      · exact absurd hv (h v rfl)
      · cases hw
        exact absurd h (not_low_of_high hu)
    | 1 =>
      obtain ⟨w, hw, ⟨h, -⟩ | ⟨-, h⟩⟩ := h
      · cases hw
        exact absurd h hv'
      · exact absurd hu (h 0 u rfl rfl)
    | k + 2 =>
      obtain ⟨w, hw, h⟩ := h
      refine ⟨k, w, hw, h.imp_right fun h => ⟨h.1, ?_⟩⟩
      rintro j x rfl hx
      exact h.2 (j + 2) x rfl hx
  · rintro ⟨k, w, hw, h⟩
    refine ⟨k + 2, w, hw, h.imp_right fun h => ⟨h.1, ?_⟩⟩
    rintro j x hj hx
    obtain rfl : k + 1 = j := Nat.succ.inj hj
    cases k with
    | zero =>
      cases hx
      exact hv'
    | succ k => exact h.2 k x rfl hx

/-- Pairing leaves an error for each unpaired surrogate, and for nothing else. -/
theorem error_mem_pairUnitsAfter (items : List (Except UInt16 Char)) (us : List UInt16) :
    (∃ u, .error u ∈ pairUnitsAfter items us) ↔
      (∃ u, .error u ∈ items) ∨ ∃ k, UnpairedAt us k := by
  fun_induction pairUnitsAfter items us with
  | case1 items => simp [UnpairedAt]
  | case2 items u hu ih =>
    refine ih.trans (iff_of_true (.inl ⟨u, by simp⟩) (.inr ⟨0, u, rfl, .inl ⟨hu, by simp⟩⟩))
  | case3 items u hu v rest hv ih =>
    rw [ih, exists_unpairedAt_pair hu hv]
    simp
  | case4 items u hu v rest hv ih =>
    refine ih.trans (iff_of_true (.inl ⟨u, by simp⟩) (.inr ⟨0, u, rfl, .inl ⟨hu, ?_⟩⟩))
    simpa using hv
  | case5 items u rest hu hl ih =>
    refine ih.trans (iff_of_true (.inl ⟨u, by simp⟩) (.inr ?_))
    exact (exists_unpairedAt_cons hu rest).2 (.inl hl)
  | case6 items u rest hu hl ih =>
    rw [ih, exists_unpairedAt_cons hu]
    simp [hl]

theorem mapM_toOption_eq_none {ε α : Type} {items : List (Except ε α)} :
    items.mapM Except.toOption = none ↔ ∃ e, .error e ∈ items := by
  induction items with
  | nil => simp
  | cons item items ih =>
    cases item with
    | error e => simp [Except.toOption]
    | ok a =>
      rw [Option.eq_none_iff_forall_ne_some] at ih
      simpa [Except.toOption] using ih

/-- Units have no text exactly if one of them is an unpaired surrogate. -/
theorem ofUnits?_eq_none_iff {us : List UInt16} : ofUnits? us = none ↔ ∃ k, UnpairedAt us k := by
  unfold ofUnits? pairUnits
  rw [Option.map_eq_none_iff, mapM_toOption_eq_none, error_mem_pairUnitsAfter]
  simp

/-! ## Modified UTF-8 by characters -/

/-- Reads modified UTF-8 character by character: a high surrogate with a low one behind it is one
character, and no other surrogate is accepted. The characters read so far stand in reverse. -/
def decodeCharsAfter (found : List Char) : Bytes → Option (List Char)
  | [] => some found.reverse
  | a :: rest =>
    if 1 ≤ a.toNat ∧ a.toNat ≤ 0x7F then decodeCharsAfter (Char.ofNat a.toNat :: found) rest
    else if 0xC0 ≤ a.toNat ∧ a.toNat ≤ 0xDF then
      match rest with
      | b :: rest =>
        match twoByteUnit? a b with
        | some u => decodeCharsAfter (Char.ofNat u.toNat :: found) rest
        | none => none
      | [] => none
    else if 0xE0 ≤ a.toNat ∧ a.toNat ≤ 0xEF then
      match rest with
      | b :: c :: rest =>
        match threeByteUnit? a b c with
        | some u =>
          if isHighSurrogate u then
            match rest with
            | d :: e :: f :: rest =>
              if d.toNat = 0xED then
                match threeByteUnit? d e f with
                | some v =>
                  if isLowSurrogate v then decodeCharsAfter (pairChar u v :: found) rest else none
                | none => none
              else none
            | _ => none
          else if isLowSurrogate u then none
          else decodeCharsAfter (Char.ofNat u.toNat :: found) rest
        | none => none
      | _ => none
    else none

def decodeChars (bytes : Bytes) : Option String :=
  (decodeCharsAfter [] bytes).map String.ofList

theorem twoByteUnit?_lt {a b : UInt8} {u : UInt16} (ha : a.toNat ≤ 0xDF)
    (h : twoByteUnit? a b = some u) : u.toNat < 0x800 := by
  unfold twoByteUnit? at h
  obtain ⟨low, hlow, hu⟩ := Option.bind_eq_some_iff.1 h
  obtain ⟨-, hl⟩ := continuation?_eq_some hlow
  dsimp only at hu
  split at hu
  · obtain rfl := Option.some.inj hu
    rw [toNat_unit (by omega)]
    omega
  · cases hu

theorem charUnits_of_lt {u : UInt16} (h : u.toNat < 0xD800) :
    charUnits (Char.ofNat u.toNat) = [u] := by
  apply charUnits_ofNat
  · rw [isHighSurrogate_iff]
    omega
  · rw [isLowSurrogate_iff]
    omega

theorem encodeUnits_of_decodeCharsAfter {found cs : List Char} {bytes : Bytes}
    (h : decodeCharsAfter found bytes = some cs) :
    ∃ ds, cs = found.reverse ++ ds ∧ encodeUnits (ds.flatMap charUnits) = bytes := by
  fun_induction decodeCharsAfter found bytes with
  | case1 found => exact ⟨[], by simpa using h.symm, rfl⟩
  | case2 found a rest ha ih =>
    obtain ⟨ds, rfl, rfl⟩ := ih h
    refine ⟨Char.ofNat a.toNat :: ds, by simp, ?_⟩
    have hu : charUnits (Char.ofNat a.toUInt16.toNat) = [a.toUInt16] :=
      charUnits_of_lt (by rw [UInt8.toNat_toUInt16]; omega)
    rw [UInt8.toNat_toUInt16] at hu
    rw [List.flatMap_cons, hu, List.singleton_append, encodeUnits_cons]
    simp only [encodeUnit, UInt8.toNat_toUInt16, ha, and_self, ↓reduceIte, UInt8.ofNat_toNat]
    rfl
  | case3 found a _ ha b rest u hu ih =>
    obtain ⟨ds, rfl, rfl⟩ := ih h
    refine ⟨Char.ofNat u.toNat :: ds, by simp, ?_⟩
    have hlt := twoByteUnit?_lt ha.2 hu
    rw [List.flatMap_cons, charUnits_of_lt (by omega), List.singleton_append, encodeUnits_cons,
      encodeUnit_of_twoByteUnit? ha hu]
    rfl
  | case6 found a _ _ ha b c u hu hhigh d e f rest hd v hv hlow ih =>
    obtain ⟨ds, rfl, rfl⟩ := ih h
    refine ⟨pairChar u v :: ds, by simp, ?_⟩
    rw [List.flatMap_cons, charUnits_pairChar hhigh hlow, List.cons_append, List.singleton_append,
      encodeUnits_cons, encodeUnits_cons, encodeUnit_of_threeByteUnit? ha hu,
      encodeUnit_of_threeByteUnit? (by omega) hv]
    rfl
  | case12 found a _ _ ha b c rest u hu hhigh hlow ih =>
    obtain ⟨ds, rfl, rfl⟩ := ih h
    refine ⟨Char.ofNat u.toNat :: ds, by simp, ?_⟩
    rw [List.flatMap_cons, charUnits_ofNat hhigh hlow, List.singleton_append, encodeUnits_cons,
      encodeUnit_of_threeByteUnit? ha hu]
    rfl
  | _ => cases h

/-- A unit that is no surrogate is read as a character of its own. -/
theorem decodeCharsAfter_encodeUnit {u : UInt16} (hhigh : ¬isHighSurrogate u)
    (hlow : ¬isLowSurrogate u) (found : List Char) (rest : Bytes) :
    decodeCharsAfter found (encodeUnit u ++ rest) =
      decodeCharsAfter (Char.ofNat u.toNat :: found) rest := by
  have hu := u.toNat_lt
  simp only [encodeUnit]
  split
  · rename_i h
    rw [List.singleton_append, decodeCharsAfter.eq_def]
    simp only [toNat_byte (show u.toNat < 0x100 by omega), h, and_self, ↓reduceIte]
  · split
    · have ht := twoByteUnit?_encode (u := u.toNat) (by omega) (by omega)
      rw [UInt16.ofNat_toNat] at ht
      rw [List.cons_append, List.singleton_append, decodeCharsAfter.eq_def]
      simp only [toNat_byte (show 0xC0 + u.toNat / 64 < 0x100 by omega), ht]
      rw [if_neg (by omega), if_pos (by omega)]
    · have ht := threeByteUnit?_encode (u := u.toNat) (by omega) (by omega)
      rw [UInt16.ofNat_toNat] at ht
      rw [List.cons_append, List.cons_append, List.singleton_append, decodeCharsAfter.eq_def]
      simp only [toNat_byte (show 0xE0 + u.toNat / 4096 < 0x100 by omega), ht, hhigh, hlow,
        Bool.false_eq_true, ↓reduceIte]
      rw [if_neg (by omega), if_neg (by omega), if_pos (by omega)]

theorem encodeUnit_of_ge {u : UInt16} (h : 0x800 ≤ u.toNat) :
    encodeUnit u = [UInt8.ofNat (0xE0 + u.toNat / 4096), UInt8.ofNat (0x80 + u.toNat / 64 % 64),
      UInt8.ofNat (0x80 + u.toNat % 64)] := by
  simp only [encodeUnit]
  rw [if_neg (by omega), if_neg (by omega)]

/-- Two surrogates that belong together are read as one character. -/
theorem decodeCharsAfter_pair {u v : UInt16} (hu : isHighSurrogate u) (hv : isLowSurrogate v)
    (found : List Char) (rest : Bytes) :
    decodeCharsAfter found (encodeUnit u ++ (encodeUnit v ++ rest)) =
      decodeCharsAfter (pairChar u v :: found) rest := by
  obtain ⟨hu1, hu2⟩ := isHighSurrogate_iff.1 hu
  obtain ⟨hv1, hv2⟩ := isLowSurrogate_iff.1 hv
  have tu := threeByteUnit?_encode (u := u.toNat) (by omega) (by omega)
  have tv := threeByteUnit?_encode (u := v.toNat) (by omega) (by omega)
  have hd : (UInt8.ofNat (0xE0 + v.toNat / 4096)).toNat = 0xED := by
    rw [toNat_byte (by omega)]
    omega
  rw [UInt16.ofNat_toNat] at tu tv
  rw [encodeUnit_of_ge (by omega), encodeUnit_of_ge (u := v) (by omega)]
  simp only [List.cons_append, List.nil_append]
  rw [decodeCharsAfter.eq_def]
  simp only [toNat_byte (show 0xE0 + u.toNat / 4096 < 0x100 by omega), tu, tv, hu, hv, hd,
    ↓reduceIte]
  rw [if_neg (by omega), if_neg (by omega), if_pos (by omega)]

/-- A character takes one unit, which is no surrogate, or the two surrogates of a pair. -/
theorem charUnits_cases (c : Char) :
    (∃ u, charUnits c = [u] ∧ ¬isHighSurrogate u ∧ ¬isLowSurrogate u ∧ c = Char.ofNat u.toNat) ∨
      ∃ u v, charUnits c = [u, v] ∧ isHighSurrogate u ∧ isLowSurrogate v ∧ c = pairChar u v := by
  have hc := toNat_valid c
  unfold charUnits
  split
  · rename_i h
    refine .inl ⟨_, rfl, ?_⟩
    rw [isHighSurrogate_iff, isLowSurrogate_iff, toNat_unit h, Char.ofNat_toNat]
    exact ⟨by omega, by omega, rfl⟩
  · generalize hn : c.toNat - 0x10000 = n
    refine .inr ⟨_, _, rfl, ?_⟩
    rw [isHighSurrogate_iff, isLowSurrogate_iff, pairChar, toNat_unit (by omega),
      toNat_unit (by omega)]
    refine ⟨by omega, by omega, ?_⟩
    rw [show 0x10000 + (0xD800 + n / 1024 - 0xD800) * 1024 + (0xDC00 + n % 1024 - 0xDC00) =
      c.toNat by omega, Char.ofNat_toNat]

theorem decodeCharsAfter_charUnits (c : Char) (found : List Char) (rest : Bytes) :
    decodeCharsAfter found (encodeUnits (charUnits c) ++ rest) =
      decodeCharsAfter (c :: found) rest := by
  rcases charUnits_cases c with ⟨u, hc, hhigh, hlow, e⟩ | ⟨u, v, hc, hu, hv, e⟩
  · rw [hc, e, ← decodeCharsAfter_encodeUnit hhigh hlow]
    simp [encodeUnits]
  · rw [hc, e, ← decodeCharsAfter_pair hu hv]
    simp [encodeUnits]

theorem decodeCharsAfter_encode (cs found : List Char) :
    decodeCharsAfter found (encodeUnits (cs.flatMap charUnits)) = some (found.reverse ++ cs) := by
  induction cs generalizing found with
  | nil => simp [encodeUnits, decodeCharsAfter]
  | cons c cs ih =>
    rw [List.flatMap_cons, encodeUnits, List.flatMap_append, ← encodeUnits, ← encodeUnits,
      decodeCharsAfter_charUnits, ih]
    simp

/-- By characters, exactly the modified UTF-8 of texts is accepted. -/
theorem decodeChars_eq_some_iff {bytes : Bytes} {s : String} :
    decodeChars bytes = some s ↔ bytes = encode s := by
  unfold decodeChars
  constructor
  · intro h
    obtain ⟨cs, hcs, rfl⟩ := Option.map_eq_some_iff.1 h
    obtain ⟨ds, rfl, rfl⟩ := encodeUnits_of_decodeCharsAfter hcs
    simp [encode, units]
  · rintro rfl
    rw [encode, units, decodeCharsAfter_encode]
    simp

end Text

namespace Constant

/-- Text from its stored bytes, by three readings in turn: standard UTF-8, modified UTF-8 by
characters, modified UTF-8 by units. Units come to text only if the text is written as the same
bytes. -/
def inTurn? (bytes : Bytes) : Option Constant :=
  match String.fromUTF8? bytes.toByteArray with
  | some s => some (utf8 s)
  | none =>
    match Text.decodeChars bytes with
    | some s => some (utf8 s)
    | none => do
      let us ← Text.decodeUnits bytes
      match Text.ofUnits? us with
      | some s => if Text.encode s = bytes then some (utf8 s) else some (utf8Unpaired us)
      | none => some (utf8Unpaired us)

/-- Reading units at once finds what the three readings find in turn. -/
theorem ofTextBytes?_eq_inTurn? (bytes : Bytes) : ofTextBytes? bytes = inTurn? bytes := by
  unfold inTurn?
  cases hf : String.fromUTF8? bytes.toByteArray with
  | some s =>
    exact ofTextBytes?_eq_some_iff.2 (.inl ⟨s, rfl, .inr (Text.fromUTF8?_eq_some_iff.1 hf)⟩)
  | none =>
    cases hc : Text.decodeChars bytes with
    | some s =>
      exact ofTextBytes?_eq_some_iff.2 (.inl ⟨s, rfl, .inl (Text.decodeChars_eq_some_iff.1 hc)⟩)
    | none =>
      unfold ofTextBytes?
      rw [hf]
      refine Option.bind_congr fun us hus => ?_
      cases hs : Text.ofUnits? us with
      | none => rfl
      | some s =>
        refine (if_pos ?_).symm
        rw [Text.encode, ← Text.units_of_ofUnits? hs, Text.encodeUnits_of_decodeUnits hus]

open Reader in
/-- The bytes behind tag and length of a text entry decide how it is read. -/
theorem runOn_read_text (index : UInt16) {bytes : Bytes} (hb : bytes.length ≤ 65535) :
    (read index).runOn (1 :: (Bytes.ofCount bytes.length ++ bytes)) =
      match ofTextBytes? bytes with
      | some c => .ok c
      | none => .error (.malformedConstant index .invalidText) := by
  have h1 : u8 (.start (1 :: (Bytes.ofCount bytes.length ++ bytes)) .off) =
      .ok 1 ⟨Bytes.ofCount bytes.length ++ bytes, 1, .off⟩ := rfl
  have h2 : u16 ⟨Bytes.ofCount bytes.length ++ bytes, 1, .off⟩ =
      .ok (UInt16.ofNat bytes.length) ⟨bytes, 3, .off⟩ := reads_u16.run rfl bytes 1
  have h3 : take (UInt16.ofNat bytes.length).toNat ⟨bytes, 3, .off⟩ =
      .ok bytes ⟨[], 3 + bytes.length, .off⟩ := by
    rw [toNat_unit (by omega)]
    simpa using (reads_take bytes.length).run ⟨rfl, rfl⟩ [] 3
  have hrun : read index (.start (1 :: (Bytes.ofCount bytes.length ++ bytes)) .off) =
      (match ofTextBytes? bytes with
        | some c => pure c
        | none => throw (.malformedConstant index .invalidText) : Reader Constant)
      ⟨[], 3 + bytes.length, .off⟩ := (bind_run h1).trans ((bind_run h2).trans (bind_run h3))
  unfold runOn
  rw [hrun]
  cases ofTextBytes? bytes <;> rfl

/-- A text entry with these bytes is read as `c`. -/
def ReadFrom (c : Constant) (bytes : Bytes) : Prop :=
  bytes.length ≤ 65535 ∧
    ∃ index, (read index).runOn (1 :: (Bytes.ofCount bytes.length ++ bytes)) = .ok c

theorem readFrom_iff {c : Constant} {bytes : Bytes} :
    c.ReadFrom bytes ↔ bytes.length ≤ 65535 ∧ ofTextBytes? bytes = some c := by
  unfold ReadFrom
  refine and_congr_right fun hb => ?_
  simp only [runOn_read_text _ hb]
  cases ofTextBytes? bytes <;> simp

/-- What is read from a text entry is text that it has in one of the two forms of UTF-8, or its
units. It is written as it was read, but for standard UTF-8 with a zero byte or a sequence of four
bytes. Units are kept only with an unpaired surrogate among them, and entries that are written
alike are the same. -/
theorem readFrom_classified {c : Constant} {bytes : Bytes} (h : c.ReadFrom bytes) :
    inTurn? bytes = some c ∧
      ((∃ s, c = utf8 s ∧ (Text.encode s = bytes ↔
          ¬((String.fromUTF8? bytes.toByteArray).isSome = true ∧ ∃ b ∈ bytes, Text.IsForeign b))) ∨
        ∃ us, c = utf8Unpaired us ∧ (∃ k, Text.UnpairedAt us k) ∧ Text.ofUnits? us = none ∧
          Text.encodeUnits us = bytes) ∧
      (∀ s, c ≠ utf8Unpaired (Text.units s)) ∧
      ∀ d bytes', d.ReadFrom bytes' → d.textForm? = c.textForm? → d = c := by
  obtain ⟨-, hc⟩ := readFrom_iff.1 h
  refine ⟨(ofTextBytes?_eq_inTurn? bytes).symm.trans hc, ?_, ?_, ?_⟩
  · rcases ofTextBytes?_eq_some_iff.1 hc with ⟨s, rfl, -⟩ | ⟨us, rfl, hn, rfl⟩
    · refine .inl ⟨s, rfl, ?_⟩
      rw [← Pool.reencodes_iff hc]
      constructor
      · intro e
        exact ⟨_, hc, congrArg some e⟩
      · rintro ⟨d, hd, hform⟩
        cases hc.symm.trans hd
        exact Option.some.inj hform
    · exact .inr ⟨us, rfl, Text.ofUnits?_eq_none_iff.1 hn, hn, rfl⟩
  · rintro s rfl
    have hr := (textForm?_of_ofTextBytes? hc).choose_spec.2
    exact absurd ((Text.ofUnits?_units s).symm.trans hr) (by simp)
  · intro d bytes' hd e
    obtain ⟨-, hd⟩ := readFrom_iff.1 hd
    obtain ⟨u, hu, hr⟩ := textForm?_of_ofTextBytes? hc
    obtain ⟨v, hv, hr'⟩ := textForm?_of_ofTextBytes? hd
    -- the modified UTF-8 of an entry is read back as that entry
    have h1 := ofTextBytes?_textForm hu hr
    have h2 := ofTextBytes?_textForm (e.trans hu) hr'
    exact Option.some.inj (h2.symm.trans h1)

/-- A high surrogate alone, then a pair. -/
theorem readFrom_classified_unpaired :
    (utf8Unpaired [0xD800, 0xD800, 0xDC00]).ReadFrom
        [0xED, 0xA0, 0x80, 0xED, 0xA0, 0x80, 0xED, 0xB0, 0x80] ∧
      inTurn? [0xED, 0xA0, 0x80, 0xED, 0xA0, 0x80, 0xED, 0xB0, 0x80] =
        some (utf8Unpaired [0xD800, 0xD800, 0xDC00]) ∧
      ∀ s, utf8Unpaired [0xD800, 0xD800, 0xDC00] ≠ utf8Unpaired (Text.units s) := by
  have h : (utf8Unpaired [0xD800, 0xD800, 0xDC00]).ReadFrom
      [0xED, 0xA0, 0x80, 0xED, 0xA0, 0x80, 0xED, 0xB0, 0x80] :=
    readFrom_iff.2 ⟨by decide, ofTextBytes?_eq_some_iff.2 (.inr ⟨_, rfl, by decide, by decide⟩)⟩
  obtain ⟨hturn, -, hunits, -⟩ := readFrom_classified h
  exact ⟨h, hturn, hunits⟩

end Constant

end JvmClass
