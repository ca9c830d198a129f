import JvmClass.Constant

/-!
# Spellings of text

Text is read in two ways: bytes that are standard UTF-8 are taken as they are, all others have to
be modified UTF-8. `decodeUnits` and `encodeUnits` are inverse to each other, and so are `units`
and `ofUnits?`. The two ways meet in `ofTextBytes?_eq_some_iff`: a text in modified UTF-8 is read
back, whatever it holds, and the only other spelling of a text is its standard UTF-8. The two
spellings differ exactly if the text holds U+0000 or a character beyond U+FFFF.
-/

namespace JvmClass

theorem toNat_byte {n : Nat} (h : n < 0x100) : (UInt8.ofNat n).toNat = n := by
  rw [UInt8.toNat_ofNat', Nat.mod_eq_of_lt h]

theorem toNat_unit {n : Nat} (h : n < 0x10000) : (UInt16.ofNat n).toNat = n := by
  rw [UInt16.toNat_ofNat', Nat.mod_eq_of_lt h]

theorem byte_eq {n : Nat} {b : UInt8} (h : n = b.toNat) : UInt8.ofNat n = b := by
  rw [h, UInt8.ofNat_toNat]

theorem unit_eq {n : Nat} {u : UInt16} (h : n = u.toNat) : UInt16.ofNat n = u := by
  rw [h, UInt16.ofNat_toNat]

namespace Text

/-! ## Units and bytes -/

theorem encodeUnits_cons (u : UInt16) (us : List UInt16) :
    encodeUnits (u :: us) = encodeUnit u ++ encodeUnits us := by
  simp [encodeUnits]

theorem continuation?_byte {n : Nat} (h : n < 64) :
    continuation? (UInt8.ofNat (0x80 + n)) = some n := by
  unfold continuation?
  rw [toNat_byte (by omega), if_pos (by omega), Nat.add_sub_cancel_left]

theorem continuation?_eq_some {b : UInt8} {n : Nat} (h : continuation? b = some n) :
    b = UInt8.ofNat (0x80 + n) ∧ n < 64 := by
  unfold continuation? at h
  split at h
  · obtain rfl := Option.some.inj h
    exact ⟨(byte_eq (by omega)).symm, by omega⟩
  · cases h

theorem twoByteUnit?_encode {u : Nat} (h : u = 0 ∨ 0x80 ≤ u) (hu : u ≤ 0x7FF) :
    twoByteUnit? (UInt8.ofNat (0xC0 + u / 64)) (UInt8.ofNat (0x80 + u % 64)) =
      some (UInt16.ofNat u) := by
  unfold twoByteUnit?
  rw [continuation?_byte (Nat.mod_lt _ (by decide)), toNat_byte (by omega)]
  have e : (0xC0 + u / 64 - 0xC0) * 64 + u % 64 = u := by omega
  simp only [Option.bind_eq_bind, Option.bind_some, e, h, ↓reduceIte]

theorem threeByteUnit?_encode {u : Nat} (h : 0x800 ≤ u) (hu : u < 0x10000) :
    threeByteUnit? (UInt8.ofNat (0xE0 + u / 4096)) (UInt8.ofNat (0x80 + u / 64 % 64))
      (UInt8.ofNat (0x80 + u % 64)) = some (UInt16.ofNat u) := by
  unfold threeByteUnit?
  rw [continuation?_byte (Nat.mod_lt _ (by decide)), continuation?_byte (Nat.mod_lt _ (by decide)),
    toNat_byte (by omega)]
  have e : (0xE0 + u / 4096 - 0xE0) * 4096 + u / 64 % 64 * 64 + u % 64 = u := by omega
  simp only [Option.bind_eq_bind, Option.bind_some, e, h, ↓reduceIte]

theorem decodeUnitsAfter_encodeUnit (u : UInt16) (found : List UInt16) (rest : Bytes) :
    decodeUnitsAfter found (encodeUnit u ++ rest) = decodeUnitsAfter (u :: found) rest := by
  have hu := u.toNat_lt
  simp only [encodeUnit]
  split
  · rename_i h
    have hw : (UInt8.ofNat u.toNat).toUInt16 = u := by
      apply UInt16.toNat_inj.1
      rw [UInt8.toNat_toUInt16, toNat_byte (by omega)]
    rw [List.singleton_append, decodeUnitsAfter.eq_def]
    simp only [toNat_byte (show u.toNat < 0x100 by omega), h, and_self, ↓reduceIte, hw]
  · split
    · have ht := twoByteUnit?_encode (u := u.toNat) (by omega) (by omega)
      rw [UInt16.ofNat_toNat] at ht
      rw [List.cons_append, List.singleton_append, decodeUnitsAfter.eq_def]
      simp only [toNat_byte (show 0xC0 + u.toNat / 64 < 0x100 by omega), ht]
      rw [if_neg (by omega), if_pos (by omega)]
    · have ht := threeByteUnit?_encode (u := u.toNat) (by omega) (by omega)
      rw [UInt16.ofNat_toNat] at ht
      rw [List.cons_append, List.cons_append, List.singleton_append, decodeUnitsAfter.eq_def]
      simp only [toNat_byte (show 0xE0 + u.toNat / 4096 < 0x100 by omega), ht]
      rw [if_neg (by omega), if_neg (by omega), if_pos (by omega)]

theorem decodeUnitsAfter_encodeUnits (us found : List UInt16) :
    decodeUnitsAfter found (encodeUnits us) = some (found.reverse ++ us) := by
  induction us generalizing found with
  | nil => simp [encodeUnits, decodeUnitsAfter]
  | cons u us ih =>
    rw [encodeUnits_cons, decodeUnitsAfter_encodeUnit, ih]
    simp

theorem decodeUnits_encodeUnits (us : List UInt16) : decodeUnits (encodeUnits us) = some us := by
  unfold decodeUnits
  rw [decodeUnitsAfter_encodeUnits]
  rfl

theorem encodeUnits_injective {us vs : List UInt16} (h : encodeUnits us = encodeUnits vs) :
    us = vs := by
  have e := decodeUnits_encodeUnits us
  rw [h, decodeUnits_encodeUnits] at e
  exact (Option.some.inj e).symm

theorem encodeUnit_of_twoByteUnit? {a b : UInt8} {u : UInt16}
    (ha : 0xC0 ≤ a.toNat ∧ a.toNat ≤ 0xDF) (h : twoByteUnit? a b = some u) :
    encodeUnit u = [a, b] := by
  unfold twoByteUnit? at h
  obtain ⟨low, hlow, hu⟩ := Option.bind_eq_some_iff.1 h
  obtain ⟨rfl, hl⟩ := continuation?_eq_some hlow
  dsimp only at hu
  split at hu
  · obtain rfl := Option.some.inj hu
    simp only [encodeUnit]
    rw [toNat_unit (by omega), if_neg (by omega), if_pos (by omega), byte_eq (b := a) (by omega)]
    simp only [List.cons.injEq, true_and, and_true]
    rw [show ((a.toNat - 0xC0) * 64 + low) % 64 = low by omega]
  · cases hu

theorem encodeUnit_of_threeByteUnit? {a b c : UInt8} {u : UInt16}
    (ha : 0xE0 ≤ a.toNat ∧ a.toNat ≤ 0xEF) (h : threeByteUnit? a b c = some u) :
    encodeUnit u = [a, b, c] := by
  unfold threeByteUnit? at h
  obtain ⟨mid, hmid, h'⟩ := Option.bind_eq_some_iff.1 h
  obtain ⟨low, hlow, hu⟩ := Option.bind_eq_some_iff.1 h'
  obtain ⟨rfl, hm⟩ := continuation?_eq_some hmid
  obtain ⟨rfl, hl⟩ := continuation?_eq_some hlow
  dsimp only at hu
  split at hu
  · obtain rfl := Option.some.inj hu
    simp only [encodeUnit]
    rw [toNat_unit (by omega), if_neg (by omega), if_neg (by omega), byte_eq (b := a) (by omega)]
    simp only [List.cons.injEq, true_and, and_true]
    rw [show ((a.toNat - 0xE0) * 4096 + mid * 64 + low) / 64 % 64 = mid by omega,
      show ((a.toNat - 0xE0) * 4096 + mid * 64 + low) % 64 = low by omega]
    exact ⟨rfl, rfl⟩
  · cases hu

theorem encodeUnits_of_decodeUnitsAfter {found us : List UInt16} {bytes : Bytes}
    (h : decodeUnitsAfter found bytes = some us) :
    ∃ vs, us = found.reverse ++ vs ∧ encodeUnits vs = bytes := by
  fun_induction decodeUnitsAfter found bytes with
  | case1 found => exact ⟨[], by simpa using h.symm, rfl⟩
  | case2 found a rest ha ih =>
    obtain ⟨vs, rfl, rfl⟩ := ih h
    refine ⟨a.toUInt16 :: vs, by simp, ?_⟩
    rw [encodeUnits_cons]
    simp only [encodeUnit, UInt8.toNat_toUInt16, ha, and_self, ↓reduceIte, UInt8.ofNat_toNat]
    rfl
  | case3 found a _ ha b rest u hu ih =>
    obtain ⟨vs, rfl, rfl⟩ := ih h
    refine ⟨u :: vs, by simp, ?_⟩
    rw [encodeUnits_cons, encodeUnit_of_twoByteUnit? ha hu]
    rfl
  | case4 => cases h
  | case5 => cases h
  | case6 found a _ _ ha b c rest u hu ih =>
    obtain ⟨vs, rfl, rfl⟩ := ih h
    refine ⟨u :: vs, by simp, ?_⟩
    rw [encodeUnits_cons, encodeUnit_of_threeByteUnit? ha hu]
    rfl
  | case7 => cases h
  | case8 => cases h
  | case9 => cases h

theorem encodeUnits_of_decodeUnits {us : List UInt16} {bytes : Bytes}
    (h : decodeUnits bytes = some us) : encodeUnits us = bytes := by
  obtain ⟨vs, rfl, e⟩ := encodeUnits_of_decodeUnitsAfter h
  exact e

/-! ## Characters and units -/

theorem toNat_valid (c : Char) :
    c.toNat < 0xD800 ∨ 0xE000 ≤ c.toNat ∧ c.toNat < 0x110000 := by
  have h := c.valid
  simp only [UInt32.isValidChar, Nat.isValidChar] at h
  show c.val.toNat < _ ∨ _ ≤ c.val.toNat ∧ c.val.toNat < _
  omega

theorem pairUnitsAfter_charUnits (c : Char) (items : List (Except UInt16 Char))
    (rest : List UInt16) :
    pairUnitsAfter items (charUnits c ++ rest) = pairUnitsAfter (.ok c :: items) rest := by
  have hc := toNat_valid c
  unfold charUnits
  split
  · rename_i h
    have hn := toNat_unit h
    rw [List.singleton_append, pairUnitsAfter.eq_def]
    simp only [isHighSurrogate, isLowSurrogate, hn]
    have h1 : ¬(0xD800 ≤ c.toNat ∧ c.toNat < 0xDC00) := by omega
    have h2 : ¬(0xDC00 ≤ c.toNat ∧ c.toNat < 0xE000) := by omega
    simp only [Bool.and_eq_true, decide_eq_true_eq, h1, h2, ↓reduceIte, Char.ofNat_toNat]
  · generalize hn : c.toNat - 0x10000 = n
    have hhi : (UInt16.ofNat (0xD800 + n / 1024)).toNat = 0xD800 + n / 1024 :=
      toNat_unit (by omega)
    have hlo : (UInt16.ofNat (0xDC00 + n % 1024)).toNat = 0xDC00 + n % 1024 :=
      toNat_unit (by omega)
    have hp : pairChar (UInt16.ofNat (0xD800 + n / 1024)) (UInt16.ofNat (0xDC00 + n % 1024)) =
        c := by
      unfold pairChar
      rw [hhi, hlo, show 0x10000 + (0xD800 + n / 1024 - 0xD800) * 1024 +
        (0xDC00 + n % 1024 - 0xDC00) = c.toNat by omega, Char.ofNat_toNat]
    dsimp only
    rw [List.cons_append, List.singleton_append, pairUnitsAfter.eq_def]
    simp only [isHighSurrogate, isLowSurrogate, hhi, hlo, hp]
    rw [if_pos (by simp; omega), if_pos (by simp; omega)]

theorem pairUnitsAfter_flatMap_charUnits (cs : List Char) (items : List (Except UInt16 Char)) :
    pairUnitsAfter items (cs.flatMap charUnits) = items.reverse ++ cs.map .ok := by
  induction cs generalizing items with
  | nil => simp [pairUnitsAfter]
  | cons c cs ih => simp [pairUnitsAfter_charUnits, ih]

theorem ofUnits?_units (s : String) : ofUnits? (units s) = some s := by
  have h (cs : List Char) : (cs.map (Except.ok (ε := UInt16))).mapM Except.toOption = some cs := by
    induction cs with
    | nil => rfl
    | cons c cs ih => simp [ih, Except.toOption]
  unfold ofUnits? pairUnits units
  rw [pairUnitsAfter_flatMap_charUnits, List.reverse_nil, List.nil_append, h]
  simp

theorem toNat_char {n : Nat} (h : n.isValidChar) : (Char.ofNat n).toNat = n := by
  unfold Char.ofNat
  rw [dif_pos h]
  rfl

theorem charUnits_ofNat {u : UInt16} (h1 : ¬ isHighSurrogate u) (h2 : ¬ isLowSurrogate u) :
    charUnits (Char.ofNat u.toNat) = [u] := by
  have hu := u.toNat_lt
  simp only [isHighSurrogate, isLowSurrogate, Bool.and_eq_true, decide_eq_true_eq] at h1 h2
  unfold charUnits
  rw [toNat_char (by unfold Nat.isValidChar; omega), if_pos hu, UInt16.ofNat_toNat]

theorem charUnits_pairChar {u v : UInt16} (h1 : isHighSurrogate u) (h2 : isLowSurrogate v) :
    charUnits (pairChar u v) = [u, v] := by
  simp only [isHighSurrogate, isLowSurrogate, Bool.and_eq_true, decide_eq_true_eq] at h1 h2
  unfold charUnits pairChar
  rw [toNat_char (by unfold Nat.isValidChar; omega), if_neg (by omega)]
  dsimp only
  rw [unit_eq (u := u) (by omega), unit_eq (u := v) (by omega)]

/-- A character in front of a list comes last in its reverse. -/
theorem mapM_toOption_reverse_cons {items : List (Except UInt16 Char)} {c : Char} {cs : List Char}
    (h : (.ok c :: items).reverse.mapM Except.toOption = some cs) :
    ∃ as, items.reverse.mapM Except.toOption = some as ∧ cs = as ++ [c] := by
  simp only [List.reverse_cons, List.mapM_append, Option.bind_eq_bind,
    Option.bind_eq_some_iff] at h
  obtain ⟨as, has, _, hlast, hcs⟩ := h
  obtain rfl := Option.some.inj hlast
  exact ⟨as, has, (Option.some.inj hcs).symm⟩

theorem charUnits_of_pairUnitsAfter {items : List (Except UInt16 Char)}
    {us : List UInt16} {cs : List Char}
    (h : (pairUnitsAfter items us).mapM Except.toOption = some cs) :
    ∃ as bs, items.reverse.mapM Except.toOption = some as ∧ cs = as ++ bs ∧
      us = bs.flatMap charUnits := by
  fun_induction pairUnitsAfter items us generalizing cs with
  | case1 items => exact ⟨cs, [], h, by simp, rfl⟩
  | case2 items u hu ih =>
    obtain ⟨as, bs, h1, rfl, h2⟩ := ih h
    simp [Except.toOption] at h1
  | case3 items u hu v rest hv ih =>
    obtain ⟨as, bs, h1, rfl, rfl⟩ := ih h
    obtain ⟨as, has, rfl⟩ := mapM_toOption_reverse_cons h1
    exact ⟨as, pairChar u v :: bs, has, by simp, by simp [charUnits_pairChar hu hv]⟩
  | case4 items u hu v rest hv ih =>
    obtain ⟨as, bs, h1, rfl, h2⟩ := ih h
    simp [Except.toOption] at h1
  | case5 items u rest hu hv ih =>
    obtain ⟨as, bs, h1, rfl, h2⟩ := ih h
    simp [Except.toOption] at h1
  | case6 items u rest hu hv ih =>
    obtain ⟨as, bs, h1, rfl, rfl⟩ := ih h
    obtain ⟨as, has, rfl⟩ := mapM_toOption_reverse_cons h1
    exact ⟨as, Char.ofNat u.toNat :: bs, has, by simp, by simp [charUnits_ofNat hu hv]⟩

theorem units_of_ofUnits? {us : List UInt16} {s : String} (h : ofUnits? us = some s) :
    us = units s := by
  unfold ofUnits? pairUnits at h
  obtain ⟨cs, hcs, rfl⟩ := Option.map_eq_some_iff.1 h
  obtain ⟨as, bs, ha, rfl, rfl⟩ := charUnits_of_pairUnitsAfter hcs
  obtain rfl : [] = as := Option.some.inj ha
  simp [units]

/-! ## Standard UTF-8 -/

/-- The standard UTF-8 form of a text. -/
def utf8 (s : String) : Bytes := s.toList.flatMap String.utf8EncodeChar

theorem toByteArray_utf8 (s : String) : (utf8 s).toByteArray = s.toByteArray := by
  have h : s.toByteArray = s.toList.utf8Encode := by simp
  rw [h]; rfl

theorem fromUTF8?_eq_some_iff {bytes : Bytes} {s : String} :
    String.fromUTF8? bytes.toByteArray = some s ↔ bytes = utf8 s := by
  unfold String.fromUTF8?
  constructor
  · intro h
    split at h
    · rename_i hv
      have e := congrArg String.toByteArray (Option.some.inj h)
      rw [← toByteArray_utf8 s] at e
      exact (by simpa [String.fromUTF8] using congrArg (fun b => b.data.toList) e)
    · cases h
  · rintro rfl
    have hv : (utf8 s).toByteArray.IsValidUTF8 := by
      rw [toByteArray_utf8]; exact s.isValidUTF8
    rw [dif_pos hv]
    exact congrArg some (String.toByteArray_inj.1 (toByteArray_utf8 s))

theorem fromUTF8?_utf8 (s : String) : String.fromUTF8? (utf8 s).toByteArray = some s :=
  fromUTF8?_eq_some_iff.2 rfl

/-- Characters that both forms of UTF-8 spell alike. -/
def IsPlain (c : Char) : Prop := 1 ≤ c.toNat ∧ c.toNat < 0x10000

instance (c : Char) : Decidable (IsPlain c) := inferInstanceAs (Decidable (_ ∧ _))

theorem utf8EncodeChar_of_isPlain {c : Char} (h : IsPlain c) :
    String.utf8EncodeChar c = encodeUnit (UInt16.ofNat c.toNat) := by
  obtain ⟨h1, h2⟩ := h
  have e : c.val.toNat = c.toNat := rfl
  simp only [String.utf8EncodeChar, encodeUnit, e, toNat_unit h2]
  by_cases h3 : c.toNat ≤ 0x7F
  · rw [if_pos h3, if_pos ⟨h1, h3⟩]
  · simp only [h3, and_false, ↓reduceIte]
    by_cases h4 : c.toNat ≤ 0x7FF
    · simp only [h4, ↓reduceIte]
      rw [show c.toNat / 64 % 0x20 + 0xC0 = 0xC0 + c.toNat / 64 by omega,
        Nat.add_comm (c.toNat % 0x40)]
    · simp only [h4, show c.toNat ≤ 0xFFFF by omega, ↓reduceIte]
      rw [show c.toNat / 4096 % 0x10 + 0xE0 = 0xE0 + c.toNat / 4096 by omega,
        Nat.add_comm (c.toNat / 64 % 0x40), Nat.add_comm (c.toNat % 0x40)]

theorem charUnits_of_isPlain {c : Char} (h : IsPlain c) : charUnits c = [UInt16.ofNat c.toNat] := by
  unfold charUnits
  rw [if_pos h.2]

theorem encodeUnits_charUnits {c : Char} (h : IsPlain c) :
    encodeUnits (charUnits c) = String.utf8EncodeChar c := by
  rw [charUnits_of_isPlain h, utf8EncodeChar_of_isPlain h]
  simp [encodeUnits]

/-- A byte that modified UTF-8 never holds: U+0000 as it is, or the first of four bytes. -/
def IsForeign (b : UInt8) : Prop := b = 0 ∨ 0xF0 ≤ b.toNat

theorem utf8EncodeChar_of_not_isPlain {c : Char} (h : ¬IsPlain c) :
    ∃ b rest, String.utf8EncodeChar c = b :: rest ∧ IsForeign b := by
  have e : c.val.toNat = c.toNat := rfl
  unfold IsPlain at h
  simp only [String.utf8EncodeChar, e]
  by_cases h0 : c.toNat = 0
  · rw [if_pos (by omega)]
    exact ⟨_, _, rfl, .inl (by rw [h0]; rfl)⟩
  · rw [if_neg (by omega), if_neg (by omega), if_neg (by omega)]
    refine ⟨_, _, rfl, .inr ?_⟩
    rw [toNat_byte (by omega)]
    omega

theorem decodeUnitsAfter_of_isForeign {b : UInt8} (h : IsForeign b) (found : List UInt16)
    (rest : Bytes) : decodeUnitsAfter found (b :: rest) = none := by
  have hb : b.toNat = 0 ∨ 0xF0 ≤ b.toNat := by
    rcases h with rfl | h
    · exact .inl rfl
    · exact .inr h
  rw [decodeUnitsAfter.eq_def]
  dsimp only
  rw [if_neg (by omega), if_neg (by omega), if_neg (by omega)]

/-- Modified UTF-8 that is standard UTF-8 as well has the same meaning in both, and no character
that the two spell differently. -/
theorem units_of_encodeUnits_eq_utf8 {us : List UInt16} {s : String}
    (h : encodeUnits us = utf8 s) : us = units s ∧ ∀ c ∈ s.toList, IsPlain c := by
  unfold utf8 at h
  unfold units
  generalize s.toList = cs at h ⊢
  induction cs generalizing us with
  | nil =>
    refine ⟨?_, by simp⟩
    exact encodeUnits_injective (h.trans rfl)
  | cons c cs ih =>
    have hd := decodeUnits_encodeUnits us
    rw [h, List.flatMap_cons, decodeUnits] at hd
    by_cases hc : IsPlain c
    · rw [utf8EncodeChar_of_isPlain hc, decodeUnitsAfter_encodeUnit] at hd
      obtain ⟨vs, rfl, hvs⟩ := encodeUnits_of_decodeUnitsAfter hd
      obtain ⟨rfl, hp⟩ := ih hvs
      refine ⟨?_, by simpa [hc] using hp⟩
      rw [List.flatMap_cons, charUnits_of_isPlain hc]
      rfl
    · obtain ⟨b, rest, hb, hfirst⟩ := utf8EncodeChar_of_not_isPlain hc
      rw [hb, List.cons_append, decodeUnitsAfter_of_isForeign hfirst] at hd
      cases hd

theorem encode_eq_utf8_iff (s : String) : encode s = utf8 s ↔ ∀ c ∈ s.toList, IsPlain c := by
  constructor
  · exact fun h => (units_of_encodeUnits_eq_utf8 h).2
  · intro h
    unfold encode units utf8
    generalize s.toList = cs at h ⊢
    induction cs with
    | nil => rfl
    | cons c cs ih =>
      have hc : IsPlain c := h c (by simp)
      have e := ih fun d hd => h d (by simp [hd])
      simp only [List.flatMap_cons, encodeUnits, List.flatMap_append] at e ⊢
      rw [e]
      exact congrArg (· ++ _) (encodeUnits_charUnits hc)

theorem not_isForeign_of_mem_encodeUnit {u : UInt16} {b : UInt8} (h : b ∈ encodeUnit u) :
    ¬IsForeign b := by
  have hu := u.toNat_lt
  have key : 1 ≤ b.toNat ∧ b.toNat < 0xF0 := by
    simp only [encodeUnit] at h
    split at h
    · simp only [List.mem_singleton] at h
      rw [h, toNat_byte (by omega)]; omega
    · split at h
      · simp only [List.mem_cons, List.not_mem_nil, or_false] at h
        rcases h with rfl | rfl <;> rw [toNat_byte (by omega)] <;> omega
      · simp only [List.mem_cons, List.not_mem_nil, or_false] at h
        rcases h with rfl | rfl | rfl <;> rw [toNat_byte (by omega)] <;> omega
  rintro (rfl | h0)
  · exact absurd key.1 (by decide)
  · omega

theorem exists_isForeign_utf8_iff (s : String) :
    (∃ b ∈ utf8 s, IsForeign b) ↔ ∃ c ∈ s.toList, ¬IsPlain c := by
  unfold utf8
  constructor
  · rintro ⟨b, hb, hf⟩
    obtain ⟨c, hc, hbc⟩ := List.mem_flatMap.1 hb
    refine ⟨c, hc, fun hp => ?_⟩
    rw [utf8EncodeChar_of_isPlain hp] at hbc
    exact not_isForeign_of_mem_encodeUnit hbc hf
  · rintro ⟨c, hc, hp⟩
    obtain ⟨b, rest, hb, hf⟩ := utf8EncodeChar_of_not_isPlain hp
    exact ⟨b, List.mem_flatMap.2 ⟨c, hc, by simp [hb]⟩, hf⟩

end Text

namespace Constant

/-- What reading makes of the bytes of a text entry. -/
theorem ofTextBytes?_eq_some_iff {bytes : Bytes} {c : Constant} :
    ofTextBytes? bytes = some c ↔
      (∃ s, c = utf8 s ∧ (bytes = Text.encode s ∨ bytes = Text.utf8 s)) ∨
        ∃ us, c = utf8Unpaired us ∧ Text.ofUnits? us = none ∧ bytes = Text.encodeUnits us := by
  unfold ofTextBytes?
  constructor
  · intro h
    split at h
    · rename_i s hs
      cases h
      exact .inl ⟨s, rfl, .inr (Text.fromUTF8?_eq_some_iff.1 hs)⟩
    · obtain ⟨us, hus, h'⟩ := Option.bind_eq_some_iff.1 h
      have hb := Text.encodeUnits_of_decodeUnits hus
      split at h'
      · rename_i s hs
        cases h'
        refine .inl ⟨s, rfl, .inl ?_⟩
        rw [Text.encode, ← Text.units_of_ofUnits? hs, hb]
      · rename_i hs
        cases h'
        exact .inr ⟨us, rfl, hs, hb.symm⟩
  · rintro (⟨s, rfl, rfl | rfl⟩ | ⟨us, rfl, hn, rfl⟩)
    · split
      · rename_i t ht
        have e := Text.units_of_encodeUnits_eq_utf8 (Text.fromUTF8?_eq_some_iff.1 ht)
        have hst := Text.ofUnits?_units s
        rw [e.1, Text.ofUnits?_units] at hst
        rw [Option.some.inj hst]
      · simp only [Text.encode, Text.decodeUnits_encodeUnits, Option.bind_eq_bind,
          Option.bind_some, Text.ofUnits?_units]
    · rw [Text.fromUTF8?_utf8]
    · split
      · rename_i t ht
        have e := Text.units_of_encodeUnits_eq_utf8 (Text.fromUTF8?_eq_some_iff.1 ht)
        rw [e.1, Text.ofUnits?_units] at hn
        cases hn
      · simp only [Text.decodeUnits_encodeUnits, Option.bind_eq_bind, Option.bind_some, hn]

end Constant

end JvmClass
