import JvmClass.Proofs.Codec.TextEntries

/-!
# Pools are read back as they were written

Slots whose second slots stand where they belong (`Pool.SecondSlots`) are entries spread over
slots, and spread entries are what reading fills slots with. So a checked pool is read back from
what was written, whatever stands behind it (`Pool.decode_encode`), and only a text that is too
long can keep it from being written.
-/

namespace JvmClass.Pool

/-- Second slots stand right behind the entries that take two, and nowhere else. -/
def SecondSlots (slots : List Constant) : Prop :=
  ∀ k, slots[k]? = some .unusable ↔ ∃ j c, k = j + 1 ∧ slots[j]? = some c ∧ c.slots = 2

/-- Behind an entry that takes one slot, the slots start anew. -/
theorem SecondSlots.behind (front : List Constant) {rest : List Constant} {c : Constant}
    (h : SecondSlots (front ++ c :: rest)) (hc : c.slots ≠ 2) : SecondSlots rest := by
  have hat (k : Nat) : (front ++ c :: rest)[front.length + 1 + k]? = rest[k]? := by
    rw [List.getElem?_append_right (by omega),
      show front.length + 1 + k - front.length = k + 1 by omega, List.getElem?_cons_succ]
  intro k
  rw [← hat k, h]
  constructor
  · rintro ⟨j, d, hj, hd, h2⟩
    cases k with
    | zero =>
      obtain rfl : front.length = j := by omega
      rw [List.getElem?_append_right (Nat.le_refl _), Nat.sub_self] at hd
      cases hd
      exact absurd h2 hc
    | succ k =>
      obtain rfl : front.length + 1 + k = j := by omega
      exact ⟨k, d, rfl, (hat k).symm.trans hd, h2⟩
  · rintro ⟨j, d, rfl, hd, h2⟩
    exact ⟨front.length + 1 + j, d, rfl, (hat j).trans hd, h2⟩

theorem SecondSlots.exists_spread {slots : List Constant} (h : SecondSlots slots) :
    ∃ entries, slots = spread entries ∧ ∀ c ∈ entries, c.isUnusable = false := by
  -- an entry takes one slot or two, so the induction is on how many slots are left
  induction hn : slots.length using Nat.strongRecOn generalizing slots with
  | _ n ih =>
  cases slots with
  | nil => exact ⟨[], rfl, by simp⟩
  | cons c rest =>
    have hc : c.isUnusable = false := by
      cases c with
      | unusable =>
        obtain ⟨j, c, hj, -⟩ := (h 0).1 rfl
        omega
      | _ => rfl
    by_cases h2 : c.slots = 2
    · have hsecond := (h 1).2 ⟨0, c, rfl, rfl, h2⟩
      cases rest with
      | nil => cases hsecond
      | cons d rest =>
        obtain rfl : d = .unusable := Option.some.inj hsecond
        have hrest : SecondSlots rest := SecondSlots.behind [c] h (by decide)
        obtain ⟨entries, rfl, hall⟩ := ih rest.length (by simp at hn; omega) hrest rfl
        exact ⟨c :: entries, by simp [spread, h2], by simpa [hc] using hall⟩
    · have hrest : SecondSlots rest := SecondSlots.behind [] h h2
      obtain ⟨entries, rfl, hall⟩ := ih rest.length (by simp at hn; omega) hrest rfl
      exact ⟨c :: entries, by simp [spread, h2], by simpa [hc] using hall⟩

theorem secondSlots_spread {entries : List Constant} (h : ∀ c ∈ entries, c.isUnusable = false) :
    SecondSlots (spread entries) := by
  obtain ⟨hfirst, hsecond⟩ := spread_second h
  intro k
  cases k with
  | zero => simpa using hfirst
  | succ k => simpa using hsecond k

/-- Units are kept only where text cannot be. -/
def UnitsNeeded (p : Pool) : Prop :=
  ∀ us, .utf8Unpaired us ∈ p.slots.toList → ∃ k, Text.UnpairedAt us k

theorem mem_spread_of_mem {entries : List Constant} {c : Constant} (h : c ∈ entries) :
    c ∈ spread entries := by
  refine List.mem_flatMap.2 ⟨c, h, ?_⟩
  split <;> simp

theorem isReadable_of_secondSlots {p : Pool} (hsize : p.size ≤ 65534)
    (hslots : SecondSlots p.slots.toList) (hunits : p.UnitsNeeded) : p.IsReadable := by
  obtain ⟨entries, he, hall⟩ := hslots.exists_spread
  refine ⟨by omega, entries, he, fun c hc => ?_⟩
  cases c with
  | unusable => cases hall _ hc
  | utf8Unpaired us =>
    have hmem := mem_spread_of_mem hc
    rw [← he] at hmem
    exact Text.ofUnits?_eq_none_iff.2 (hunits us hmem)
  | _ => trivial

/-- A checked pool is read off its spelling, and counts the bytes of it. -/
theorem decode_of_spells {p : Pool} {texts : List Bytes} {used : Bytes} (h : p.Spells texts used)
    (hvalid : p.validate = .ok ()) (rest : Bytes) :
    decode (used ++ rest) = .ok (p, used.length) := by
  refine Reader.runOn_eq_ok.2 ⟨⟨rest, used.length, .off⟩, ?_⟩
  have hread := reads_read.run ⟨texts, h⟩ rest 0
  rw [Nat.zero_add] at hread
  refine (bind_run hread).trans ?_
  exact bind_run (ofExcept_eq_ok.2 ⟨hvalid, rfl⟩)

/-- A checked pool is read back from what was written, with any bytes behind it, and it is written
unless one of its texts is too long. -/
theorem decode_encode {p : Pool} (hsize : p.size ≤ 65534) (hslots : SecondSlots p.slots.toList)
    (hvalid : p.validate = .ok ()) (hunits : p.UnitsNeeded) :
    (∀ out, p.encode = .ok out → ∀ rest, decode (out ++ rest) = .ok (p, out.length)) ∧
      ((∃ out, p.encode = .ok out) ↔ p.TextsFit) ∧
      ∀ e, p.encode = .error e → ∃ c ∈ p.slots.toList, ∃ form, c.textForm? = some form ∧
        65535 < form.length ∧ e = .textTooLong form.length := by
  refine ⟨fun out hout rest => ?_, encode_ok_iff, fun e he => ?_⟩
  · obtain ⟨texts, hs⟩ := spells_of_encode (isReadable_of_secondSlots hsize hslots hunits) hout
    exact decode_of_spells hs hvalid rest
  · obtain ⟨c, hc, form, hform, hlong, rfl⟩ := exists_of_encode_error he
    exact ⟨c, hc, form, hform, by omega, rfl⟩

/-- A long with its second slot, a text that needs its units, a NaN and a handle, among others. -/
def mixed : Pool :=
  ⟨(spread [.long 5, .utf8Unpaired [0xD800], .utf8 "\x00A", .classRef 4, .float 0x7FC00001,
    .nameAndType 3 4, .fieldRef 5 7, .methodHandle 1 8]).toArray⟩

def mixedBytes : Bytes :=
  [0, 10, 5, 0, 0, 0, 0, 0, 0, 0, 5, 1, 0, 3, 237, 160, 128, 1, 0, 3, 192, 128, 65, 7, 0, 4,
    4, 127, 192, 0, 1, 12, 0, 3, 0, 4, 9, 0, 5, 0, 7, 15, 1, 0, 8]

theorem decode_encode_mixed :
    mixed.size ≤ 65534 ∧ SecondSlots mixed.slots.toList ∧ mixed.validate = .ok () ∧
      mixed.UnitsNeeded ∧ mixed.encode = .ok mixedBytes ∧
      ∀ rest, decode (mixedBytes ++ rest) = .ok (mixed, 45) := by
  have hsize : mixed.size ≤ 65534 := by decide
  have hslots : SecondSlots mixed.slots.toList := secondSlots_spread (by decide)
  have hvalid : mixed.validate = .ok () := by cbv
  have hunits : mixed.UnitsNeeded := by
    intro us hus
    obtain rfl : us = [0xD800] := by simpa [mixed, spread, Constant.slots] using hus
    exact ⟨0, _, rfl, .inl ⟨rfl, by simp⟩⟩
  have hencode : mixed.encode = .ok mixedBytes := by rfl
  exact ⟨hsize, hslots, hvalid, hunits, hencode,
    (decode_encode hsize hslots hvalid hunits).1 _ hencode⟩

end JvmClass.Pool
