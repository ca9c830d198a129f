import JvmClass.Code.Layout
import JvmClass.Proofs.Codec.Instruction

/-!
# Spellings of code

Code is a chain of spelled instructions, each at the offset where the one before it ends. Since
every spelling has the length of the encoding, the offsets are those of the layout: `decode`
accepts exactly the chains whose jumps land on them, and `reassemble` writes such a chain back,
unless it is too long, with the same offsets and with zeros for the free bytes.
-/

namespace JvmClass

theorem forM_eq_ok {ε α : Type} {f : α → Except ε Unit} {as : List α} :
    as.forM f = .ok () ↔ ∀ a ∈ as, f a = .ok () := by
  induction as with
  | nil => exact ⟨fun _ => by simp, fun _ => rfl⟩
  | cons a as ih =>
    show (f a >>= fun _ => as.forM f) = _ ↔ _
    rw [exceptBind_eq_ok, List.forall_mem_cons, ← ih]
    exact ⟨fun ⟨_, ha, has⟩ => ⟨ha, has⟩, fun ⟨ha, has⟩ => ⟨(), ha, has⟩⟩

namespace Code

open Instruction Reader

/-- The offsets of instructions placed from `offset` on. -/
def startsFrom : (offset : Nat) → List Instruction → List Nat
  | _, [] => []
  | offset, i :: rest => offset :: startsFrom (offset + i.encodedLength offset) rest

/-- The offset behind instructions placed from `offset` on. -/
def endFrom : (offset : Nat) → List Instruction → Nat
  | offset, [] => offset
  | offset, i :: rest => endFrom (offset + i.encodedLength offset) rest

/-- Encodes instructions placed from `offset` on. -/
def encodeFrom : (offset : Nat) → List Instruction → Except Error Bytes
  | _, [] => .ok []
  | offset, i :: rest => do
    return (← i.encode offset) ++ (← encodeFrom (offset + i.encodedLength offset) rest)

/-- `used` is read as `code` from `offset` on. -/
def SpellsFrom (p : Pool) : (offset : Nat) → List Instruction → Bytes → Prop
  | _, [], used => used = []
  | offset, i :: rest, used => ∃ u v, i.Spells p offset u ∧
    SpellsFrom p (offset + i.encodedLength offset) rest v ∧ used = u ++ v

/-- Every jump lands on one of the starts. -/
def TargetsIn (starts : List Nat) (code : List Instruction) : Prop :=
  ∀ i ∈ code, ∀ target ∈ i.targets, target.toNat ∈ starts

theorem length_startsFrom (offset : Nat) (code : List Instruction) :
    (startsFrom offset code).length = code.length := by
  induction code generalizing offset with
  | nil => rfl
  | cons i rest ih => simp [startsFrom, ih]

theorem le_endFrom (offset : Nat) (code : List Instruction) : offset ≤ endFrom offset code := by
  induction code generalizing offset with
  | nil => exact Nat.le_refl _
  | cons i rest ih => exact Nat.le_trans (Nat.le_add_right ..) (ih _)

theorem endFrom_le_mul (offset : Nat) (code : List Instruction) :
    endFrom offset code ≤ offset + 12 * (code.length + (code.flatMap targets).length) := by
  induction code generalizing offset with
  | nil => exact Nat.le_refl _
  | cons i rest ih =>
    have hfirst := encodedLength_le offset i
    have hrest := ih (offset + i.encodedLength offset)
    rw [List.length_cons, List.flatMap_cons, List.length_append]
    show endFrom (offset + i.encodedLength offset) rest ≤ _
    omega

theorem mem_startsFrom {offset n : Nat} {code : List Instruction} (h : n ∈ startsFrom offset code) :
    offset ≤ n ∧ n < endFrom offset code := by
  induction code generalizing offset with
  | nil => cases h
  | cons i rest ih =>
    have hpos := encodedLength_pos offset i
    have hle := le_endFrom (offset + i.encodedLength offset) rest
    rcases List.mem_cons.1 h with rfl | h
    · exact ⟨Nat.le_refl _, by unfold endFrom; omega⟩
    · obtain ⟨h1, h2⟩ := ih h
      exact ⟨by omega, h2⟩

/-- No two instructions start at one offset, and none where the code ends. -/
theorem nodup_starts (offset : Nat) (code : List Instruction) :
    (startsFrom offset code ++ [endFrom offset code]).Nodup := by
  induction code generalizing offset with
  | nil => simp [startsFrom]
  | cons i rest ih =>
    have hpos := encodedLength_pos offset i
    have hle := le_endFrom (offset + i.encodedLength offset) rest
    unfold startsFrom endFrom
    rw [List.cons_append, List.nodup_cons]
    refine ⟨fun h => ?_, ih _⟩
    rcases List.mem_append.1 h with h | h
    · have := (mem_startsFrom h).1
      omega
    · rw [List.mem_singleton] at h
      omega

/-! ## Decoding -/

theorem SpellsFrom.end_eq {p : Pool} {offset : Nat} {code : List Instruction} {used : Bytes}
    (h : SpellsFrom p offset code used) : endFrom offset code = offset + used.length := by
  induction code generalizing offset used with
  | nil =>
    obtain rfl := h
    rfl
  | cons i rest ih =>
    obtain ⟨u, v, hu, hv, rfl⟩ := h
    rw [endFrom, ih hv, List.length_append, hu.length_eq, Nat.add_assoc]

theorem spellsFrom_nil {p : Pool} {offset : Nat} {code : List Instruction} :
    SpellsFrom p offset code [] ↔ code = [] := by
  cases code with
  | nil => exact ⟨fun _ => rfl, fun _ => rfl⟩
  | cons i rest =>
    constructor
    · rintro ⟨u, v, hu, -, e⟩
      obtain ⟨rfl, -⟩ := List.append_eq_nil_iff.1 e.symm
      have hlen := hu.length_eq
      have hpos := encodedLength_pos offset i
      rw [List.length_nil] at hlen
      omega
    · intro h
      cases h

theorem readAll_eq_ok {p : Pool} {limit offset : Nat} {bytes : Bytes}
    {located l : List (Nat × Instruction)} {c : Cursor} (hl : bytes.length ≤ limit) :
    readAll p limit located ⟨bytes, offset, .off⟩ = .ok l c ↔
      ∃ code, SpellsFrom p offset code bytes ∧
        l = located.reverse ++ (startsFrom offset code).zip code ∧
        c = ⟨[], offset + bytes.length, .off⟩ := by
  have done (located : List (Nat × Instruction)) (offset : Nat) :
      EStateM.Result.ok located.reverse (⟨[], offset, .off⟩ : Cursor) =
      (.ok l c : EStateM.Result Error Cursor (List (Nat × Instruction))) ↔
      ∃ code, SpellsFrom p offset code [] ∧
        l = located.reverse ++ (startsFrom offset code).zip code ∧ c = ⟨[], offset, .off⟩ := by
    simp only [spellsFrom_nil, exists_eq_left, startsFrom, List.zip_nil_left, List.append_nil]
    rw [EStateM.Result.ok.injEq, eq_comm, @eq_comm _ c]
  induction limit generalizing offset bytes located with
  | zero =>
    obtain rfl := List.eq_nil_of_length_eq_zero (Nat.le_zero.1 hl)
    exact done located offset
  | succ limit ih =>
    unfold readAll
    dsimp only
    cases bytes with
    | nil => exact done located offset
    | cons b bs =>
      rw [if_neg (by simp)]
      constructor
      · intro h
        split at h
        · rename_i i rest hr
          obtain ⟨used, rest, hs, hb, rfl⟩ := (reads_read p offset _ _ _ _).1 hr
          have hlen := hs.length_eq
          have hpos := encodedLength_pos offset i
          have hle := congrArg List.length hb
          rw [List.length_append] at hle
          obtain ⟨code, hc, rfl, rfl⟩ := (ih (by omega)).1 h
          rw [hlen] at hc ⊢
          refine ⟨i :: code, ⟨used, rest, hs, hc, hb⟩, ?_, ?_⟩
          · simp [startsFrom]
          · rw [hle, hlen, Nat.add_assoc]
        · cases h
      · rintro ⟨code, hs, rfl, rfl⟩
        cases code with
        | nil => cases hs
        | cons i code =>
          obtain ⟨u, v, hu, hv, e⟩ := hs
          have hlen := hu.length_eq
          have hpos := encodedLength_pos offset i
          have hle := congrArg List.length e
          rw [List.length_append] at hle
          have hrun := (reads_read p offset).run hu v offset
          rw [← e, hlen] at hrun
          rw [hrun]
          refine (ih (by omega)).2 ⟨code, hv, ?_, ?_⟩
          · simp [startsFrom]
          · rw [hle, hlen, Nat.add_assoc]

theorem checkTargets_eq_ok {starts : List Nat} {located : List (Nat × Instruction)} :
    checkTargets (Std.HashSet.ofList starts) located = .ok () ↔
      TargetsIn starts (located.map Prod.snd) := by
  unfold checkTargets TargetsIn
  rw [forM_eq_ok, List.forall_mem_map]
  refine forall_congr' fun ⟨offset, i⟩ => imp_congr_right fun _ => ?_
  dsimp only
  split
  · rename_i target ht
    refine ⟨fun h => (nomatch h), fun h => ?_⟩
    have hn := List.find?_some ht
    have hm := h target (List.mem_of_find?_eq_some ht)
    simp_all
  · rename_i ht
    refine ⟨fun _ target hm => ?_, fun _ => rfl⟩
    have hn := List.find?_eq_none.1 ht target hm
    simpa using hn

theorem runOn_readAll {p : Pool} {bytes : Bytes} {located : List (Nat × Instruction)} :
    (readAll p bytes.length []).runOn bytes = .ok located ↔
      ∃ code, SpellsFrom p 0 code bytes ∧ located = (startsFrom 0 code).zip code := by
  unfold runOn Cursor.start
  constructor
  · intro h
    split at h
    · rename_i hread
      cases h
      obtain ⟨l, hs, hl, -⟩ := (readAll_eq_ok (Nat.le_refl _)).1 hread
      exact ⟨l, hs, hl⟩
    · cases h
  · rintro ⟨code, hs, rfl⟩
    have hread : readAll p bytes.length [] ⟨bytes, 0, .off⟩ = _ :=
      (readAll_eq_ok (Nat.le_refl _)).2 ⟨code, hs, rfl, rfl⟩
    rw [hread]
    rfl

/-- What decoding accepts. -/
theorem decode_eq_ok_iff {p : Pool} {bytes : Bytes} {code : List Instruction} :
    decode p bytes = .ok code ↔
      SpellsFrom p 0 code bytes ∧ TargetsIn (startsFrom 0 code) code := by
  have hfst (l : List Instruction) : ((startsFrom 0 l).zip l).map Prod.fst = startsFrom 0 l := by
    rw [List.map_fst_zip (Nat.le_of_eq (length_startsFrom 0 l))]
  have hsnd (l : List Instruction) : ((startsFrom 0 l).zip l).map Prod.snd = l := by
    rw [List.map_snd_zip (Nat.le_of_eq (length_startsFrom 0 l).symm)]
  unfold decode
  rw [exceptBind_eq_ok]
  constructor
  · rintro ⟨located, hr, h⟩
    obtain ⟨_, hc, h⟩ := exceptBind_eq_ok.1 h
    obtain ⟨l, hs, rfl⟩ := runOn_readAll.1 hr
    rw [hfst, checkTargets_eq_ok, hsnd] at hc
    rw [hsnd] at h
    cases h
    exact ⟨hs, hc⟩
  · rintro ⟨hs, ht⟩
    refine ⟨_, runOn_readAll.2 ⟨code, hs, rfl⟩, exceptBind_eq_ok.2 ⟨(), ?_, ?_⟩⟩
    · rw [hfst, checkTargets_eq_ok, hsnd]
      exact ht
    · rw [hsnd]
      rfl

/-! ## Layout -/

theorem offsets_eq (code : List Instruction) :
    offsets code = (startsFrom 0 code ++ [endFrom 0 code]).toArray := by
  have after (offset : Nat) (starts : Array Nat) : offsetsAfter code offset starts =
      starts ++ (startsFrom offset code ++ [endFrom offset code]).toArray := by
    induction code generalizing offset starts with
    | nil => simp [offsetsAfter, startsFrom, endFrom]
    | cons i rest ih => simp [offsetsAfter, startsFrom, endFrom, ih]
  unfold offsets
  rw [after, Array.empty_append]

theorem back?_offsets (code : List Instruction) :
    (offsets code).back?.getD 0 = endFrom 0 code := by
  rw [offsets_eq]
  simp

/-- Offsets fit in four bytes unless instructions and targets are more than `2 ^ 28`. -/
theorem lt_of_mem_offsets {code : List Instruction} {offset : Nat}
    (hsize : code.length + (code.flatMap targets).length ≤ 0x10000000)
    (h : offset ∈ (offsets code).toList) : offset < 0x100000000 := by
  have hend := endFrom_le_mul 0 code
  simp only [offsets_eq, List.mem_append, List.mem_singleton] at h
  rcases h with h | rfl
  · have hbefore := (mem_startsFrom h).2
    omega
  · omega

theorem foldl_insert_getElem? {l : List (Nat × Nat)} {m : Std.HashMap Nat Nat} {n k : Nat}
    (h : (l.foldl (fun m (a, b) => m.insert a b) m)[n]? = some k) :
    (n, k) ∈ l ∨ m[n]? = some k := by
  induction l generalizing m with
  | nil => exact .inr h
  | cons x l ih =>
    obtain ⟨a, b⟩ := x
    rcases ih h with h | h
    · exact .inl (List.mem_cons_of_mem _ h)
    · rw [Std.HashMap.getElem?_insert] at h
      split at h
      · rename_i he
        cases h
        exact .inl (by simp_all)
      · exact .inr h

theorem mem_foldl_insert {l : List (Nat × Nat)} {m : Std.HashMap Nat Nat} {n : Nat}
    (h : n ∈ m ∨ n ∈ l.map Prod.fst) : n ∈ l.foldl (fun m (a, b) => m.insert a b) m := by
  induction l generalizing m with
  | nil => simpa using h
  | cons x l ih =>
    apply ih
    rw [Std.HashMap.mem_insert]
    rcases h with h | h
    · exact .inl (.inr h)
    · rcases List.mem_cons.1 h with h | h
      · exact .inl (.inl (by simp [h]))
      · exact .inr h

/-- The index finds every start, and nothing else. -/
theorem indexByOffset_eq_some_iff {code : List Instruction} {n k : Nat} :
    (indexByOffset code)[n]? = some k ↔ (offsets code)[k]? = some n := by
  have sound {k : Nat} (h : (indexByOffset code)[n]? = some k) : (offsets code)[k]? = some n := by
    unfold indexByOffset indexOf at h
    rcases foldl_insert_getElem? h with h | h
    · rw [List.mk_mem_zipIdx_iff_getElem?] at h
      simpa using h
    · simp at h
  refine ⟨sound, fun h => ?_⟩
  have hm : n ∈ indexByOffset code := by
    unfold indexByOffset indexOf
    apply mem_foldl_insert
    rw [List.zipIdx_map_fst]
    exact .inr (Array.mem_toList_iff.2 (Array.mem_of_getElem? h))
  obtain ⟨k', hk'⟩ := Option.isSome_iff_exists.1 (Std.HashMap.isSome_getElem?_iff_mem.2 hm)
  have hs := sound hk'
  rw [offsets_eq, List.getElem?_toArray] at h hs
  have hk := (List.getElem?_inj (List.getElem?_eq_some_iff.1 h).1 (nodup_starts 0 code)).1
    (h.trans hs.symm)
  rw [hk', hk]

/-- Instructions placed from `offset` on, with their targets passed through `place`. -/
def PlacedFrom (place : Nat → UInt32 → Except Error UInt32) :
    (offset : Nat) → List Instruction → List Instruction → Prop
  | _, [], placed => placed = []
  | offset, i :: rest, placed => ∃ j js, i.mapTargets (place offset) = .ok j ∧
    PlacedFrom place (offset + i.encodedLength offset) rest js ∧ placed = j :: js

theorem mapM_eq_self {ε α : Type} {f : α → Except ε α} {as : List α}
    (h : ∀ a ∈ as, f a = .ok a) : as.mapM f = .ok as := by
  induction as with
  | nil => rfl
  | cons a as ih =>
    obtain ⟨ha, has⟩ := List.forall_mem_cons.1 h
    exact mapM_cons_eq_ok.2 ⟨a, as, ha, ih has, rfl⟩

theorem mapM_placed {place : Nat → UInt32 → Except Error UInt32} {offset : Nat}
    {code placed : List Instruction} {tail : List Nat} :
    (code.zip (startsFrom offset code ++ tail)).mapM (fun (i, o) => i.mapTargets (place o)) =
      .ok placed ↔ PlacedFrom place offset code placed := by
  induction code generalizing offset placed with
  | nil => exact ⟨fun h => (Except.ok.inj h).symm, fun h => by rw [h]; rfl⟩
  | cons i rest ih =>
    rw [startsFrom, List.cons_append, List.zip_cons_cons, mapM_cons_eq_ok]
    simp only [ih]
    rfl

theorem encodedLength_mapTargets {f : UInt32 → Except Error UInt32} {i j : Instruction}
    (h : i.mapTargets f = .ok j) (offset : Nat) :
    j.encodedLength offset = i.encodedLength offset := by
  cases i with
  | branch o target =>
    obtain ⟨t, -, h⟩ := exceptBind_eq_ok.1 h
    cases h
    rfl
  | tableSwitch default low high targets =>
    obtain ⟨d, -, h⟩ := exceptBind_eq_ok.1 h
    obtain ⟨ts, hts, h⟩ := exceptBind_eq_ok.1 h
    cases h
    rw [encodedLength, encodedLength, (mapM_eq_ok_iff.1 hts).length_eq]
  | lookupSwitch default pairs =>
    obtain ⟨d, -, h⟩ := exceptBind_eq_ok.1 h
    obtain ⟨ts, hts, h⟩ := exceptBind_eq_ok.1 h
    cases h
    rw [encodedLength, encodedLength, (mapM_eq_ok_iff.1 hts).length_eq]
  | _ =>
    cases h
    rfl

theorem mapTargets_eq_self {f : UInt32 → Except Error UInt32} {i : Instruction}
    (h : ∀ target ∈ i.targets, f target = .ok target) : i.mapTargets f = .ok i := by
  cases i with
  | branch o target =>
    simp only [targets, List.forall_mem_singleton] at h
    rw [mapTargets, h]
    rfl
  | tableSwitch default low high targets =>
    obtain ⟨hd, ht⟩ := List.forall_mem_cons.1 h
    rw [mapTargets, hd, mapM_eq_self ht]
    rfl
  | lookupSwitch default pairs =>
    obtain ⟨hd, ht⟩ := List.forall_mem_cons.1 h
    rw [mapTargets, hd, mapM_eq_self]
    · rfl
    · rintro ⟨key, target⟩ hp
      dsimp only
      rw [ht target (List.mem_map_of_mem hp)]
      rfl
  | _ => rfl

namespace PlacedFrom

variable {place : Nat → UInt32 → Except Error UInt32} {offset : Nat}
  {code placed : List Instruction}

theorem starts_eq (h : PlacedFrom place offset code placed) :
    startsFrom offset placed = startsFrom offset code := by
  induction code generalizing offset placed with
  | nil =>
    obtain rfl := h
    rfl
  | cons i rest ih =>
    obtain ⟨j, js, hj, hjs, rfl⟩ := h
    rw [startsFrom, startsFrom, encodedLength_mapTargets hj, ih hjs]

theorem end_eq (h : PlacedFrom place offset code placed) :
    endFrom offset placed = endFrom offset code := by
  induction code generalizing offset placed with
  | nil =>
    obtain rfl := h
    rfl
  | cons i rest ih =>
    obtain ⟨j, js, hj, hjs, rfl⟩ := h
    rw [endFrom, endFrom, encodedLength_mapTargets hj, ih hjs]

theorem unique {placed' : List Instruction} (h : PlacedFrom place offset code placed)
    (h' : PlacedFrom place offset code placed') : placed = placed' := by
  induction code generalizing offset placed placed' with
  | nil => rw [h, h']
  | cons i rest ih =>
    obtain ⟨j, js, hj, hjs, rfl⟩ := h
    obtain ⟨k, ks, hk, hks, rfl⟩ := h'
    rw [Except.ok.inj (hj.symm.trans hk), ih hjs hks]

end PlacedFrom

theorem placedFrom_self {place : Nat → UInt32 → Except Error UInt32} {offset : Nat}
    {code : List Instruction}
    (h : ∀ i ∈ code, ∀ target ∈ i.targets, ∀ o, place o target = .ok target) :
    PlacedFrom place offset code code := by
  induction code generalizing offset with
  | nil => rfl
  | cons i rest ih =>
    obtain ⟨hi, hrest⟩ := List.forall_mem_cons.1 h
    exact ⟨i, rest, mapTargets_eq_self fun target ht => hi target ht offset, ih hrest, rfl⟩

theorem concatM_encode {offset : Nat} {code : List Instruction} {tail : List Nat} :
    concatM (fun (i, o) => Instruction.encode o i) (code.zip (startsFrom offset code ++ tail)) =
      encodeFrom offset code := by
  induction code generalizing offset with
  | nil => rfl
  | cons i rest ih => rw [startsFrom, List.cons_append, List.zip_cons_cons, concatM_cons, ih]; rfl

/-- What laying out comes to. -/
theorem assemble_eq_ok_iff {code : List Instruction} {resolve : UInt32 → Except Error Nat}
    {a : Assembled} :
    assemble code resolve = .ok a ↔
      endFrom 0 code < 0x10000 ∧
        PlacedFrom (placeTarget (offsets code) code.length resolve) 0 code a.instructions ∧
        encodeFrom 0 a.instructions = .ok a.bytes ∧ a.offsets = offsets code := by
  unfold assemble
  dsimp only
  rw [back?_offsets]
  split
  · rename_i h
    constructor
    · intro h
      cases h
    · rintro ⟨h', -⟩
      omega
  · rename_i h
    have hlist : (offsets code).toList = startsFrom 0 code ++ [endFrom 0 code] := by
      rw [offsets_eq]
    rw [exceptBind_eq_ok]
    constructor
    · rintro ⟨placed, hp, hr⟩
      obtain ⟨bytes, hb, ha⟩ := exceptBind_eq_ok.1 hr
      cases ha
      rw [hlist, mapM_placed] at hp
      rw [hlist, ← hp.starts_eq, concatM_encode] at hb
      exact ⟨by omega, hp, hb, rfl⟩
    · rintro ⟨-, hp, hb, ho⟩
      obtain ⟨bytes, starts, placed⟩ := a
      obtain rfl := ho
      refine ⟨placed, ?_, exceptBind_eq_ok.2 ⟨bytes, ?_, rfl⟩⟩
      · rw [hlist, mapM_placed]
        exact hp
      · rw [hlist, ← hp.starts_eq, concatM_encode]
        exact hb

/-! ## Writing what was read -/

/-- Jumps that land are left alone. -/
theorem TargetsIn.placeTarget {code : List Instruction} (h : TargetsIn (startsFrom 0 code) code) :
    ∀ i ∈ code, ∀ target ∈ i.targets, ∀ o,
      placeTarget (offsets code) code.length (resolveOffset (indexByOffset code)) o target =
        .ok target := by
  intro i hi target hm o
  obtain ⟨k, hk, hget⟩ := List.getElem_of_mem (h i hi target hm)
  have hoff : (offsets code)[k]? = some target.toNat := by
    rw [offsets_eq, List.getElem?_toArray, List.getElem?_append_left hk,
      List.getElem?_eq_getElem hk, hget]
  unfold Code.placeTarget resolveOffset
  rw [indexByOffset_eq_some_iff.2 hoff]
  show (if k < code.length then _ else _) = _
  rw [if_pos (length_startsFrom 0 code ▸ hk), Array.getD_eq_getD_getElem?, hoff,
    Option.getD_some, UInt32.ofNat_toNat]
  rfl

/-- Code whose jumps land is laid out as it is. -/
theorem reassemble_eq_ok_iff {code : List Instruction} (ht : TargetsIn (startsFrom 0 code) code)
    {a : Assembled} :
    reassemble code = .ok a ↔
      endFrom 0 code < 0x10000 ∧ encodeFrom 0 code = .ok a.bytes ∧ a.offsets = offsets code ∧
        a.instructions = code := by
  have hself := @placedFrom_self _ 0 _ ht.placeTarget
  rw [reassemble, assemble_eq_ok_iff]
  constructor
  · rintro ⟨hl, hp, he, ho⟩
    have hcode := hp.unique hself
    rw [hcode] at he
    exact ⟨hl, he, ho, hcode⟩
  · rintro ⟨hl, he, ho, hcode⟩
    rw [hcode]
    exact ⟨hl, hself, he, ho⟩

theorem reassemble_eq_ok {code : List Instruction} {out : Bytes}
    (ht : TargetsIn (startsFrom 0 code) code) (hl : endFrom 0 code < 0x10000)
    (he : encodeFrom 0 code = .ok out) : reassemble code = .ok ⟨out, offsets code, code⟩ :=
  (reassemble_eq_ok_iff ht).2 ⟨hl, he, rfl, rfl⟩

theorem reassemble_eq_error {code : List Instruction} (h : 0x10000 ≤ endFrom 0 code) :
    reassemble code = .error (.tooManyEntries .code (endFrom 0 code)) := by
  unfold reassemble assemble
  dsimp only
  rw [back?_offsets, if_pos h]
  rfl

/-- Written code is a spelling of the same instructions, of the same length. -/
theorem SpellsFrom.encode_eq_ok {p : Pool} {offset : Nat} {code : List Instruction} {used : Bytes}
    (h : SpellsFrom p offset code used) :
    ∃ out, encodeFrom offset code = .ok out ∧ SpellsFrom p offset code out := by
  induction code generalizing offset used with
  | nil => exact ⟨[], rfl, rfl⟩
  | cons i rest ih =>
    obtain ⟨u, v, hu, hv, -⟩ := h
    obtain ⟨u', hu'⟩ := hu.encode_eq_ok
    obtain ⟨v', hv', hs⟩ := ih hv
    exact ⟨u' ++ v', append_eq_ok.2 ⟨u', v', hu', hv', rfl⟩, u', v',
      spells_of_encode hu.1 hu.2.1 hu', hs, rfl⟩

theorem SpellsFrom.of_encode {p : Pool} {offset : Nat} {code : List Instruction} {out : Bytes}
    (hf : ∀ i ∈ code, i.Fits p) (hr : ∀ i ∈ code, ∀ o < endFrom offset code, i.InReach o)
    (h : encodeFrom offset code = .ok out) : SpellsFrom p offset code out := by
  induction code generalizing offset out with
  | nil => exact (Except.ok.inj h).symm
  | cons i rest ih =>
    obtain ⟨u, v, hu, hv, rfl⟩ := append_eq_ok.1 h
    obtain ⟨hfi, hfr⟩ := List.forall_mem_cons.1 hf
    obtain ⟨hri, hrr⟩ := List.forall_mem_cons.1 hr
    have hlt : offset < endFrom offset (i :: rest) :=
      Nat.lt_of_lt_of_le (Nat.lt_add_of_pos_right (encodedLength_pos offset i)) (le_endFrom _ rest)
    exact ⟨u, v, spells_of_encode hfi (hri offset hlt) hu, ih hfr hrr hv, rfl⟩

/-- The bytes that reading skips are zeros. -/
def FreeZero (bytes : Bytes) (located : List (Nat × Instruction)) : Prop :=
  ∀ offset i, (offset, i) ∈ located →
    ∀ k < i.free offset, bytes[offset + i.freeStart + k]? = some 0

theorem free_le {p : Pool} {offset : Nat} {i : Instruction} {used : Bytes}
    (h : i.Spells p offset used) : i.freeStart + i.free offset ≤ used.length := by
  obtain ⟨-, -, head, fill, tail, hh, hl, rfl, -⟩ := h
  simp [← hh, ← hl]

/-- Code is written as it was read exactly if its free bytes were zeros. -/
theorem SpellsFrom.encode_eq_iff {p : Pool} {before : Bytes} {code : List Instruction}
    {used : Bytes} (h : SpellsFrom p before.length code used) :
    encodeFrom before.length code = .ok used ↔
      FreeZero (before ++ used) ((startsFrom before.length code).zip code) := by
  induction code generalizing before used with
  | nil =>
    obtain rfl := h
    exact ⟨fun _ offset i hm => (nomatch hm), fun _ => rfl⟩
  | cons i rest ih =>
    obtain ⟨u, v, hu, hv, rfl⟩ := h
    have hlen : (before ++ u).length = before.length + i.encodedLength before.length := by
      rw [List.length_append, hu.length_eq]
    have hiff := ih (hlen ▸ hv)
    have hhead := Instruction.encode_eq_iff hu
    rw [hlen, List.append_assoc] at hiff
    have hget (k : Nat) (hk : k < i.free before.length) :
        (before ++ (u ++ v))[before.length + i.freeStart + k]? = u[i.freeStart + k]? := by
      have := free_le hu
      rw [List.getElem?_append_right (by omega), List.getElem?_append_left (by omega),
        Nat.add_assoc, Nat.add_sub_cancel_left]
    rw [encodeFrom, append_eq_ok]
    constructor
    · rintro ⟨u', v', hu', hv', e⟩
      have hl := (length_of_encode hu.1.1 hu').trans hu.length_eq.symm
      obtain ⟨rfl, rfl⟩ := List.append_inj e hl.symm
      intro offset j hm k hk
      rcases List.mem_cons.1 hm with hm | hm
      · cases hm
        rw [hget k hk]
        exact hhead.1 hu' k hk
      · exact hiff.1 hv' offset j hm k hk
    · intro hz
      refine ⟨u, v, hhead.2 fun k hk => ?_, hiff.2 fun offset j hm => ?_, rfl⟩
      · rw [← hget k hk]
        exact hz _ i (List.mem_cons_self ..) k hk
      · exact hz offset j (List.mem_cons_of_mem _ hm)

/-- Code that is stored the way it is written: it fits, and its free bytes are zeros. -/
def IsCanonical (p : Pool) (bytes : Bytes) : Prop :=
  bytes.length < 0x10000 ∧
    ∃ located, (readAll p bytes.length []).runOn bytes = .ok located ∧ FreeZero bytes located

section Decoded

variable {p : Pool} {bytes : Bytes} {code : List Instruction}

/-- What was decoded is written, unless it is too long, as code of the same length that is decoded
again. -/
theorem reassemble_of_decode (h : decode p bytes = .ok code) (hl : bytes.length < 0x10000) :
    ∃ out, reassemble code = .ok ⟨out, offsets code, code⟩ ∧ out.length = bytes.length ∧
      decode p out = .ok code ∧ (out = bytes ↔ IsCanonical p bytes) := by
  obtain ⟨hs, ht⟩ := decode_eq_ok_iff.1 h
  obtain ⟨out, he, ho⟩ := hs.encode_eq_ok
  have hend := hs.end_eq
  rw [Nat.zero_add] at hend
  have hfree : encodeFrom 0 code = .ok bytes ↔ FreeZero bytes ((startsFrom 0 code).zip code) :=
    @SpellsFrom.encode_eq_iff p [] code bytes hs
  refine ⟨out, reassemble_eq_ok ht (by omega) he, ?_, decode_eq_ok_iff.2 ⟨ho, ht⟩, ?_⟩
  · have := ho.end_eq
    omega
  · rw [he, Except.ok.injEq] at hfree
    rw [hfree]
    constructor
    · intro hz
      exact ⟨hl, _, runOn_readAll.2 ⟨code, hs, rfl⟩, hz⟩
    · rintro ⟨-, located, hr, hz⟩
      rw [runOn_readAll.2 ⟨code, hs, rfl⟩] at hr
      cases hr
      exact hz

theorem reassemble_of_long (h : decode p bytes = .ok code) (hl : 0x10000 ≤ bytes.length) :
    reassemble code = .error (.tooManyEntries .code bytes.length) := by
  obtain ⟨hs, -⟩ := decode_eq_ok_iff.1 h
  have hend := hs.end_eq
  rw [Nat.zero_add] at hend
  rw [reassemble_eq_error (by omega), hend]

end Decoded

end Code

end JvmClass
