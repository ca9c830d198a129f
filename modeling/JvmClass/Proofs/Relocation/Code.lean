import JvmClass.Proofs.Codec.Code
import JvmClass.Proofs.Codec.Frame
import JvmClass.Proofs.Relocation.Settles

/-!
# Relocated code

Instructions are imported one by one and then laid out anew, which changes nothing but their
targets. Laid out again they stay where they are, so the map of offsets that comes with the copy
leaves every offset of the copy alone (`Fixes`).
-/

namespace JvmClass

open Relocation Code

/-! ## Instructions -/

theorem Opcode.widened_widened (o : Opcode) (i : UInt16) :
    (o.widened i).widened i = o.widened i := by
  unfold widened
  split
  · rw [if_neg (by simp)]
  · rfl

namespace Instruction

/-- `j` is a copy of `i` but for its targets. -/
def Imported (S G : ImportSource) (i j : Instruction) : Prop :=
  ∀ (m : OffsetMap) (f : UInt32 → Except Error UInt32) k,
    (∀ t t', f t = .ok t' → m.Target t t') → j.mapTargets f = .ok k → i.Copied S G m k

theorem imported_branch {S G : ImportSource} (o : Opcode) (t : UInt32) :
    Imported S G (branch o t) (branch o t) := by
  intro m f k hf h
  obtain ⟨t', ht, h⟩ := exceptBind_eq_ok.1 h
  cases h
  exact .branch (hf t t' ht)

theorem imported_tableSwitch {S G : ImportSource} (d : UInt32) (low high : Int32)
    (ts : List UInt32) : Imported S G (tableSwitch d low high ts) (tableSwitch d low high ts) := by
  intro m f k hf h
  obtain ⟨d', hd, h⟩ := exceptBind_eq_ok.1 h
  obtain ⟨ts', hts, h⟩ := exceptBind_eq_ok.1 h
  cases h
  exact .tableSwitch (hf d d' hd) ((mapM_eq_ok_iff.1 hts).imp hf)

theorem imported_lookupSwitch {S G : ImportSource} (d : UInt32) (pairs : List (Int32 × UInt32)) :
    Imported S G (lookupSwitch d pairs) (lookupSwitch d pairs) := by
  intro m f k hf h
  obtain ⟨d', hd, h⟩ := exceptBind_eq_ok.1 h
  obtain ⟨pairs', hpairs, h⟩ := exceptBind_eq_ok.1 h
  cases h
  refine .lookupSwitch (hf d d' hd) ((mapM_eq_ok_iff.1 hpairs).imp ?_)
  rintro ⟨key, t⟩ p hp
  obtain ⟨t', ht, hp⟩ := exceptBind_eq_ok.1 hp
  cases hp
  exact ⟨rfl, hf t t' ht⟩

end Instruction

section Instructions

variable {P : Symbol → Prop} {S : ImportSource}

theorem settles_instruction (hS : S.Supplies P) (i : Instruction) :
    Settles P (instruction S i) (Again (Instruction.Imported S) instruction i) := by
  have same (h : instruction S i = pure i) (h' : ∀ G, instruction G i = pure i)
      (himp : ∀ G, Instruction.Imported S G i i) :
      Settles P (instruction S i) (Again (Instruction.Imported S) instruction i) := by
    rw [h]
    refine (settles_pure i).mono ?_
    rintro G g _ _ ⟨rfl, rfl⟩
    exact ⟨himp G, by rw [h']; rfl⟩
  have indexed {i : UInt16} {make : UInt16 → Instruction} {old : Instruction}
      (ht : ∀ j (f : UInt32 → Except Error UInt32), (make j).mapTargets f = .ok (make j))
      (hc : ∀ G m j, SameSymbol S i G j → old.Copied S G m (make j))
      (hr : ∀ G j, instruction G (make j) = (do return make (← index G j))) :
      Settles P (do return make (← index S i))
        (Again (Instruction.Imported S) instruction old) := by
    refine (settles_index hS i).wrap make (fun G j hj m f k _ e => ?_) hr
    rw [ht] at e
    cases e
    exact hc G m j hj
  cases i with
  | constant o i =>
    refine ((settles_index hS i).bind fun j =>
      settles_pure (Instruction.constant (o.widened j) j)).mono ?_
    rintro G g _ _ ⟨j, g1, ⟨hj, rj⟩, rfl, rfl⟩
    refine ⟨fun m f k _ e => ?_, ?_⟩
    · cases e
      exact .constant hj
    · rw [instruction, bind_run rj]
      show EStateM.Result.ok (Instruction.constant ((o.widened j).widened j) j) _ = _
      rw [Opcode.widened_widened]
  | field o i => exact indexed (fun _ _ => rfl) (fun _ _ _ => .field) fun _ _ => rfl
  | invoke o i => exact indexed (fun _ _ => rfl) (fun _ _ _ => .invoke) fun _ _ => rfl
  | invokeInterface i count =>
    exact indexed (fun _ _ => rfl) (fun _ _ _ => .invokeInterface) fun _ _ => rfl
  | invokeDynamic i => exact indexed (fun _ _ => rfl) (fun _ _ _ => .invokeDynamic) fun _ _ => rfl
  | typed o i => exact indexed (fun _ _ => rfl) (fun _ _ _ => .typed) fun _ _ => rfl
  | multiNewArray i dimensions =>
    exact indexed (fun _ _ => rfl) (fun _ _ _ => .multiNewArray) fun _ _ => rfl
  | simple o => exact same rfl (fun _ => rfl) fun G m f k _ e => by cases e; exact .simple
  | access o slot wide =>
    exact same rfl (fun _ => rfl) fun G m f k _ e => by cases e; exact .access
  | increment slot delta wide =>
    exact same rfl (fun _ => rfl) fun G m f k _ e => by cases e; exact .increment
  | push o value => exact same rfl (fun _ => rfl) fun G m f k _ e => by cases e; exact .push
  | newArray element =>
    exact same rfl (fun _ => rfl) fun G m f k _ e => by cases e; exact .newArray
  | branch o t => exact same rfl (fun _ => rfl) fun _ => Instruction.imported_branch o t
  | tableSwitch d low high ts =>
    exact same rfl (fun _ => rfl) fun _ => Instruction.imported_tableSwitch d low high ts
  | lookupSwitch d pairs =>
    exact same rfl (fun _ => rfl) fun _ => Instruction.imported_lookupSwitch d pairs

/-- Placing targets does not show in a relocation. -/
theorem instruction_placed {G : ImportSource} {f : UInt32 → Except Error UInt32}
    {i j : Instruction} {b b' : Building} (hj : i.mapTargets f = .ok j)
    (h : instruction G i b = .ok i b') : instruction G j b = .ok j b' := by
  cases i with
  | branch o t =>
    obtain ⟨t', -, e⟩ := exceptBind_eq_ok.1 hj
    cases e
    obtain ⟨-, rfl⟩ := pure_eq_ok.1 h
    rfl
  | tableSwitch d low high ts =>
    obtain ⟨d', -, e⟩ := exceptBind_eq_ok.1 hj
    obtain ⟨ts', -, e⟩ := exceptBind_eq_ok.1 e
    cases e
    obtain ⟨-, rfl⟩ := pure_eq_ok.1 h
    rfl
  | lookupSwitch d pairs =>
    obtain ⟨d', -, e⟩ := exceptBind_eq_ok.1 hj
    obtain ⟨pairs', -, e⟩ := exceptBind_eq_ok.1 e
    cases e
    obtain ⟨-, rfl⟩ := pure_eq_ok.1 h
    rfl
  | _ =>
    cases hj
    exact h

theorem mapM_instruction_placed {G : ImportSource} {place : Nat → UInt32 → Except Error UInt32}
    {offset : Nat} {code placed : List Instruction} {b b' : Building}
    (hp : PlacedFrom place offset code placed)
    (h : code.mapM (instruction G) b = .ok code b') :
    placed.mapM (instruction G) b = .ok placed b' := by
  induction code generalizing offset placed b with
  | nil =>
    cases hp
    exact h
  | cons i code ih =>
    obtain ⟨j, js, hj, hjs, rfl⟩ := hp
    rw [List.mapM_cons] at h ⊢
    obtain ⟨i', b1, hi, h⟩ := bind_eq_ok.1 h
    obtain ⟨code', b2, hcode, h⟩ := bind_eq_ok.1 h
    obtain ⟨e, rfl⟩ := pure_eq_ok.1 h
    obtain ⟨rfl, rfl⟩ := List.cons.inj e
    rw [bind_run (instruction_placed hj hi), bind_run (ih hjs hcode)]
    rfl

theorem forall₂_copied {G : ImportSource} {m : OffsetMap}
    {place : Nat → UInt32 → Except Error UInt32} {offset : Nat} {old code placed : List Instruction}
    (hplace : ∀ o t t', place o t = .ok t' → m.Target t t')
    (h : List.Forall₂ (Instruction.Imported S G) old code)
    (hp : PlacedFrom place offset code placed) :
    List.Forall₂ (Instruction.Copied S G m) old placed := by
  induction h generalizing offset placed with
  | nil =>
    cases hp
    exact .nil
  | cons hi _ ih =>
    obtain ⟨j, js, hj, hjs, rfl⟩ := hp
    exact .cons (hi m _ j (hplace offset) hj) (ih hjs)

end Instructions

/-- Every target of a copied instruction has come from a target. -/
theorem Instruction.Copied.targets {S G : ImportSource} {m : OffsetMap} {i j : Instruction}
    (h : i.Copied S G m j) : ∀ t ∈ j.targets, ∃ t₀ ∈ i.targets, m.Target t₀ t := by
  cases h with
  | branch ht => simpa [Instruction.targets] using ht
  | tableSwitch hd hts =>
    refine List.forall_mem_cons.2 ⟨⟨_, List.mem_cons_self, hd⟩, fun t ht => ?_⟩
    obtain ⟨t₀, h₀, hr⟩ := exists_of_forall₂ hts t ht
    exact ⟨t₀, List.mem_cons_of_mem _ h₀, hr⟩
  | lookupSwitch hd hps =>
    refine List.forall_mem_cons.2 ⟨⟨_, List.mem_cons_self, hd⟩, fun t ht => ?_⟩
    obtain ⟨p, hp, rfl⟩ := List.mem_map.1 ht
    obtain ⟨p₀, h₀, -, hr⟩ := exists_of_forall₂ hps p hp
    exact ⟨p₀.2, List.mem_cons_of_mem _ (List.mem_map_of_mem h₀), hr⟩
  | _ => simp [Instruction.targets]

/-! ## Offsets -/

namespace Code

theorem size_offsets (code : List Instruction) : (offsets code).size = code.length + 1 := by
  rw [offsets_eq]
  simp [length_startsFrom]

theorem getElem?_offsets {code : List Instruction} {k : Nat} (h : k < code.length + 1) :
    ∃ n, (offsets code)[k]? = some n ∧ n ≤ endFrom 0 code := by
  have hk : k < (offsets code).size := by rwa [size_offsets]
  obtain ⟨n, hn⟩ : ∃ n, (offsets code)[k]? = some n := ⟨_, Array.getElem?_eq_getElem hk⟩
  refine ⟨n, hn, ?_⟩
  have hm := Array.mem_of_getElem? hn
  rw [offsets_eq, List.mem_toArray, List.mem_append, List.mem_singleton] at hm
  rcases hm with hm | hm
  · exact Nat.le_of_lt (mem_startsFrom hm).2
  · exact Nat.le_of_eq hm

/-- The offset of an instruction of short code, as a target. -/
theorem getD_offsets_mem {code : List Instruction} (hend : endFrom 0 code < 0x10000) {index : Nat}
    (hlt : index < code.length) :
    (UInt32.ofNat ((offsets code).getD index 0)).toNat ∈ startsFrom 0 code := by
  have hk : index < (startsFrom 0 code).length := by rwa [length_startsFrom]
  have hget : (offsets code).getD index 0 = (startsFrom 0 code)[index] := by
    rw [Array.getD_eq_getD_getElem?, offsets_eq, List.getElem?_toArray,
      List.getElem?_append_left hk, List.getElem?_eq_getElem hk, Option.getD_some]
  have hm : (startsFrom 0 code)[index] ∈ startsFrom 0 code := List.getElem_mem hk
  have hbound := (mem_startsFrom hm).2
  rw [hget, UInt32.toNat_ofNat', Nat.mod_eq_of_lt (by omega)]
  exact hm

end Code

namespace OffsetMap

/-- `m'` leaves alone the offsets that `m` yields. -/
def Fixes (m m' : OffsetMap) : Prop := ∀ o o', m.find o = .ok o' → m'.find o' = .ok o'

theorem find_eq_ok {m : OffsetMap} {o o' : UInt16} :
    m.find o = .ok o' ↔ ∃ index, m.indices[o.toNat]? = some index ∧
      o' = UInt16.ofNat (m.offsets.getD index 0) := by
  unfold find
  cases m.indices[o.toNat]? with
  | some index => simp [eq_comm]
  | none => simp

/-- The map of the copy onto itself. -/
theorem fixes_self {code placed : List Instruction} (hlen : placed.length = code.length)
    (hend : endFrom 0 placed < 0x10000) :
    Fixes ⟨indexByOffset code, Code.offsets placed⟩
      ⟨indexByOffset placed, Code.offsets placed⟩ := by
  intro o o' h
  obtain ⟨index, hi, rfl⟩ := find_eq_ok.1 h
  have hlt := (Array.getElem?_eq_some_iff.1 (indexByOffset_eq_some_iff.1 hi)).1
  rw [Code.size_offsets, ← hlen] at hlt
  obtain ⟨n, hn, hle⟩ := Code.getElem?_offsets hlt
  have hget : (Code.offsets placed).getD index 0 = n := by
    rw [Array.getD_eq_getD_getElem?, hn, Option.getD_some]
  refine find_eq_ok.2 ⟨index, indexByOffset_eq_some_iff.2 ?_, rfl⟩
  rw [hget, toNat_unit (by omega), hn]

theorem Target.mem_starts {indices : Std.HashMap Nat Nat} {placed : List Instruction}
    (hend : endFrom 0 placed < 0x10000) {t t' : UInt32}
    (h : Target ⟨indices, Code.offsets placed⟩ t t') : t'.toNat ∈ startsFrom 0 placed := by
  obtain ⟨index, -, hlt, rfl⟩ := h
  rw [Code.size_offsets, Nat.add_lt_add_iff_right] at hlt
  exact Code.getD_offsets_mem hend hlt

end OffsetMap

/-- The jumps of copied code land. -/
theorem Code.targetsIn_of_copied {S G : ImportSource} {indices : Std.HashMap Nat Nat}
    {code code' : List Instruction}
    (h : List.Forall₂ (Instruction.Copied S G ⟨indices, offsets code'⟩) code code')
    (hend : endFrom 0 code' < 0x10000) : TargetsIn (startsFrom 0 code') code' := by
  intro j hj t ht
  obtain ⟨i, -, hi⟩ := exists_of_forall₂ h j hj
  obtain ⟨t₀, -, ht⟩ := hi.targets t ht
  exact ht.mem_starts hend

section Layout

variable {P : Symbol → Prop} {S : ImportSource}

theorem settles_instructions (hS : S.Supplies P) (code : List Instruction) :
    Settles P (instructions S code) fun G g y g' =>
      y.2 = ⟨indexByOffset code, offsets y.1⟩ ∧
        List.Forall₂ (Instruction.Copied S G y.2) code y.1 ∧ endFrom 0 y.1 < 0x10000 ∧
        y.2.Fixes ⟨indexByOffset y.1, offsets y.1⟩ ∧
        instructions G y.1 ⟨g, .off⟩ =
          .ok (y.1, ⟨indexByOffset y.1, offsets y.1⟩) ⟨g', .off⟩ := by
  refine ((Settles.mapM (settles_instruction hS) code).bind fun code' => (settles_ofExcept
    (assemble code' (resolveOffset (indexByOffset code)))).bind fun assembled =>
    settles_pure (assembled.instructions,
      (⟨indexByOffset code, assembled.offsets⟩ : OffsetMap))).mono ?_
  rintro G g _ _ ⟨code', g1, ⟨himp, again⟩, ⟨bytes, starts, placed⟩, g2, ⟨hassemble, rfl⟩, rfl, rfl⟩
  obtain ⟨hend, hplaced, hencode, rfl⟩ := assemble_eq_ok_iff.1 hassemble
  dsimp only at hend hplaced hencode again ⊢
  have hstarts : offsets placed = offsets code' := by
    rw [offsets_eq, offsets_eq, hplaced.starts_eq, hplaced.end_eq]
  have hlen : placed.length = code'.length := by
    rw [← length_startsFrom 0 placed, hplaced.starts_eq, length_startsFrom]
  have hend' : endFrom 0 placed < 0x10000 := by rwa [hplaced.end_eq]
  rw [← hstarts]
  have hcopied : List.Forall₂ (Instruction.Copied S G ⟨indexByOffset code, offsets placed⟩)
      code placed := by
    refine forall₂_copied (fun o t t' h => ?_) himp hplaced
    obtain ⟨index, hindex, h⟩ := exceptBind_eq_ok.1 h
    split at h
    · rename_i hlt
      cases h
      refine ⟨index, ?_, by rw [Code.size_offsets, hlen]; omega, by rw [hstarts]⟩
      unfold resolveOffset at hindex
      split at hindex
      · rename_i hfound
        cases hindex
        exact hfound
      · cases hindex
    · cases h
  refine ⟨rfl, hcopied, hend', OffsetMap.fixes_self (hcopied.length_eq.symm) hend', ?_⟩
  have htargets := targetsIn_of_copied hcopied hend'
  rw [instructions, bind_run (mapM_instruction_placed hplaced again)]
  have hre := reassemble_eq_ok htargets hend' hencode
  rw [reassemble] at hre
  rw [bind_run (ofExcept_eq_ok.2 ⟨hre, rfl⟩)]
  rfl

end Layout

/-! ## Tables about code -/

namespace OffsetMap

/-- A range that would end before it starts ends where it starts. -/
theorem start_add_length (s t : UInt16) :
    s + UInt16.ofNat (t.toNat - s.toNat) = if s.toNat ≤ t.toNat then t else s := by
  have hlt := t.toNat_lt
  split
  · apply UInt16.toNat_inj.1
    rw [UInt16.toNat_add, toNat_unit (by omega)]
    omega
  · rw [Nat.sub_eq_zero_of_le (by omega)]
    simp

theorem Fixes.findRange {m m' : OffsetMap} (h : m.Fixes m') {start length start' length' : UInt16}
    (hr : m.findRange start length = .ok (start', length')) :
    m'.findRange start' length' = .ok (start', length') := by
  obtain ⟨s, hs, hr⟩ := exceptBind_eq_ok.1 hr
  obtain ⟨t, ht, hr⟩ := exceptBind_eq_ok.1 hr
  obtain ⟨rfl, rfl⟩ := Prod.mk.inj (Except.ok.inj hr)
  have hs' := h start s hs
  have ht' := h _ t ht
  unfold OffsetMap.findRange
  rw [hs', start_add_length]
  split
  · rw [ht']
    rfl
  · rw [hs', Nat.sub_eq_zero_of_le (by omega)]
    show Except.ok (s, UInt16.ofNat (s.toNat - s.toNat)) = _
    rw [Nat.sub_self]

end OffsetMap

/-- Offsets that `moved` yields are left alone by `moved'`. -/
def FixesOffsets : Option OffsetMap → Option OffsetMap → Prop
  | none, none => True
  | some m, some m' => m.Fixes m'
  | _, _ => False

theorem FixesOffsets.moveOffset {moved moved' : Option OffsetMap} (h : FixesOffsets moved moved')
    {o o' : UInt16} (ho : moveOffset moved o = .ok o') : moveOffset moved' o' = .ok o' := by
  match moved, moved', h with
  | none, none, _ => rfl
  | some m, some m', h => exact h o o' ho

section Tables

variable {P : Symbol → Prop} {S : ImportSource}

theorem settles_handler (hS : S.Supplies P) {m m' : OffsetMap} (hm : m.Fixes m') (h : Handler) :
    Settles P (handler S m h)
      (Again (fun G => Handler.Copied S G m) (fun G => handler G m') h) := by
  refine ((settles_ofExcept (m.find h.start)).bind fun start =>
    (settles_ofExcept (m.find h.stop)).bind fun stop =>
    (settles_ofExcept (m.find h.handler)).bind fun target =>
    (settles_optional hS h.catchType).bind fun j =>
    settles_pure (Handler.mk start stop target j)).mono ?_
  rintro G g _ _ ⟨start, _, ⟨h1, rfl⟩, stop, _, ⟨h2, rfl⟩, target, _, ⟨h3, rfl⟩, j, _, ⟨h4, r⟩, rfl,
    rfl⟩
  refine ⟨⟨h1, h2, h3, h4⟩, ?_⟩
  show handler G m' ⟨start, stop, target, j⟩ _ = _
  rw [handler, hm _ _ h1, hm _ _ h2, hm _ _ h3, bind_run (ofExcept_eq_ok.2 ⟨rfl, rfl⟩),
    bind_run (ofExcept_eq_ok.2 ⟨rfl, rfl⟩), bind_run (ofExcept_eq_ok.2 ⟨rfl, rfl⟩), bind_run r]
  rfl

/-- The row of a line number table. -/
def Relocation.lineNumber (moved : Option OffsetMap) (l : LineNumber) : Build LineNumber := do
  return ⟨← ofExcept (moveOffset moved l.start), l.line⟩

variable {moved moved' : Option OffsetMap} (hm : FixesOffsets moved moved')

include hm

theorem settles_lineNumber (l : LineNumber) :
    Settles P (lineNumber moved l)
      (Again (fun _ => LineNumber.Copied moved) (fun _ => lineNumber moved') l) := by
  refine ((settles_ofExcept (moveOffset moved l.start)).bind fun start =>
    settles_pure (LineNumber.mk start l.line)).mono ?_
  rintro G g _ _ ⟨start, _, ⟨h, rfl⟩, rfl, rfl⟩
  refine ⟨⟨h, rfl⟩, ?_⟩
  show lineNumber moved' ⟨start, l.line⟩ _ = _
  rw [lineNumber, hm.moveOffset h]
  rfl

theorem settles_localVariable (hS : S.Supplies P) (v : LocalVariable) :
    Settles P (localVariable S moved v)
      (Again (fun G => LocalVariable.Copied S G moved) (fun G => localVariable G moved') v) := by
  have rest (start length : UInt16) := (settles_index hS v.name).bind fun i =>
    (settles_index hS v.descriptor).bind fun j =>
    settles_pure (P := P) (LocalVariable.mk start length i j v.slot)
  have again {G : ImportSource} {start length i j : UInt16} {b b1 b2 : Building}
      (ri : index G i b = .ok i b1) (rj : index G j b1 = .ok j b2) :
      (do return LocalVariable.mk start length (← index G i) (← index G j) v.slot) b =
        .ok ⟨start, length, i, j, v.slot⟩ b2 := by
    rw [bind_run ri, bind_run rj]
    rfl
  match moved, moved', hm with
  | none, none, _ =>
    refine (rest v.start v.length).mono ?_
    rintro G g _ _ ⟨i, g1, ⟨hi, ri⟩, j, g2, ⟨hj, rj⟩, rfl, rfl⟩
    refine ⟨⟨⟨rfl, rfl⟩, hi, hj, rfl⟩, ?_⟩
    exact again ri rj
  | some m, some m', hm =>
    refine ((settles_ofExcept (m.findRange v.start v.length)).bind fun range =>
      rest range.1 range.2).mono ?_
    rintro G g _ _ ⟨⟨start, length⟩, _, ⟨h, rfl⟩, i, g1, ⟨hi, ri⟩, j, g2, ⟨hj, rj⟩, rfl, rfl⟩
    refine ⟨⟨h, hi, hj, rfl⟩, ?_⟩
    show localVariable G (some m') ⟨start, length, i, j, v.slot⟩ _ = _
    rw [localVariable, hm.findRange h]
    exact again ri rj

theorem settles_verificationType (hS : S.Supplies P) (t : VerificationType) :
    Settles P (verificationType S moved t)
      (Again (fun G => VerificationType.Copied S G moved) (fun G => verificationType G moved')
        t) := by
  have plain {t : VerificationType} (h : ∀ G, VerificationType.Copied S G moved t t)
      (hr : ∀ G, verificationType G moved' t = pure t) :
      Settles P (pure t) (Again (fun G => VerificationType.Copied S G moved)
        (fun G => verificationType G moved') t) := by
    refine (settles_pure t).mono ?_
    rintro G g _ _ ⟨rfl, rfl⟩
    exact ⟨h G, congrFun (hr G) _⟩
  cases t with
  | object i =>
    exact (settles_index hS i).wrap VerificationType.object (fun _ _ => .object) fun _ _ => rfl
  | uninitialized o =>
    refine ((settles_ofExcept (moveOffset moved o)).bind fun o' =>
      settles_pure (VerificationType.uninitialized o')).mono ?_
    rintro G g _ _ ⟨o', _, ⟨h, rfl⟩, rfl, rfl⟩
    refine ⟨.uninitialized h, ?_⟩
    show verificationType G moved' (.uninitialized o') _ = _
    rw [verificationType, hm.moveOffset h]
    rfl
  | top => exact plain (fun _ => .top) fun _ => rfl
  | integer => exact plain (fun _ => .integer) fun _ => rfl
  | float => exact plain (fun _ => .float) fun _ => rfl
  | double => exact plain (fun _ => .double) fun _ => rfl
  | long => exact plain (fun _ => .long) fun _ => rfl
  | null => exact plain (fun _ => .null) fun _ => rfl
  | uninitializedThis => exact plain (fun _ => .uninitializedThis) fun _ => rfl

theorem settles_mapTypes (hS : S.Supplies P) (frame : Frame) :
    Settles P (frame.mapTypes (verificationType S moved))
      (Again
        (fun G frame frame' => Frame.Copied S G moved frame frame' ∧ frame'.delta = frame.delta)
        (fun G frame' => frame'.mapTypes (verificationType G moved')) frame) := by
  have plain {frame : Frame} (h : ∀ G, Frame.Copied S G moved frame frame)
      (hr : ∀ G, frame.mapTypes (verificationType G moved') = pure frame) :
      Settles P (pure frame) (Again (fun G frame frame' => Frame.Copied S G moved frame frame' ∧
        frame'.delta = frame.delta) (fun G frame' => frame'.mapTypes (verificationType G moved'))
        frame) := by
    refine (settles_pure frame).mono ?_
    rintro G g _ _ ⟨rfl, rfl⟩
    exact ⟨⟨h G, rfl⟩, congrFun (hr G) _⟩
  have types := Settles.mapM (settles_verificationType hm hS)
  cases frame with
  | same d => exact plain (fun _ => .same) fun _ => rfl
  | sameExtended d => exact plain (fun _ => .sameExtended) fun _ => rfl
  | chop d count => exact plain (fun _ => .chop) fun _ => rfl
  | oneItem d t =>
    exact (settles_verificationType hm hS t).wrap (Frame.oneItem d)
      (fun _ _ h => ⟨.oneItem h, rfl⟩) fun _ _ => rfl
  | oneItemExtended d t =>
    exact (settles_verificationType hm hS t).wrap (Frame.oneItemExtended d)
      (fun _ _ h => ⟨.oneItemExtended h, rfl⟩) fun _ _ => rfl
  | append d ts =>
    exact (types ts).wrap (Frame.append d) (fun _ _ h => ⟨.append h, rfl⟩) fun _ _ => rfl
  | full d ts us =>
    refine ((types ts).bind fun ts' => (types us).bind fun us' =>
      settles_pure (Frame.full d ts' us')).mono ?_
    rintro G g _ _ ⟨ts', g1, ⟨hts, rts⟩, us', g2, ⟨hus, rus⟩, rfl, rfl⟩
    refine ⟨⟨.full hts hus, rfl⟩, ?_⟩
    show (Frame.full d ts' us').mapTypes (verificationType G moved') _ = _
    rw [Frame.mapTypes, bind_run rts, bind_run rus]
    rfl

end Tables

/-! ## Frames -/

/-- A promoted frame has the same types. -/
theorem Frame.mapTypes_promote {f : VerificationType → Build VerificationType} {frame : Frame}
    {b b' : Building} (h : frame.mapTypes f b = .ok frame b') :
    frame.promote.mapTypes f b = .ok frame.promote b' := by
  cases frame with
  | same d =>
    rw [promote]
    split
    · exact h
    · obtain ⟨-, rfl⟩ := pure_eq_ok.1 h
      rfl
  | oneItem d t =>
    rw [promote]
    split
    · exact h
    · obtain ⟨t', b1, ht, h⟩ := bind_eq_ok.1 h
      obtain ⟨e, rfl⟩ := pure_eq_ok.1 h
      cases e
      rw [mapTypes, bind_run ht]
      rfl
  | _ => exact h

theorem Frame.Copied.of_withDelta {S G : ImportSource} {moved : Option OffsetMap}
    {frame frame' : Frame} {d : UInt16} (h : Frame.Copied S G moved (frame.withDelta d) frame') :
    Frame.Copied S G moved frame frame' := by
  cases frame with
  | same | sameExtended | chop => cases h; constructor
  | oneItem | oneItemExtended | append | full => cases h; constructor <;> assumption

/-- The offsets of frames behind a frame at `previous`. -/
def Frame.offsetsFrom : (previous : Option Nat) → List Frame → List Nat
  | _, [] => []
  | none, frame :: rest => frame.delta.toNat :: offsetsFrom (some frame.delta.toNat) rest
  | some p, frame :: rest =>
    (p + frame.delta.toNat + 1) :: offsetsFrom (some (p + frame.delta.toNat + 1)) rest

theorem Frame.offsets_eq (frames : List Frame) : offsets frames = offsetsFrom none frames := by
  have after (previous : Option Nat) (found : List Nat) :
      offsetsAfter previous found frames = found.reverse ++ offsetsFrom previous frames := by
    induction frames generalizing previous found with
    | nil => simp [offsetsAfter, offsetsFrom]
    | cons frame rest ih => cases previous <;> simp [offsetsAfter, offsetsFrom, ih]
  exact after none []

/-- The offset of a frame behind one at `previous`. -/
def Frame.offsetAfter (previous : Option Nat) (delta : Nat) : Nat :=
  match previous with
  | none => delta
  | some p => p + delta + 1

@[simp]
theorem Frame.offsetsFrom_nil (previous : Option Nat) : offsetsFrom previous [] = [] := by
  cases previous <;> rfl

theorem Frame.offsetsFrom_cons (previous : Option Nat) (f : Frame) (fs : List Frame) :
    offsetsFrom previous (f :: fs) = offsetAfter previous f.delta.toNat ::
      offsetsFrom (some (offsetAfter previous f.delta.toNat)) fs := by
  cases previous <;> rfl

/-- A frame stands where its difference says, up to `2 ^ 16`. -/
theorem Frame.ofNat_offsetAfter (previous : Option Nat) (offset : UInt16) :
    UInt16.ofNat (offsetAfter previous (deltaAfter (previous.map UInt16.ofNat) offset).toNat) =
      offset := by
  cases previous with
  | none => exact UInt16.ofNat_toNat
  | some p =>
    show UInt16.ofNat (p + (offset - UInt16.ofNat p - 1).toNat + 1) = offset
    rw [UInt16.ofNat_add, UInt16.ofNat_add, UInt16.ofNat_toNat]
    grind

/-- Frames, given with their old offsets, behind a frame at the new offset `previous`. -/
def Relocation.framesFrom (S : ImportSource) (moved : Option OffsetMap) :
    (previous : Option UInt16) → List (Frame × Nat) → Build (List Frame)
  | _, [] => pure []
  | previous, (frame, offset) :: rest => do
    let offset ← ofExcept (moveOffset moved (UInt16.ofNat offset))
    let frame ← (frame.withDelta (Frame.deltaAfter previous offset)).mapTypes
      (verificationType S moved)
    return frame :: (← framesFrom S moved (some offset) rest)

theorem Relocation.framesFrom_cons_eq_ok {S : ImportSource} {moved : Option OffsetMap}
    {previous : Option UInt16} {frame : Frame} {offset : Nat} {rest : List (Frame × Nat)}
    {ys : List Frame} {b b' : Building} :
    framesFrom S moved previous ((frame, offset) :: rest) b = .ok ys b' ↔
      ∃ offset' frame' rest' b1, moveOffset moved (UInt16.ofNat offset) = .ok offset' ∧
        (frame.withDelta (Frame.deltaAfter previous offset')).mapTypes (verificationType S moved)
          b = .ok frame' b1 ∧
        framesFrom S moved (some offset') rest b1 = .ok rest' b' ∧ ys = frame' :: rest' := by
  rw [framesFrom]
  constructor
  · intro h
    obtain ⟨offset', _, ho, h⟩ := bind_eq_ok.1 h
    obtain ⟨hoffset, e⟩ := ofExcept_eq_ok.1 ho
    obtain ⟨frame', b1, hframe, h⟩ := bind_eq_ok.1 h
    obtain ⟨rest', _, hrest, h⟩ := bind_eq_ok.1 h
    obtain ⟨rfl, rfl⟩ := pure_eq_ok.1 h
    exact ⟨offset', frame', rest', b1, hoffset, e ▸ hframe, hrest, rfl⟩
  · rintro ⟨offset', frame', rest', b1, hoffset, hframe, hrest, rfl⟩
    refine (bind_run (ofExcept_eq_ok.2 ⟨hoffset, rfl⟩)).trans ?_
    refine (bind_run hframe).trans ?_
    exact bind_run hrest

theorem Relocation.frames_eq (S : ImportSource) (moved : Option OffsetMap) (table : List Frame) :
    frames S moved table = framesFrom S moved none (table.zip (Frame.offsetsFrom none table)) := by
  have after (done : List Frame) (previous : Option UInt16) (items : List (Frame × Nat)) :
      framesAfter S moved done previous items =
        (do return done.reverse ++ (← framesFrom S moved previous items)) := by
    induction items generalizing done previous with
    | nil => simp [framesAfter, framesFrom]
    | cons item rest ih =>
      obtain ⟨frame, offset⟩ := item
      cases previous <;> simp [framesAfter, framesFrom, ih, Frame.deltaAfter]
  rw [frames, after, Frame.offsets_eq]
  simp

section Frames

variable {P : Symbol → Prop} {S : ImportSource} {moved moved' : Option OffsetMap}

/-- The copy is relocated with the frames as they are written, and at the offsets that their
differences add up to. -/
theorem settles_framesFrom (hS : S.Supplies P) (hm : FixesOffsets moved moved')
    (previous : Option UInt16) (items : List (Frame × Nat)) :
    Settles P (framesFrom S moved previous items) fun G g ys g' =>
      Frame.CopiedAfter S G moved previous items ys ∧
        ∀ p : Option Nat, p.map UInt16.ofNat = previous →
          framesFrom G moved' previous
            ((ys.map Frame.promote).zip (Frame.offsetsFrom p (ys.map Frame.promote))) ⟨g, .off⟩ =
            .ok (ys.map Frame.promote) ⟨g', .off⟩ := by
  induction items generalizing previous with
  | nil =>
    refine (settles_pure ([] : List Frame)).mono ?_
    rintro G g _ _ ⟨rfl, rfl⟩
    exact ⟨.nil, fun _ _ => rfl⟩
  | cons item rest ih =>
    obtain ⟨frame, offset⟩ := item
    refine ((settles_ofExcept (moveOffset moved (UInt16.ofNat offset))).bind fun offset' =>
      (settles_mapTypes hm hS (frame.withDelta (Frame.deltaAfter previous offset'))).bind
        fun frame' => (ih (some offset')).bind fun rest' => settles_pure (frame' :: rest')).mono ?_
    rintro G g _ _ ⟨offset', _, ⟨hoffset, rfl⟩, frame', g1, ⟨⟨hframe, hdelta⟩, rframe⟩, rest', g2,
      ⟨hrest, rrest⟩, rfl, rfl⟩
    rw [Frame.delta_withDelta] at hdelta
    refine ⟨.cons hoffset hdelta ?_ hrest, fun p hp => ?_⟩
    · exact hframe.of_withDelta
    · subst hp
      have hplace : UInt16.ofNat (Frame.offsetAfter p frame'.promote.delta.toNat) = offset' := by
        rw [Frame.delta_promote, hdelta, Frame.ofNat_offsetAfter]
      have hself : frame'.promote.withDelta (Frame.deltaAfter (p.map UInt16.ofNat) offset') =
          frame'.promote := by
        rw [← hdelta, ← Frame.delta_promote, Frame.withDelta_delta]
      rw [List.map_cons, Frame.offsetsFrom_cons, List.zip_cons_cons]
      refine framesFrom_cons_eq_ok.2 ⟨offset', _, _, ⟨g1, .off⟩, ?_, ?_, rrest (some _) ?_, rfl⟩
      · rw [hplace, hm.moveOffset hoffset]
      · rw [hself, Frame.mapTypes_promote rframe]
      · rw [Option.map_some, hplace]

theorem settles_frames (hS : S.Supplies P) (hm : FixesOffsets moved moved') (table : List Frame) :
    Settles P (frames S moved table) fun G g ys g' =>
      Frame.CopiedAfter S G moved none (table.zip (Frame.offsets table)) ys ∧
        frames G moved' (ys.map Frame.promote) ⟨g, .off⟩ =
          .ok (ys.map Frame.promote) ⟨g', .off⟩ := by
  rw [frames_eq]
  refine (settles_framesFrom hS hm none _).mono fun G g ys g' ⟨hcopied, again⟩ => ⟨?_, ?_⟩
  · rw [Frame.offsets_eq]
    exact hcopied
  · rw [frames_eq]
    exact again none rfl

end Frames

end JvmClass
