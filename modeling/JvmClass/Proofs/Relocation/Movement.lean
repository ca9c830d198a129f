import JvmClass.Proofs.Relocation.Lockstep
import JvmClass.Proofs.WellFormed

/-!
# Relocated code and its tables

A widened load moves all that follows it, so every offset into relocated code has to move with the
instruction that it points at. `Code.Moves code code'` relates the boundaries of old and new code by
their index and by nothing else. Copied code is never shorter than the old one, in spite of the
padding of switches; so boundaries keep their order and stay below `2 ^ 16`, and neither ranges
nor the differences of frames can wrap. `CodeBody.moved_of_relocated` says that the instructions
and all five tables follow it.
-/

namespace JvmClass

open Relocation

/-! ## Boundaries -/

namespace Code

/-- The offsets are those of one boundary: the start of the instruction at some index, or the end
of the code. -/
def Moves (code code' : List Instruction) (x y : Nat) : Prop :=
  ∃ k : Nat, (offsets code)[k]? = some x ∧ (offsets code')[k]? = some y

theorem pairwise_offsets (code : List Instruction) : (offsets code).toList.Pairwise (· < ·) := by
  have after (offset : Nat) :
      (startsFrom offset code ++ [endFrom offset code]).Pairwise (· < ·) := by
    induction code generalizing offset with
    | nil => simp [startsFrom]
    | cons i rest ih =>
      have hpos := Instruction.encodedLength_pos offset i
      have hle := le_endFrom (offset + i.encodedLength offset) rest
      unfold startsFrom endFrom
      rw [List.cons_append, List.pairwise_cons]
      refine ⟨fun n hn => ?_, ih _⟩
      rcases List.mem_append.1 hn with hn | hn
      · have := (mem_startsFrom hn).1
        omega
      · rw [List.mem_singleton] at hn
        omega
  rw [offsets_eq]
  exact after 0

theorem offsets_lt {code : List Instruction} {k k' x x' : Nat} (hk : (offsets code)[k]? = some x)
    (hk' : (offsets code)[k']? = some x') (h : k < k') : x < x' := by
  rw [← Array.getElem?_toList] at hk hk'
  obtain ⟨hlt, rfl⟩ := List.getElem?_eq_some_iff.1 hk
  obtain ⟨hlt', rfl⟩ := List.getElem?_eq_some_iff.1 hk'
  exact List.pairwise_iff_getElem.1 (pairwise_offsets code) k k' hlt hlt' h

section Order

variable {code code' : List Instruction} {x x' y y' : Nat}

theorem Moves.lt (h : Moves code code' x y) (h' : Moves code code' x' y') (hlt : x < x') :
    y < y' := by
  obtain ⟨k, hk, hy⟩ := h
  obtain ⟨k', hk', hy'⟩ := h'
  have hkk : k < k' := by
    rcases Nat.lt_trichotomy k k' with h | rfl | h
    · exact h
    · rw [hk] at hk'
      cases hk'
      omega
    · have := offsets_lt hk' hk h
      omega
  exact offsets_lt hy hy' hkk

theorem Moves.unique (h : Moves code code' x y) (h' : Moves code code' x y') : y = y' := by
  obtain ⟨k, hk, hy⟩ := h
  obtain ⟨k', hk', hy'⟩ := h'
  have hkk : k = k' := by
    rcases Nat.lt_trichotomy k k' with h | rfl | h
    · have := offsets_lt hk hk' h
      omega
    · rfl
    · have := offsets_lt hk' hk h
      omega
  subst hkk
  exact Option.some.inj (hy.symm.trans hy')

theorem Moves.le (h : Moves code code' x y) (h' : Moves code code' x' y') (hle : x ≤ x') :
    y ≤ y' := by
  rcases Nat.lt_or_eq_of_le hle with hlt | rfl
  · exact Nat.le_of_lt (h.lt h' hlt)
  · exact Nat.le_of_eq (h.unique h')

end Order

end Code

/-! ## The layout never shrinks -/

/-- Wherever a copied instruction starts, it does not end before the old one: the padding of a
switch takes up no more than what it has moved by. -/
theorem Instruction.Copied.end_le {S G : ImportSource} {m : OffsetMap} {i j : Instruction}
    (h : i.Copied S G m j) {o o' : Nat} (ho : o ≤ o') :
    o + i.encodedLength o ≤ o' + j.encodedLength o' := by
  cases h with
  | @constant op _ k =>
    simp only [encodedLength]
    by_cases hop : op = .ldc
    · split <;> split <;> omega
    · have hw : op.widened k = op := if_neg fun h => hop h.1
      rw [hw]
      omega
  | tableSwitch hd hts =>
    have hlen := hts.length_eq
    simp only [encodedLength, switchPadding]
    omega
  | lookupSwitch hd hps =>
    have hlen := hps.length_eq
    simp only [encodedLength, switchPadding]
    omega
  | _ =>
    simp only [encodedLength]
    omega

theorem Code.endFrom_le {S G : ImportSource} {m : OffsetMap} {code code' : List Instruction}
    (h : List.Forall₂ (Instruction.Copied S G m) code code') {o o' : Nat} (ho : o ≤ o') :
    endFrom o code ≤ endFrom o' code' := by
  induction h generalizing o o' with
  | nil => exact ho
  | cons hi _ ih => exact ih (hi.end_le ho)

namespace OffsetMap

variable {code code' : List Instruction} (hend : Code.endFrom 0 code' < 0x10000)
  (hlen : code'.length = code.length)

include hend hlen

theorem moves_getD {k x : Nat} (hk : (Code.indexByOffset code)[x]? = some k) :
    Code.Moves code code' x ((Code.offsets code').getD k 0) ∧
      (Code.offsets code').getD k 0 < 0x10000 := by
  have hold := Code.indexByOffset_eq_some_iff.1 hk
  have hlt := (Array.getElem?_eq_some_iff.1 hold).1
  rw [Code.size_offsets, ← hlen] at hlt
  obtain ⟨n, hn, hle⟩ := Code.getElem?_offsets hlt
  have hget : (Code.offsets code').getD k 0 = n := by
    rw [Array.getD_eq_getD_getElem?, hn, Option.getD_some]
  rw [hget]
  exact ⟨⟨k, hold, hn⟩, by omega⟩

theorem moves_of_find {x y : UInt16}
    (h : find ⟨Code.indexByOffset code, Code.offsets code'⟩ x = .ok y) :
    Code.Moves code code' x.toNat y.toNat := by
  obtain ⟨k, hk, rfl⟩ := find_eq_ok.1 h
  obtain ⟨hmoves, hlt⟩ := moves_getD hend hlen hk
  dsimp only at hk ⊢
  rwa [toNat_unit hlt]

theorem moves_of_target {t t' : UInt32}
    (h : Target ⟨Code.indexByOffset code, Code.offsets code'⟩ t t') :
    Code.Moves code code' t.toNat t'.toNat := by
  obtain ⟨k, hk, -, rfl⟩ := h
  obtain ⟨hmoves, hlt⟩ := moves_getD hend hlen hk
  dsimp only at hk ⊢
  rwa [UInt32.toNat_ofNat', Nat.mod_eq_of_lt (by omega)]

/-- A range that does not end behind the code keeps its first and its last boundary. -/
theorem moves_of_findRange {start length start' length' : UInt16}
    (h : findRange ⟨Code.indexByOffset code, Code.offsets code'⟩ start length =
      .ok (start', length')) (hr : start.toNat + length.toNat < 0x10000) :
    Code.Moves code code' start.toNat start'.toNat ∧
      Code.Moves code code' (start.toNat + length.toNat) (start'.toNat + length'.toNat) := by
  obtain ⟨s, hs, h⟩ := exceptBind_eq_ok.1 h
  obtain ⟨t, ht, h⟩ := exceptBind_eq_ok.1 h
  obtain ⟨rfl, rfl⟩ := Prod.mk.inj (Except.ok.inj h)
  have hs' := moves_of_find hend hlen hs
  have ht' := moves_of_find hend hlen ht
  rw [UInt16.toNat_add, Nat.mod_eq_of_lt hr] at ht'
  have hle := hs'.le ht' (Nat.le_add_right _ _)
  have hlt := t.toNat_lt
  refine ⟨hs', ?_⟩
  rwa [toNat_unit (by omega), Nat.add_sub_cancel' hle]

end OffsetMap

/-! ## What follows the code -/

namespace Instruction

/-- The instruction without its pool index and its targets. -/
def blank : Instruction → Instruction
  | constant o _ => constant o 0
  | field o _ => field o 0
  | invoke o _ => invoke o 0
  | invokeInterface _ count => invokeInterface 0 count
  | invokeDynamic _ => invokeDynamic 0
  | typed o _ => typed o 0
  | multiNewArray _ dimensions => multiNewArray 0 dimensions
  | branch o _ => branch o 0
  | tableSwitch _ low high targets => tableSwitch 0 low high (targets.map fun _ => 0)
  | lookupSwitch _ pairs => lookupSwitch 0 (pairs.map fun p => (p.1, 0))
  | i => i

/-- The instruction with the load that an index needs: `ldc` becomes `ldc_w` if the index exceeds
one byte. -/
def loading (index? : Option UInt16) : Instruction → Instruction
  | constant .ldc i => if index?.any (255 < ·.toNat) then constant .ldcW i else constant .ldc i
  | i => i

/-- `j` is `i` but for its pool index, which stands for the same, and its targets, which have moved
with the code. -/
structure Moved (S G : ImportSource) (s : Nat → Nat → Prop) (i j : Instruction) : Prop where
  form : j.blank = (i.loading j.poolIndex?).blank
  index : Option.Rel (SameSymbol S · G ·) i.poolIndex? j.poolIndex?
  targets : List.Forall₂ (fun t t' => s t.toNat t'.toNat) i.targets j.targets

end Instruction

section Tables

variable (S G : ImportSource) (s : Nat → Nat → Prop)

structure Handler.Moved (h h' : Handler) : Prop where
  start : s h.start.toNat h'.start.toNat
  stop : s h.stop.toNat h'.stop.toNat
  handler : s h.handler.toNat h'.handler.toNat
  catchType : SameOptional S h.catchType G h'.catchType

structure LineNumber.Moved (l l' : LineNumber) : Prop where
  start : s l.start.toNat l'.start.toNat
  line : l'.line = l.line

structure LocalVariable.Moved (v v' : LocalVariable) : Prop where
  start : s v.start.toNat v'.start.toNat
  stop : s (v.start.toNat + v.length.toNat) (v'.start.toNat + v'.length.toNat)
  name : SameSymbol S v.name G v'.name
  descriptor : SameSymbol S v.descriptor G v'.descriptor
  slot : v'.slot = v.slot

def VerificationType.Moved : VerificationType → VerificationType → Prop
  | .object i, .object j => SameSymbol S i G j
  | .uninitialized o, .uninitialized o' => s o.toNat o'.toNat
  | t, t' => t' = t

/-- The types of a frame, locals before the stack. -/
def Frame.types : Frame → List VerificationType
  | same _ | sameExtended _ | chop .. => []
  | oneItem _ item | oneItemExtended _ item => [item]
  | append _ locals => locals
  | full _ locals stack => locals ++ stack

/-- A table about code has moved with it. Of other payloads only the kind is looked at. -/
def Payload.Moved : Payload → Payload → Prop
  | .lineNumberTable ls, .lineNumberTable ls' => List.Forall₂ (LineNumber.Moved s) ls ls'
  | .localVariableTable vs, .localVariableTable vs'
  | .localVariableTypeTable vs, .localVariableTypeTable vs' =>
    List.Forall₂ (LocalVariable.Moved S G s) vs vs'
  | .stackMapTable fs, .stackMapTable fs' =>
    List.Forall₂ s (Frame.offsets fs) (Frame.offsets fs') ∧
      List.Forall₂ (fun f f' => List.Forall₂ (VerificationType.Moved S G s) f.types f'.types) fs fs'
  | p, p' => p'.name? = p.name?

end Tables

/-- Code, with its tables, has moved: every offset is that of the same boundary. -/
structure CodeBody.Moved (S G : ImportSource) (body body' : CodeBody) : Prop where
  maxStack : body'.maxStack = body.maxStack
  maxLocals : body'.maxLocals = body.maxLocals
  instructions : List.Forall₂
    (Instruction.Moved S G (Code.Moves body.instructions body'.instructions))
    body.instructions body'.instructions
  handlers : List.Forall₂ (Handler.Moved S G (Code.Moves body.instructions body'.instructions))
    body.handlers body'.handlers
  attributes : List.Forall₂ (fun a a' =>
      Payload.Moved S G (Code.Moves body.instructions body'.instructions) a.payload a'.payload)
    (body.attributes.filter Attribute.isKept) body'.attributes
  /-- What is written for the new instructions is decoded as the new instructions. -/
  decodes : ∃ assembled, Code.reassemble body'.instructions = .ok assembled ∧
    Instruction.decode G.pool assembled.bytes = .ok body'.instructions

/-- The tables of code stay within it. -/
structure CodeBody.InBounds (body : CodeBody) : Prop where
  locals : ∀ a ∈ body.attributes, ∀ vs,
    a.payload = .localVariableTable vs ∨ a.payload = .localVariableTypeTable vs →
      ∀ v ∈ vs, v.start.toNat + v.length.toNat ≤ Code.endFrom 0 body.instructions
  frames : ∀ a ∈ body.attributes, ∀ fs, a.payload = .stackMapTable fs →
    ∀ o ∈ Frame.offsets fs, o ≤ Code.endFrom 0 body.instructions

/-! ## Copies move -/

theorem Instruction.Copied.moved {S G : ImportSource} {m : OffsetMap} {s : Nat → Nat → Prop}
    (hs : ∀ t t', m.Target t t' → s t.toNat t'.toNat) {i j : Instruction}
    (h : i.Copied S G m j) : i.Moved S G s j := by
  cases h with
  | simple | access | increment | push | newArray => exact ⟨rfl, .none, .nil⟩
  | field hi | invoke hi | invokeInterface hi | invokeDynamic hi | typed hi | multiNewArray hi =>
    exact ⟨rfl, .some hi, .nil⟩
  | @constant o _ k hi =>
    refine ⟨?_, .some hi, .nil⟩
    by_cases ho : o = .ldc
    · subst ho
      by_cases hk : 255 < k.toNat
      · have hw : Opcode.ldc.widened k = .ldcW := if_pos ⟨rfl, hk⟩
        simp [hw, loading, poolIndex?, blank, hk]
      · have hw : Opcode.ldc.widened k = .ldc := if_neg fun h => hk h.2
        simp [hw, loading, poolIndex?, blank, hk]
    · have hw : o.widened k = o := if_neg fun h => ho h.1
      have hl (index? : Option UInt16) (l : UInt16) :
          (Instruction.constant o l).loading index? = .constant o l := by
        cases o <;> first | rfl | exact absurd rfl ho
      rw [hw, hl]
      rfl
  | branch ht => exact ⟨rfl, .none, .cons (hs _ _ ht) .nil⟩
  | tableSwitch hd hts =>
    have hlen := hts.length_eq
    refine ⟨?_, .none, .cons (hs _ _ hd) (hts.imp hs)⟩
    simp [loading, blank, hlen]
  | lookupSwitch hd hps =>
    refine ⟨?_, .none, .cons (hs _ _ hd) ?_⟩
    · have hkeys := map_eq_of_forall₂ (f := fun p : Int32 × UInt32 => (p.1, (0 : UInt32)))
        (g := fun p : Int32 × UInt32 => (p.1, (0 : UInt32)))
        (hps.imp fun p p' h => by rw [h.1])
      simp only [loading, blank, hkeys]
    · exact List.forall₂_map_left_iff.2 (List.forall₂_map_right_iff.2
        (hps.imp fun p p' h => hs _ _ h.2))

theorem Handler.Copied.moved {S G : ImportSource} {m : OffsetMap} {s : Nat → Nat → Prop}
    (hs : ∀ x y, m.find x = .ok y → s x.toNat y.toNat) {h h' : Handler}
    (hc : h.Copied S G m h') : h.Moved S G s h' :=
  ⟨hs _ _ hc.start, hs _ _ hc.stop, hs _ _ hc.handler, hc.catchType⟩

/-- The difference to a later offset does not wrap. -/
theorem Frame.offsetAfter_deltaAfter {previous : Option UInt16} {offset : UInt16}
    (h : ∀ p, previous = some p → p.toNat < offset.toNat) :
    offsetAfter (previous.map UInt16.toNat) (deltaAfter previous offset).toNat = offset.toNat := by
  cases previous with
  | none => rfl
  | some p =>
    have hlt := h p rfl
    have hsub : (offset - p).toNat = offset.toNat - p.toNat :=
      UInt16.toNat_sub_of_le _ _ (UInt16.le_iff_toNat_le.2 (Nat.le_of_lt hlt))
    have hone : (offset - p - 1).toNat = offset.toNat - p.toNat - 1 := by
      rw [UInt16.toNat_sub_of_le, hsub]
      · rfl
      · rw [UInt16.le_iff_toNat_le, hsub, UInt16.toNat_one]
        omega
    show p.toNat + (offset - p - 1).toNat + 1 = offset.toNat
    rw [hone]
    omega

section Follows

variable {S G : ImportSource} {code code' : List Instruction}
  (hend : Code.endFrom 0 code' < 0x10000) (hlen : code'.length = code.length)

include hend hlen

theorem VerificationType.Copied.moved {t t' : VerificationType}
    (h : t.Copied S G (some ⟨Code.indexByOffset code, Code.offsets code'⟩) t') :
    t.Moved S G (Code.Moves code code') t' := by
  cases h with
  | object hi => exact hi
  | uninitialized ho => exact OffsetMap.moves_of_find hend hlen ho
  | _ => rfl

theorem Frame.Copied.moved {f f' : Frame}
    (h : Frame.Copied S G (some ⟨Code.indexByOffset code, Code.offsets code'⟩) f f') :
    List.Forall₂ (VerificationType.Moved S G (Code.Moves code code')) f.types f'.types := by
  have types {ts ts' : List VerificationType} (h : List.Forall₂ (VerificationType.Copied S G
      (some ⟨Code.indexByOffset code, Code.offsets code'⟩)) ts ts') :
      List.Forall₂ (VerificationType.Moved S G (Code.Moves code code')) ts ts' :=
    h.imp fun _ _ ht => ht.moved hend hlen
  cases h with
  | same | sameExtended | chop => exact .nil
  | oneItem ht | oneItemExtended ht => exact .cons (ht.moved hend hlen) .nil
  | append hts => exact types hts
  | full hts hus => exact List.rel_append (types hts) (types hus)

/-- Since boundaries keep their order, a later frame stands behind the one before it by a
difference that two bytes hold. `p` and `q` are the old and the new offset of that one. -/
theorem Frame.CopiedAfter.offsets {fs fs' : List Frame} {previous : Option Nat}
    {previous' : Option UInt16}
    (hprevious : Option.Rel (fun p q => Code.Moves code code' p q.toNat) previous previous')
    (h : Frame.CopiedAfter S G (some ⟨Code.indexByOffset code, Code.offsets code'⟩) previous'
      (fs.zip (offsetsFrom previous fs)) fs')
    (hbound : ∀ o ∈ offsetsFrom previous fs, o < 0x10000) :
    List.Forall₂ (Code.Moves code code') (offsetsFrom previous fs)
        (offsetsFrom (previous'.map UInt16.toNat) fs') ∧
      List.Forall₂ (fun f f' => List.Forall₂
        (VerificationType.Moved S G (Code.Moves code code')) f.types f'.types) fs fs' := by
  induction fs generalizing previous previous' fs' with
  | nil =>
    cases h
    simp
  | cons f fs ih =>
    rw [offsetsFrom_cons] at h hbound ⊢
    obtain ⟨ho, hrest⟩ := List.forall_mem_cons.1 hbound
    cases h with
    | @cons _ _ _ _ f' o' fs' hoffset hdelta hframe hcopied =>
      have hmoves := OffsetMap.moves_of_find hend hlen hoffset
      rw [toNat_unit ho] at hmoves
      have horder : ∀ q, previous' = some q → q.toNat < o'.toNat := by
        rintro q rfl
        cases hprevious with
        | some hp => exact hp.lt hmoves (by simp only [offsetAfter]; omega)
      have hnew := offsetAfter_deltaAfter horder
      obtain ⟨hoffsets, htypes⟩ := ih (.some hmoves) hcopied hrest
      rw [offsetsFrom_cons, hdelta, hnew]
      exact ⟨.cons hmoves hoffsets, .cons (hframe.moved hend hlen) htypes⟩

theorem LocalVariable.Copied.moved {v v' : LocalVariable}
    (h : v.Copied S G (some ⟨Code.indexByOffset code, Code.offsets code'⟩) v')
    (hr : v.start.toNat + v.length.toNat < 0x10000) :
    v.Moved S G (Code.Moves code code') v' := by
  obtain ⟨hstart, hstop⟩ := OffsetMap.moves_of_findRange hend hlen h.range hr
  exact ⟨hstart, hstop, h.name, h.descriptor, h.slot⟩

theorem forall₂_locals {vs vs' : List LocalVariable}
    (h : List.Forall₂ (LocalVariable.Copied S G
      (some ⟨Code.indexByOffset code, Code.offsets code'⟩)) vs vs')
    (hr : ∀ v ∈ vs, v.start.toNat + v.length.toNat < 0x10000) :
    List.Forall₂ (LocalVariable.Moved S G (Code.Moves code code')) vs vs' := by
  induction h with
  | nil => exact .nil
  | cons hv _ ih =>
    obtain ⟨hfirst, hrest⟩ := List.forall_mem_cons.1 hr
    exact .cons (hv.moved hend hlen hfirst) (ih hrest)

theorem Payload.Copied.moved {p p' : Payload}
    (h : Payload.Copied S G (some ⟨Code.indexByOffset code, Code.offsets code'⟩) p p')
    (hlocals : ∀ vs, p = .localVariableTable vs ∨ p = .localVariableTypeTable vs →
      ∀ v ∈ vs, v.start.toNat + v.length.toNat < 0x10000)
    (hframes : ∀ fs, p = .stackMapTable fs → ∀ o ∈ Frame.offsets fs, o < 0x10000) :
    Payload.Moved S G (Code.Moves code code') p p' := by
  cases h with
  | lineNumberTable hls =>
    exact hls.imp fun l l' hl => ⟨OffsetMap.moves_of_find hend hlen hl.start, hl.line⟩
  | localVariableTable hvs => exact forall₂_locals hend hlen hvs (hlocals _ (.inl rfl))
  | localVariableTypeTable hvs => exact forall₂_locals hend hlen hvs (hlocals _ (.inr rfl))
  | @stackMapTable _ fs fs' hfs =>
    have hbound := hframes _ rfl
    show List.Forall₂ _ (Frame.offsets fs) (Frame.offsets fs') ∧ _
    rw [Frame.offsets_eq] at hfs hbound ⊢
    rw [Frame.offsets_eq]
    exact hfs.offsets hend hlen .none hbound
  | _ => rfl

theorem forall₂_attributes {as as' : List Attribute}
    (h : List.Forall₂ (Attribute.Copied S G
      (some ⟨Code.indexByOffset code, Code.offsets code'⟩)) as as')
    (hlocals : ∀ a ∈ as, ∀ vs,
      a.payload = .localVariableTable vs ∨ a.payload = .localVariableTypeTable vs →
        ∀ v ∈ vs, v.start.toNat + v.length.toNat < 0x10000)
    (hframes : ∀ a ∈ as, ∀ fs, a.payload = .stackMapTable fs →
      ∀ o ∈ Frame.offsets fs, o < 0x10000) :
    List.Forall₂ (fun a a' => Payload.Moved S G (Code.Moves code code') a.payload a'.payload)
      as as' := by
  induction h with
  | nil => exact .nil
  | cons ha _ ih =>
    obtain ⟨hfirst, hrest⟩ := List.forall_mem_cons.1 hlocals
    obtain ⟨hfirst', hrest'⟩ := List.forall_mem_cons.1 hframes
    obtain ⟨-, hpayload⟩ := ha
    exact .cons (hpayload.moved hend hlen hfirst hfirst') (ih hrest hrest')

end Follows

/-! ## Runs -/

/-- The instructions that a relocation returns have been laid out and encoded. -/
theorem Relocation.encodeFrom_of_instructions {S : ImportSource} {code code' : List Instruction}
    {m : OffsetMap} {b b' : Building} (h : instructions S code b = .ok (code', m) b') :
    Code.endFrom 0 code' < 0x10000 ∧ ∃ bytes, Code.encodeFrom 0 code' = .ok bytes := by
  obtain ⟨imported, b1, -, h⟩ := bind_eq_ok.1 h
  obtain ⟨assembled, b2, hassemble, h⟩ := bind_eq_ok.1 h
  obtain ⟨hassemble, -⟩ := ofExcept_eq_ok.1 hassemble
  obtain ⟨e, -⟩ := pure_eq_ok.1 h
  cases e
  obtain ⟨hend, hplaced, hencode, -⟩ := Code.assemble_eq_ok_iff.1 hassemble
  rw [← hplaced.end_eq] at hend
  exact ⟨hend, _, hencode⟩

theorem GrowingPool.Inv.mono {P Q : Symbol → Prop} {g : GrowingPool} (h : g.Inv P)
    (hPQ : ∀ t, P t → Q t) : g.Inv Q := by
  refine { h with symbols := fun i c hc hr => ?_ }
  obtain ⟨t, ht, hp⟩ := h.symbols i c hc hr
  exact ⟨t, ht, hPQ t hp⟩

theorem ClassFile.Contains.decode {bytes : Bytes} {c : ClassFile} (hr : read bytes = .ok c)
    {name : UInt16} {body : CodeBody} (h : c.Contains ⟨name, .code body⟩) :
    ∃ code, Instruction.decode c.pool code = .ok body.instructions := by
  obtain ⟨_, _, -, _, _, -, hbody, -⟩ := read_eq_ok_iff.1 hr
  obtain ⟨depth, codes, used, hs⟩ := h.spells hbody
  obtain ⟨code, _, -, hd⟩ := hs.exists_code
  exact ⟨code, hd⟩

/-- Code that is relocated keeps its control flow, and all its tables move with it. `G` is whatever
the pool becomes later. -/
theorem CodeBody.moved_of_relocated {bytes : Bytes} {c : ClassFile}
    (hr : ClassFile.read bytes = .ok c) {name : UInt16} {body : CodeBody}
    (hc : c.Contains ⟨name, .code body⟩) (hb : body.InBounds) {P : Symbol → Prop}
    {g g' : GrowingPool} (hg : g.Inv P) {log log' : Log} {body' : CodeBody}
    (h : codeBody (Draft.importSource c) body ⟨g, log⟩ = .ok body' ⟨g', log'⟩) {G : ImportSource}
    (hG : g'.source ≤ G) : body.Moved (Draft.importSource c) G body' := by
  have hS : (Draft.importSource c).Supplies fun _ => True :=
    ⟨(Draft.supplies_of_read hr).readable, fun _ _ _ => trivial⟩
  -- the run is the same with no log
  obtain ⟨l, hoff⟩ := (lockstep_codeBody body body (.refl body) g log .off body' g').1 ⟨log', h⟩
  obtain ⟨_, e, -, hpost⟩ := settles_codeBody hS body g body' _ (hg.mono fun _ _ => trivial) hoff
  cases e
  obtain ⟨hcopied, -⟩ := hpost G hG
  obtain ⟨code, hd⟩ := hc.decode hr
  obtain ⟨maxStack, maxLocals, old, handlers, inner⟩ := body
  obtain ⟨hinstructions, hhandlers, hattributes⟩ := hcopied
  rw [codeBody_eq] at hoff
  obtain ⟨⟨new, m⟩, b1, hrun, hoff⟩ := bind_eq_ok.1 hoff
  obtain ⟨_, b2, -, hoff⟩ := bind_eq_ok.1 hoff
  obtain ⟨_, b3, -, hoff⟩ := bind_eq_ok.1 hoff
  obtain ⟨e, -⟩ := pure_eq_ok.1 hoff
  cases e
  obtain ⟨hend, out, hencode⟩ := encodeFrom_of_instructions hrun
  have hlen := hinstructions.length_eq.symm
  have hbound : Code.endFrom 0 old < 0x10000 :=
    Nat.lt_of_le_of_lt (Code.endFrom_le hinstructions (Nat.le_refl 0)) hend
  have htargets := Code.targetsIn_of_copied hinstructions hend
  have hassemble := Code.reassemble_eq_ok htargets hend hencode
  refine ⟨rfl, rfl, ?_, ?_, ?_, _, hassemble, (Code.decode_of_copied hd hinstructions hassemble).1⟩
  · exact hinstructions.imp fun i j hij => hij.moved fun _ _ => OffsetMap.moves_of_target hend hlen
  · exact hhandlers.imp fun h h' hh => hh.moved fun _ _ => OffsetMap.moves_of_find hend hlen
  · refine forall₂_attributes hend hlen hattributes.forall₂ ?_ ?_
    · intro a ha vs hvs v hv
      exact Nat.lt_of_le_of_lt (hb.locals a (List.mem_of_mem_filter ha) vs hvs v hv) hbound
    · intro a ha fs hfs o ho
      exact Nat.lt_of_le_of_lt (hb.frames a (List.mem_of_mem_filter ha) fs hfs o ho) hbound

/-! ## Code that moves -/

namespace Relocation

/-- A method that loads a number and branches over nothing, with a table of each kind. -/
def tabledBody : CodeBody :=
  ⟨1, 1, [.constant .ldc 1, .branch .ifeq 5, .simple .vreturn], [⟨0, 2, 5, 0⟩],
    [⟨7, .lineNumberTable [⟨0, 1⟩, ⟨5, 2⟩]⟩, ⟨8, .localVariableTable [⟨2, 4, 10, 11, 0⟩]⟩,
      ⟨9, .stackMapTable [.oneItem 5 (.uninitialized 2)]⟩]⟩

def tabledClass : ClassFile :=
  ⟨0, 49, ⟨#[.integer 7, .utf8 "A", .classRef 2, .utf8 "m", .utf8 "()V", .utf8 "Code",
      .utf8 "LineNumberTable", .utf8 "LocalVariableTable", .utf8 "StackMapTable", .utf8 "x",
      .utf8 "I"]⟩, ⟨0x21⟩, 3, 0, [], [], [⟨⟨9⟩, 4, 5, [⟨6, .code tabledBody⟩]⟩], []⟩

def tabledCode : Bytes := [0x12, 1, 0x99, 0, 3, 0xB1]

def tabledPool : Bytes :=
  [0, 12, 3, 0, 0, 0, 7, 1, 0, 1, 0x41, 7, 0, 2, 1, 0, 1, 0x6D, 1, 0, 3, 0x28, 0x29, 0x56, 1, 0, 4,
    0x43, 0x6F, 0x64, 0x65, 1, 0, 15, 0x4C, 0x69, 0x6E, 0x65, 0x4E, 0x75, 0x6D, 0x62, 0x65, 0x72,
    0x54, 0x61, 0x62, 0x6C, 0x65, 1, 0, 18, 0x4C, 0x6F, 0x63, 0x61, 0x6C, 0x56, 0x61, 0x72, 0x69,
    0x61, 0x62, 0x6C, 0x65, 0x54, 0x61, 0x62, 0x6C, 0x65, 1, 0, 13, 0x53, 0x74, 0x61, 0x63, 0x6B,
    0x4D, 0x61, 0x70, 0x54, 0x61, 0x62, 0x6C, 0x65, 1, 0, 1, 0x78, 1, 0, 1, 0x49]

def tabledAttribute : Bytes :=
  [0, 6, 0, 0, 0, 72, 0, 1, 0, 1, 0, 0, 0, 6] ++ tabledCode ++
    [0, 1, 0, 0, 0, 2, 0, 5, 0, 0, 0, 3] ++
    [0, 7, 0, 0, 0, 10, 0, 2, 0, 0, 0, 1, 0, 5, 0, 2] ++
    [0, 8, 0, 0, 0, 12, 0, 1, 0, 2, 0, 4, 0, 10, 0, 11, 0, 0] ++
    [0, 9, 0, 0, 0, 6, 0, 1, 69, 8, 0, 2]

def withTables : Bytes :=
  [0xCA, 0xFE, 0xBA, 0xBE, 0, 0, 0, 49] ++ tabledPool ++
    [0, 0x21, 0, 3, 0, 0, 0, 0, 0, 0, 0, 1, 0, 9, 0, 4, 0, 5, 0, 1] ++ tabledAttribute ++ [0, 0]

theorem decode_tabledCode :
    Instruction.decode tabledClass.pool tabledCode = .ok tabledBody.instructions := by
  refine Code.decode_eq_ok_iff.2 ⟨Code.SpellsFrom.of_encode ?_ ?_ (by rfl), ?_⟩
  · simp only [tabledBody, List.forall_mem_cons]
    refine ⟨⟨.inl rfl, ?_⟩, ⟨rfl, by simp [Instruction.poolIndex?]⟩,
      ⟨rfl, by simp [Instruction.poolIndex?]⟩, by simp⟩
    rintro _ _ ⟨⟩ ⟨⟩
    exact ⟨.integer 7, rfl, rfl⟩
  · simp only [tabledBody, List.forall_mem_cons, Instruction.InReach, Instruction.targets]
    refine ⟨by simp, fun o ho => ⟨?_, by simp⟩, by simp⟩
    have ho : o < 6 := ho
    have hdistance : Instruction.distance o 5 = 5 - (o : Int) := rfl
    exact ⟨by omega, by omega⟩
  · simp only [tabledBody, Code.TargetsIn, List.forall_mem_cons, Instruction.targets]
    exact ⟨by simp, ⟨by decide, by simp⟩, by simp⟩

theorem spells_tabled (depth : Nat) :
    (Attribute.mk 6 (.code tabledBody)).Spells tabledClass.pool (depth + 2) [tabledCode]
      tabledAttribute := by
  have hlines : Attribute.Spells tabledClass.pool (depth + 1)
      ⟨7, .lineNumberTable [⟨0, 1⟩, ⟨5, 2⟩]⟩ [] [0, 7, 0, 0, 0, 10, 0, 2, 0, 0, 0, 1, 0, 5, 0, 2] :=
    ⟨"LineNumberTable", _, by cbv, by decide, ⟨rfl, trivial, rfl, rfl⟩, rfl⟩
  have hlocals : Attribute.Spells tabledClass.pool (depth + 1)
      ⟨8, .localVariableTable [⟨2, 4, 10, 11, 0⟩]⟩ []
      [0, 8, 0, 0, 0, 12, 0, 1, 0, 2, 0, 4, 0, 10, 0, 11, 0, 0] :=
    ⟨"LocalVariableTable", _, by cbv, by decide, ⟨rfl, trivial, rfl, rfl⟩, rfl⟩
  have hreadable : (Frame.oneItem 5 (.uninitialized 2)).IsReadable := by
    show 5 < 64
    decide
  have hframes : Attribute.Spells tabledClass.pool (depth + 1)
      ⟨9, .stackMapTable [.oneItem 5 (.uninitialized 2)]⟩ []
      [0, 9, 0, 0, 0, 6, 0, 1, 69, 8, 0, 2] :=
    ⟨"StackMapTable", _, by cbv, by decide,
      ⟨rfl, List.forall_mem_singleton.2 hreadable, rfl, rfl⟩, rfl⟩
  have hall := GathersAll.cons hlines (.cons hlocals (.cons hframes .nil))
  have htable : SpellsTable (Attribute.Spells tabledClass.pool (depth + 1)) tabledBody.attributes
      [] _ := ⟨by decide, _, hall, rfl⟩
  have hbody : CodeBody.SpellsWith tabledClass.pool (Attribute.Spells tabledClass.pool (depth + 1))
      tabledBody [tabledCode] _ :=
    ⟨_, [], _, by decide, decode_tabledCode, by decide, htable, rfl, rfl⟩
  exact ⟨"Code", _, by cbv, by decide, ⟨rfl, hbody⟩, rfl⟩

theorem read_withTables : ClassFile.read withTables = .ok tabledClass := by
  have hreadable : tabledClass.pool.IsReadable :=
    ⟨by decide, tabledClass.pool.slots.toList, rfl, by simp [tabledClass, Constant.IsReadable]⟩
  have hencode : tabledClass.pool.encode = .ok tabledPool := by rfl
  have hvalid : tabledClass.IsValid :=
    { minMajor_le := by decide
      le_maxMajor := by decide
      pool := by cbv
      thisClass := ⟨"A", by cbv⟩
      superClass := fun h => absurd rfl h
      bootstrap := by cbv }
  have hmethod : Member.Spells tabledClass.pool 2 ⟨⟨9⟩, 4, 5, [⟨6, .code tabledBody⟩]⟩ [tabledCode]
      ([0, 9, 0, 4, 0, 5, 0, 1] ++ tabledAttribute) :=
    ⟨_, .singleton (spells_tabled 0), rfl⟩
  refine ClassFile.read_of_method hvalid hreadable hencode rfl rfl rfl rfl hmethod ?_
  simp only [withTables, List.append_assoc]
  rfl

/-- The code with the load that it needs behind 255 other entries. -/
def widenedCode (target : UInt32) (j : UInt16) : List Instruction :=
  [.constant .ldcW j, .branch .ifeq target, .simple .vreturn]

def tabledMap (j : UInt16) : OffsetMap :=
  ⟨Code.indexByOffset tabledBody.instructions, Code.offsets (widenedCode 5 j)⟩

theorem find_tabled (j : UInt16) :
    (tabledMap j).find 0 = .ok 0 ∧ (tabledMap j).find 2 = .ok 3 ∧
      (tabledMap j).find 5 = .ok 6 ∧ (tabledMap j).find 6 = .ok 7 :=
  ⟨OffsetMap.find_eq_ok.2 ⟨0, Code.indexByOffset_eq_some_iff.2 rfl, rfl⟩,
    OffsetMap.find_eq_ok.2 ⟨1, Code.indexByOffset_eq_some_iff.2 rfl, rfl⟩,
    OffsetMap.find_eq_ok.2 ⟨2, Code.indexByOffset_eq_some_iff.2 rfl, rfl⟩,
    OffsetMap.find_eq_ok.2 ⟨3, Code.indexByOffset_eq_some_iff.2 rfl, rfl⟩⟩

theorem instructions_tabled {S : ImportSource} {g g' : GrowingPool} {j : UInt16}
    (hj : 255 < j.toNat) (h : index S 1 ⟨g, .off⟩ = .ok j ⟨g', .off⟩) :
    instructions S tabledBody.instructions ⟨g, .off⟩ =
      .ok (widenedCode 6 j, tabledMap j) ⟨g', .off⟩ := by
  have hmap : tabledBody.instructions.mapM (instruction S) ⟨g, .off⟩ =
      .ok (widenedCode 5 j) ⟨g', .off⟩ := by
    have hload : Opcode.ldc.widened j = .ldcW := if_pos ⟨rfl, hj⟩
    show ([_, _, _].mapM (instruction S)) _ = _
    rw [List.mapM_cons, instruction, bind_assoc, bind_run h]
    show EStateM.Result.ok [Instruction.constant (Opcode.ldc.widened j) j, _, _] _ = _
    rw [hload]
    rfl
  have hplace : Code.placeTarget (Code.offsets (widenedCode 5 j)) 3
      (Code.resolveOffset (Code.indexByOffset tabledBody.instructions)) 3 5 = .ok 6 := by
    have hindex : (Code.indexByOffset tabledBody.instructions)[(5 : UInt32).toNat]? = some 2 :=
      Code.indexByOffset_eq_some_iff.2 rfl
    rw [Code.placeTarget, Code.resolveOffset, hindex]
    rfl
  have hassemble : Code.assemble (widenedCode 5 j)
      (Code.resolveOffset (Code.indexByOffset tabledBody.instructions)) =
      .ok ⟨0x13 :: Bytes.ofU16 j ++ [0x99, 0, 3, 0xB1], Code.offsets (widenedCode 5 j),
        widenedCode 6 j⟩ := by
    have hend : 7 < 0x10000 := by decide
    have hbranch := congrArg (Functor.map (Instruction.branch .ifeq)) hplace
    have hrest : Code.encodeFrom 3 [.branch .ifeq 6, .simple .vreturn] =
        .ok [0x99, 0, 3, 0xB1] := by
      rfl
    have hencode : Code.encodeFrom 0 (widenedCode 6 j) =
        .ok (0x13 :: Bytes.ofU16 j ++ [0x99, 0, 3, 0xB1]) := by
      show (Code.encodeFrom 3 [.branch .ifeq 6, .simple .vreturn] >>= fun v => .ok (_ ++ v)) = _
      rw [hrest]
      rfl
    exact Code.assemble_eq_ok_iff.2 ⟨hend, ⟨_, _, rfl, ⟨_, _, hbranch, ⟨_, _, rfl, rfl, rfl⟩, rfl⟩,
      rfl⟩, hencode, rfl⟩
  rw [instructions, bind_run hmap, bind_run (ofExcept_eq_ok.2 ⟨hassemble, rfl⟩)]
  rfl

section Runs

variable {S : ImportSource} {b b1 b2 : Building}

theorem filterMapM_attribute_run {moved : Option OffsetMap} {name name' : UInt16} {p p' : Payload}
    (hkept : (Attribute.mk name p).isKept = true) (hname : index S name b = .ok name' b1)
    (hp : payload S moved p b1 = .ok p' b2) {as as' : List Attribute} {b3 : Building}
    (has : as.filterMapM (attribute? S moved) b2 = .ok as' b3) :
    (⟨name, p⟩ :: as).filterMapM (attribute? S moved) b = .ok (⟨name', p'⟩ :: as') b3 := by
  have ha : attribute? S moved ⟨name, p⟩ b = .ok (some ⟨name', p'⟩) b2 := by
    rw [attribute?_eq S moved (Attribute.isKept_iff.1 hkept), bind_run hname, bind_run hp]
    rfl
  rw [List.filterMapM_cons, bind_run ha]
  exact bind_eq_ok.2 ⟨as', b3, has, rfl⟩

theorem handlers_tabled (j : UInt16) :
    tabledBody.handlers.mapM (handler S (tabledMap j)) b = .ok [⟨0, 3, 6, 0⟩] b := by
  obtain ⟨h0, h2, h5, -⟩ := find_tabled j
  show ([Handler.mk 0 2 5 0].mapM (handler S (tabledMap j)) : Build _) b = _
  simp only [List.mapM_cons, handler, h0, h2, h5]
  rfl

theorem lines_tabled (j : UInt16) :
    payload S (some (tabledMap j)) (.lineNumberTable [⟨0, 1⟩, ⟨5, 2⟩]) b =
      .ok (.lineNumberTable [⟨0, 1⟩, ⟨6, 2⟩]) b := by
  obtain ⟨h0, -, h5, -⟩ := find_tabled j
  simp only [payload, moveOffset, List.mapM_cons, h0, h5]
  rfl

theorem localVariableTable_run {m : OffsetMap} {v : LocalVariable} {start length x i : UInt16}
    (hrange : m.findRange v.start v.length = .ok (start, length)) (hx : index S v.name b = .ok x b1)
    (hi : index S v.descriptor b1 = .ok i b2) :
    payload S (some m) (.localVariableTable [v]) b =
      .ok (.localVariableTable [⟨start, length, x, i, v.slot⟩]) b2 := by
  have hlocal : localVariable S (some m) v b = .ok ⟨start, length, x, i, v.slot⟩ b2 := by
    rw [localVariable, hrange]
    refine (bind_run rfl).trans ?_
    refine (bind_run hx).trans ?_
    exact bind_run hi
  rw [payload, List.mapM_cons, bind_assoc, bind_run hlocal]
  rfl

theorem locals_tabled (j : UInt16) {x i : UInt16} (hx : index S 10 b = .ok x b1)
    (hi : index S 11 b1 = .ok i b2) :
    payload S (some (tabledMap j)) (.localVariableTable [⟨2, 4, 10, 11, 0⟩]) b =
      .ok (.localVariableTable [⟨3, 4, x, i, 0⟩]) b2 := by
  obtain ⟨-, h2, -, h6⟩ := find_tabled j
  have hrange : (tabledMap j).findRange 2 4 = .ok (3, 4) :=
    exceptBind_eq_ok.2 ⟨3, h2, exceptBind_eq_ok.2 ⟨7, h6, rfl⟩⟩
  exact localVariableTable_run hrange hx hi

theorem frames_tabled (j : UInt16) :
    payload S (some (tabledMap j)) (.stackMapTable [.oneItem 5 (.uninitialized 2)]) b =
      .ok (.stackMapTable [.oneItem 6 (.uninitialized 3)]) b := by
  obtain ⟨-, h2, h5, -⟩ := find_tabled j
  have hoffset : (tabledMap j).find (UInt16.ofNat 5) = .ok 6 := h5
  rw [payload, frames_eq]
  show (framesFrom _ _ _ [(_, 5)] >>= _ : Build Payload) _ = _
  simp only [framesFrom, moveOffset, hoffset, Frame.withDelta, Frame.mapTypes, verificationType, h2]
  rfl

end Runs

/-- Behind 255 entries the load takes one byte more, and all else follows. -/
theorem codeBody_tabled {g : GrowingPool} (hg : g.Inv (· ≠ .node (.integer 7) []))
    (hsize : 255 ≤ g.pool.size) (hfit : g.pool.size + 6 < 0xFFFF) :
    ∃ j lines locals x i frames g',
      codeBody (Draft.importSource tabledClass) tabledBody ⟨g, .off⟩ =
        .ok ⟨1, 1, widenedCode 6 j, [⟨0, 3, 6, 0⟩],
          [⟨lines, .lineNumberTable [⟨0, 1⟩, ⟨6, 2⟩]⟩,
            ⟨locals, .localVariableTable [⟨3, 4, x, i, 0⟩]⟩,
            ⟨frames, .stackMapTable [.oneItem 6 (.uninitialized 3)]⟩]⟩ ⟨g', .off⟩ := by
  have text {i j : UInt16} {s : String} {g g' : GrowingPool}
      (hi : tabledClass.pool.get? i = some (.utf8 s)) (h : Grow.text s g = .ok j g') :
      index (Draft.importSource tabledClass) i ⟨g, .off⟩ = .ok j ⟨g', .off⟩ :=
    Draft.index_text hi h
  obtain ⟨g1, h1, hsize1⟩ := Draft.integer_run hg (by omega)
  obtain ⟨lines, g2, h2, hsize2⟩ :=
    Grow.text_succeeds (s := "LineNumberTable") (g := g1) (by decide) (by omega)
  obtain ⟨locals, g3, h3, hsize3⟩ :=
    Grow.text_succeeds (s := "LocalVariableTable") (g := g2) (by decide) (by omega)
  obtain ⟨x, g4, h4, hsize4⟩ := Grow.text_succeeds (s := "x") (g := g3) (by decide) (by omega)
  obtain ⟨i, g5, h5, hsize5⟩ := Grow.text_succeeds (s := "I") (g := g4) (by decide) (by omega)
  obtain ⟨frames, g6, h6, -⟩ :=
    Grow.text_succeeds (s := "StackMapTable") (g := g5) (by decide) (by omega)
  have hj : 255 < g.next.toNat := by
    rw [GrowingPool.next, toNat_unit (by omega)]
    omega
  have hload : index (Draft.importSource tabledClass) 1 ⟨g, .off⟩ = .ok g.next ⟨g1, .off⟩ :=
    grow_eq_ok.2 ⟨g1, rfl, (Draft.importEntry_integer rfl g).trans h1⟩
  have hnil : [].filterMapM (attribute? (Draft.importSource tabledClass) (some (tabledMap g.next)))
      ⟨g6, .off⟩ = .ok [] ⟨g6, .off⟩ := rfl
  have hframes := filterMapM_attribute_run rfl (text (i := 9) rfl h6) (frames_tabled g.next) hnil
  have hlocals := filterMapM_attribute_run rfl (text (i := 8) rfl h3)
    (locals_tabled g.next (text rfl h4) (text rfl h5)) hframes
  have hinner := filterMapM_attribute_run rfl (text (i := 7) rfl h2) (lines_tabled g.next) hlocals
  refine ⟨g.next, lines, locals, x, i, frames, g6, ?_⟩
  show codeBody _ ⟨1, 1, tabledBody.instructions, tabledBody.handlers, tabledBody.attributes⟩ _ = _
  rw [codeBody_eq, bind_run (instructions_tabled hj hload), bind_run (handlers_tabled g.next)]
  exact bind_eq_ok.2 ⟨_, _, hinner, rfl⟩

theorem inBounds_tabled : tabledBody.InBounds := by
  have hend : Code.endFrom 0 tabledBody.instructions = 6 := rfl
  have hoffsets : Frame.offsets [Frame.oneItem 5 (.uninitialized 2)] = [5] := rfl
  refine ⟨?_, ?_⟩ <;> rw [hend] <;> simp [tabledBody, hoffsets]

end Relocation

theorem CodeBody.moved_tabled :
    ∃ g g' body', ClassFile.read withTables = .ok tabledClass ∧
      tabledClass.Contains ⟨6, .code tabledBody⟩ ∧ tabledBody.InBounds ∧
      g.Inv (· ≠ .node (.integer 7) []) ∧
      codeBody (Draft.importSource tabledClass) tabledBody ⟨g, .off⟩ = .ok body' ⟨g', .off⟩ ∧
      Code.Moves tabledBody.instructions body'.instructions 2 3 ∧
      tabledBody.Moved (Draft.importSource tabledClass) g'.source body' := by
  have hlength : Draft.manyNames.length = 256 := by simp [Draft.manyNames]
  have hempty : GrowingPool.empty.pool.size = 0 := rfl
  obtain ⟨is, g, -, grows, his, hsize⟩ :=
    Draft.classRefs_run (P := (· ≠ .node (.integer 7) [])) (by simp [Symbol.text])
      (by simp [Symbol.classRef])
      (fun _ => Draft.length_encode_lt) GrowingPool.inv_empty (by omega)
  have hmany : 256 ≤ g.pool.size := hlength ▸ Draft.length_le_size Draft.nodup_manyNames his
  obtain ⟨j, _, _, _, _, _, g', hrun⟩ := codeBody_tabled grows.inv (by omega) (by omega)
  have hc : tabledClass.Contains ⟨6, .code tabledBody⟩ :=
    .inr ⟨_, .inr List.mem_cons_self, .here List.mem_cons_self⟩
  exact ⟨g, g', _, read_withTables, hc, inBounds_tabled, grows.inv, hrun, ⟨1, rfl, rfl⟩,
    moved_of_relocated read_withTables hc inBounds_tabled grows.inv hrun (le_refl _)⟩

end JvmClass
