import JvmClass.Proofs.Code.Assembly
import JvmClass.Proofs.Code.Commands
import JvmClass.Proofs.Code.Walks
import JvmClass.Proofs.Pool.Runs

/-!
# Labels are resolved

Laying out an emission puts an offset in the place of each label: that of the instruction at which
the label was bound last, or the length of the code if no instruction follows the binding
(`Emission.Places`). The instructions that commands emit have room for their operands
(`Instruction.Sized`), so that laying out never fails for the size of one.
-/

namespace JvmClass

/-- An operand does not fit in the bytes it has. -/
def Error.isOperandSize : Error → Bool
  | .malformedAttribute _ (.code .needsWideForm _) => true
  | .malformedAttribute _ (.code .deltaTooLarge _) => true
  | .malformedAttribute _ (.code .pushTooLarge _) => true
  | _ => false

/-! ## Operands have room -/

namespace Instruction

/-- Wherever the instruction stands, it is written in the bytes it takes, unless it is a branch
that does not reach its target. -/
def Sized (i : Instruction) : Prop :=
  ∀ offset, (∃ out, i.encode offset = .ok out ∧ out.length = i.encodedLength offset) ∨
    ∃ delta, i.encode offset = .error (.branchOutOfRange offset delta)

theorem sized_of_operands {i : Instruction} (hnarrow : i.isOverwide = false)
    (h : ∀ offset, ∃ v, i.encodeOperands offset = .ok v) : i.Sized := by
  intro offset
  obtain ⟨v, hv⟩ := h offset
  obtain ⟨out, hout⟩ : ∃ out, i.encode offset = .ok out :=
    ⟨_, exceptBind_eq_ok.2 ⟨v, hv, rfl⟩⟩
  refine .inl ⟨out, hout, ?_⟩
  rw [length_encode hout, hnarrow]
  rfl

theorem Sized.length_eq {i : Instruction} (h : i.Sized) {offset : Nat} {out : Bytes}
    (hout : i.encode offset = .ok out) : out.length = i.encodedLength offset := by
  rcases h offset with ⟨out', hout', hlength⟩ | ⟨delta, herror⟩
  · cases hout.symm.trans hout'
    exact hlength
  · cases hout.symm.trans herror

theorem sized_branch (o : Opcode) (target : UInt32) : (branch o target).Sized := by
  intro offset
  by_cases h : ∃ out, (branch o target).encode offset = .ok out
  · obtain ⟨out, hout⟩ := h
    exact .inl ⟨out, hout, length_encode hout⟩
  · refine .inr ⟨distance offset target, ?_⟩
    unfold encode encodeOperands at h ⊢
    dsimp only at h ⊢
    split at h
    · exact absurd ⟨_, rfl⟩ h
    · rename_i hwide
      split at h
      · exact absurd ⟨_, rfl⟩ h
      · rename_i hfar
        rw [if_neg hwide, if_neg hfar]
        rfl

theorem Retargeted.sized {R : UInt32 → UInt32 → Prop} {i j : Instruction} (h : Retargeted R i j)
    (hi : i.Sized) : j.Sized := by
  cases h with
  | plain => exact hi
  | branch => exact sized_branch _ _
  | tableSwitch | lookupSwitch => exact sized_of_operands rfl fun _ => ⟨_, rfl⟩

theorem sized_constant {o : Opcode} {index : UInt16} (h : o = .ldc → index.toNat < 0x100) :
    (constant o index).Sized := by
  refine sized_of_operands rfl fun offset => ?_
  rw [encodeOperands]
  split
  · rename_i ho
    exact ⟨_, if_pos (h ho)⟩
  · exact ⟨_, rfl⟩

theorem sized_push {o : Opcode} {value : Int16}
    (h : o = .bipush → -0x80 ≤ value.toInt ∧ value.toInt < 0x80) : (push o value).Sized := by
  refine sized_of_operands rfl fun offset => ?_
  rw [encodeOperands]
  split
  · rename_i ho
    exact ⟨_, if_pos (h ho)⟩
  · exact ⟨_, rfl⟩

end Instruction

namespace Code

open Command (Purpose tally)
open Emit Instruction

theorem fitsByte_iff {i : Int} : fitsByte i = true ↔ -0x80 ≤ i ∧ i < 0x80 := by
  simp [fitsByte]

theorem sized_localAccess {forms : Opcode × Opcode} (h : LocalForms forms) (slot : UInt16) :
    (localAccess forms slot).Sized := by
  unfold localAccess
  dsimp only
  split
  · rename_i hslot
    obtain ⟨o, ho, himplicit⟩ := h.short slot.toNat hslot
    rw [ho]
    exact sized_of_operands rfl fun _ => ⟨_, if_pos (by rw [himplicit]; rfl)⟩
  · have hgeneral : ¬forms.1.implicitSlot?.isSome = true := by simp [h.general.2]
    refine sized_of_operands (by simp [isOverwide, h.general.2]) fun offset => ?_
    rw [encodeOperands, if_neg hgeneral]
    by_cases hwide : 0x100 ≤ slot.toNat
    · exact ⟨_, if_pos (decide_eq_true hwide)⟩
    · rw [if_neg (by simpa using hwide)]
      exact ⟨_, if_pos (Nat.lt_of_not_le hwide)⟩

theorem sized_increment {slot : UInt16} {delta : Int16} {wide : Bool}
    (h : wide = true ↔ 0x100 ≤ slot.toNat ∨ fitsByte delta.toInt = false) :
    (Instruction.increment slot delta wide).Sized := by
  refine sized_of_operands rfl fun offset => ?_
  rw [encodeOperands]
  split
  · exact ⟨_, rfl⟩
  · rename_i hnarrow
    rw [h, not_or, Nat.not_le, Bool.not_eq_false, fitsByte_iff] at hnarrow
    exact ⟨_, append_eq_ok.2 ⟨_, _, if_pos hnarrow.1, if_pos hnarrow.2, rfl⟩⟩

theorem sized_constantAt (index : UInt16) : (constantAt index).Sized := by
  refine sized_constant fun h => ?_
  split at h
  · assumption
  · cases h

/-- What commands emit has room for its operands. -/
theorem Emits.sized {pool : GrowingPool} {c : Command} {i : Instruction} (h : Emits pool c i) :
    i.Sized := by
  cases h with
  | load => exact sized_localAccess (localForms_load _) _
  | store => exact sized_localAccess (localForms_store _) _
  | increment h => exact sized_increment h
  | @byteInt value _ hbyte =>
    refine sized_push fun _ => ?_
    rw [fitsByte_iff] at hbyte
    have hvalue : value.toInt16.toInt = value.toInt := by
      rw [Int32.toInt_toInt16]
      exact Int.bmod_eq_of_le (by omega) (by omega)
    rwa [hvalue]
  | shortInt => exact sized_push nofun
  | longInt | loadInt | loadFloat | loadString | loadClass => exact sized_constantAt _
  | loadLong | loadDouble => exact sized_constant nofun
  | branch => exact sized_branch _ _
  | op | smallInt | field | call | callInterface | useClass | newArray | tableSwitch
  | lookupSwitch => exact sized_of_operands rfl fun _ => ⟨_, rfl⟩

theorem Emission.Records.sized {g : GrowingPool} {commands : List Command} {e : Emission}
    (h : e.Records g commands) : ∀ i ∈ e.instructions.toList, i.Sized := by
  intro i hi
  obtain ⟨_, _, _, -, hemits⟩ := h.instructions.exists_of_mem i hi
  exact hemits.sized

/-! ## Offsets for labels -/

/-- In code that starts at these offsets, a label stands for the offset of the instruction at which
it was bound last; behind the last instruction, this is the length of the code. -/
def StandsFor (commands : List Command) (starts : Array Nat) (label : Label) (offset : Nat) :
    Prop :=
  ∃ index, BindsTo commands label index ∧ starts[index]? = some offset

/-- The same for a jump, which cannot lead behind the last instruction. -/
def JumpsTo (commands : List Command) (starts : Array Nat) (label target : UInt32) : Prop :=
  ∃ index, BindsTo commands label index ∧ index + 1 < starts.size ∧
    starts[index]? = some target.toNat

/-- The handler with offsets for its labels. -/
structure HandlerPlaced (Stands : Label → Nat → Prop) (l : LabelledHandler) (h : Handler) :
    Prop where
  start : Stands l.start h.start.toNat
  stop : Stands l.stop h.stop.toNat
  handler : Stands l.handler h.handler.toNat
  catchType : h.catchType = l.catchType

/-- The variable with offsets for its labels; it has no length if it ends before it starts. -/
structure VariablePlaced (Stands : Label → Nat → Prop) (l : LabelledVariable) (v : LocalVariable) :
    Prop where
  start : Stands l.start v.start.toNat
  length : ∃ stop, Stands l.stop stop ∧ v.length.toNat = stop - v.start.toNat
  same : v.name = l.name ∧ v.descriptor = l.descriptor ∧ v.slot = l.slot

/-- The line of the instruction at an offset. -/
def LinePlaced (starts : Array Nat) (mark : Nat × UInt16) (row : LineNumber) : Prop :=
  starts[mark.1]? = some row.start.toNat ∧ row.line = mark.2

/-- The bytes of each instruction start at its offset, and the code ends with the last ones. -/
structure WrittenAt (bytes : Bytes) (starts : Array Nat) (code : List Instruction) : Prop where
  each : ∀ k i, code[k]? = some i → ∃ o out, starts[k]? = some o ∧
    starts[k + 1]? = some (o + out.length) ∧ i.encode o = .ok out ∧ out <+: bytes.drop o
  last : starts[code.length]? = some bytes.length

/-- The body is the emission, laid out, with an offset in the place of each label. Lines behind the
last instruction are dropped, and so are empty tables. -/
structure Emission.Places (commands : List Command) (e : Emission) (body : CodeBody) : Prop where
  written : ∃ bytes, reassemble body.instructions =
      .ok ⟨bytes, offsets body.instructions, body.instructions⟩ ∧
    WrittenAt bytes (offsets body.instructions) body.instructions
  instructions : List.Forall₂ (Retargeted (JumpsTo commands (offsets body.instructions)))
    e.instructions.toList body.instructions
  handlers : List.Forall₂ (HandlerPlaced (StandsFor commands (offsets body.instructions)))
    e.handlers.toList body.handlers
  tables : ∃ lines locals,
    List.Forall₂ (LinePlaced (offsets body.instructions))
      (e.lines.toList.filter (·.1 < body.instructions.length)) lines ∧
    List.Forall₂ (VariablePlaced (StandsFor commands (offsets body.instructions)))
      e.locals.toList locals ∧
    body.attributes.map (·.payload) =
      (if lines.isEmpty then [] else [.lineNumberTable lines]) ++
        if locals.isEmpty then [] else [.localVariableTable locals]

section Layout

variable {commands : List Command} {g : GrowingPool} {e e' : Emission}

theorem BindsTo.le {label : Label} {index : Nat} (h : BindsTo commands label index) :
    index ≤ tally .instruction commands := by
  obtain ⟨before, after, rfl, -, -, rfl⟩ := h
  simp [tally, List.countP_append]

theorem endFrom_of_encodeFrom {code : List Instruction} (hsized : ∀ i ∈ code, i.Sized)
    {offset : Nat} {out : Bytes} (h : encodeFrom offset code = .ok out) :
    endFrom offset code = offset + out.length := by
  induction code generalizing offset out with
  | nil =>
    cases h
    rfl
  | cons i rest ih =>
    obtain ⟨hi, hrest⟩ := List.forall_mem_cons.1 hsized
    obtain ⟨u, v, hu, hv, rfl⟩ := append_eq_ok.1 h
    rw [endFrom, ih hrest hv, List.length_append, hi.length_eq hu, Nat.add_assoc]

theorem writtenAt_of_encodeFrom {bytes : Bytes} {code : List Instruction}
    (hsized : ∀ i ∈ code, i.Sized) (h : encodeFrom 0 code = .ok bytes) :
    WrittenAt bytes (offsets code) code := by
  have hlist : (offsets code).toList = startsFrom 0 code ++ [endFrom 0 code] := by rw [offsets_eq]
  refine ⟨fun k i hi => ?_, ?_⟩
  · obtain ⟨o, out, ho, ho', hout, hdrop⟩ := exists_piece
      (P := fun o i u => i.encode o = .ok u ∧ i.Sized)
      (W := fun o code used => encodeFrom o code = .ok used ∧ ∀ i ∈ code, i.Sized)
      (fun o i u hu => hu.2.length_eq hu.1)
      (fun o i rest used hused => by
        obtain ⟨hi, hrest⟩ := List.forall_mem_cons.1 hused.2
        obtain ⟨u, v, hu, hv, rfl⟩ := append_eq_ok.1 hused.1
        exact ⟨u, v, ⟨hu, hi⟩, ⟨hv, hrest⟩, rfl⟩)
      ⟨h, hsized⟩ List.drop_zero hi
    rw [← Array.getElem?_toList, ← Array.getElem?_toList, hlist]
    exact ⟨o, out, ho, ho', hout.1, hdrop ▸ List.prefix_append _ _⟩
  · rw [← Array.getElem?_toList, hlist, ← length_startsFrom 0 code, List.getElem?_concat_length,
      endFrom_of_encodeFrom hsized h, Nat.zero_add]

/-- The offset of an instruction of short code, or of its end, in two bytes. -/
theorem getElem?_offsets_toNat {code : List Instruction} (hend : endFrom 0 code < 0x10000)
    {index : Nat} (h : index < code.length + 1) :
    (offsets code)[index]? = some (UInt16.ofNat ((offsets code).getD index 0)).toNat := by
  obtain ⟨n, hn, hle⟩ := getElem?_offsets h
  rw [Array.getD_eq_getD_getElem?, hn, Option.getD_some, UInt16.toNat_ofNat',
    Nat.mod_eq_of_lt (by omega)]

theorem standsFor_of_labelOffset {code : List Instruction} (hend : endFrom 0 code < 0x10000)
    (he : e.Records g commands) (hcode : code.length = e.instructions.size) {label : Label}
    {offset : UInt16} (h : labelOffset e.labels (offsets code) label = .ok offset) :
    StandsFor commands (offsets code) label offset.toNat := by
  obtain ⟨index, hindex, h⟩ := exceptBind_eq_ok.1 h
  cases h
  have hbinds := he.bindings label index hindex
  have hle := hbinds.le
  rw [← he.size_instructions, ← hcode] at hle
  exact ⟨index, hbinds, getElem?_offsets_toNat hend (Nat.lt_succ_of_le hle)⟩

theorem handlerPlaced_of_place {place : Label → Except Error UInt16} {Stands : Label → Nat → Prop}
    (hplace : ∀ label offset, place label = .ok offset → Stands label offset.toNat)
    {l : LabelledHandler} {h : Handler} (hh : placeHandler place l = .ok h) :
    HandlerPlaced Stands l h := by
  obtain ⟨start, hstart, hh⟩ := exceptBind_eq_ok.1 hh
  obtain ⟨stop, hstop, hh⟩ := exceptBind_eq_ok.1 hh
  obtain ⟨handler, hhandler, hh⟩ := exceptBind_eq_ok.1 hh
  cases hh
  exact ⟨hplace _ _ hstart, hplace _ _ hstop, hplace _ _ hhandler, rfl⟩

theorem variablePlaced_of_place {place : Label → Except Error UInt16} {Stands : Label → Nat → Prop}
    (hplace : ∀ label offset, place label = .ok offset → Stands label offset.toNat)
    {l : LabelledVariable} {v : LocalVariable} (hv : placeVariable place l = .ok v) :
    VariablePlaced Stands l v := by
  obtain ⟨start, hstart, hv⟩ := exceptBind_eq_ok.1 hv
  obtain ⟨stop, hstop, hv⟩ := exceptBind_eq_ok.1 hv
  cases hv
  refine ⟨hplace _ _ hstart, ⟨stop.toNat, hplace _ _ hstop, ?_⟩, rfl, rfl, rfl⟩
  have hlt := stop.toNat_lt
  rw [UInt16.toNat_ofNat', Nat.mod_eq_of_lt (by omega)]

theorem linePlaced_placeLines {code : List Instruction} (hend : endFrom 0 code < 0x10000)
    (lines : List (Nat × UInt16)) :
    List.Forall₂ (LinePlaced (offsets code)) (lines.filter (·.1 < code.length))
      (placeLines (offsets code) code.length lines) := by
  induction lines with
  | nil => exact .nil
  | cons mark lines ih =>
    obtain ⟨index, line⟩ := mark
    rw [placeLines, List.filter_cons, List.filterMap_cons]
    by_cases hlt : index < code.length
    · simp only [hlt, decide_true, if_true]
      exact .cons ⟨getElem?_offsets_toNat hend (Nat.lt_succ_of_lt hlt), rfl⟩ ih
    · simp only [hlt, decide_false, if_false, Bool.false_eq_true]
      exact ih

theorem payloads_of_tableAttribute {α : Type} {name : String} {payload : List α → Payload}
    {items : List α} {as : List Attribute} (h : tableAttribute name payload items e = .ok as e') :
    as.map (·.payload) = if items.isEmpty then [] else [payload items] := by
  unfold tableAttribute at h
  split at h
  · rename_i hempty
    obtain ⟨rfl, -⟩ := pure_eq_ok.1 h
    rw [if_pos hempty]
    rfl
  · rename_i hsome
    obtain ⟨index, e1, -, h⟩ := bind_eq_ok.1 h
    obtain ⟨rfl, -⟩ := pure_eq_ok.1 h
    rw [if_neg hsome]
    rfl

/-- Laying out resolves what a run of commands left. -/
theorem Emission.Records.places {isStatic : Bool} {descriptor : String} {body : CodeBody}
    (he : e.Records g commands) (h : Finishes isStatic descriptor e body e') :
    e.Places commands body := by
  obtain ⟨ha, hhandlers, -, -, hlines, hrows, htables⟩ := h
  rename_i a handlers type stack locals lines e1 rows tables
  obtain ⟨hend, hplaced, hencode, -⟩ := assemble_eq_ok_iff.1 ha
  obtain ⟨hoffsets, hretargeted⟩ := retargeted_of_assemble ha
  have hshort : endFrom 0 a.instructions < 0x10000 := by rwa [hplaced.end_eq]
  have hcount : a.instructions.length = e.instructions.size := by
    rw [← hretargeted.length_eq, Array.length_toList]
  have hsized : ∀ j ∈ a.instructions, j.Sized := by
    intro j hj
    obtain ⟨i, hi, hij⟩ := exists_of_forall₂ hretargeted j hj
    exact hij.sized (he.sized i hi)
  have hstands (label : Label) (offset : UInt16)
      (h : labelOffset e.labels (offsets a.instructions) label = .ok offset) :
      StandsFor commands (offsets a.instructions) label offset.toNat :=
    standsFor_of_labelOffset hshort he hcount h
  have hjumps (label target : UInt32) (h : ∃ index, bound e.labels label = .ok index ∧
      index < e.instructions.toList.length ∧ a.offsets[index]? = some target.toNat) :
      JumpsTo commands (offsets a.instructions) label target := by
    obtain ⟨index, hindex, hlt, htarget⟩ := h
    refine ⟨index, he.bindings label index hindex, ?_, hoffsets ▸ htarget⟩
    rw [size_offsets, hcount, ← Array.length_toList]
    exact Nat.succ_lt_succ hlt
  rw [hoffsets] at hhandlers hlines hrows
  rw [← hcount] at hlines
  exact {
    written := ⟨a.bytes, reassemble_eq_ok (targetsIn_of_assemble ha) hshort hencode,
      writtenAt_of_encodeFrom hsized hencode⟩
    instructions := hretargeted.imp fun _ _ => Retargeted.imp hjumps
    handlers := (mapM_eq_ok_iff.1 hhandlers).imp fun _ _ => handlerPlaced_of_place hstands
    tables := by
      refine ⟨_, rows, linePlaced_placeLines hshort e.lines.toList,
        (mapM_eq_ok_iff.1 hrows).imp fun _ _ => variablePlaced_of_place hstands, ?_⟩
      rw [List.map_append, payloads_of_tableAttribute hlines, payloads_of_tableAttribute htables] }

end Layout

/-! ## Failures -/

/-- If this fails, it is not for the size of an operand. -/
abbrev OperandsFit {α : Type} (x : Except Error α) : Prop :=
  FailsAs (fun e => e.isOperandSize = false) x

section Failures

variable {α β : Type}

theorem OperandsFit.of_lookup {x : Except Error α} (h : LooksUp x) : OperandsFit x := by
  refine h.imp fun e he => ?_
  cases e <;> first | rfl | cases he

theorem operandsFit_find (w : Walk) (source target : Nat) : OperandsFit (w.find source target) := by
  unfold Walk.find
  split
  · exact failsAs_ite (failsAs_ok _) (failsAs_error rfl)
  · exact failsAs_error rfl

theorem operandsFit_step (w : Walk) (here : Arrival) (i : Instruction) :
    OperandsFit (w.step here i) := by
  refine (OperandsFit.of_lookup (looksUp_stackEffect i)).bind fun effect => ?_
  refine FailsAs.bind ?_ fun _ => (failsAs_mapM (fun _ => ?_) _).bind fun _ => failsAs_ok _
  · exact failsAs_ite (failsAs_error rfl) (failsAs_ite (failsAs_ok _) (failsAs_error rfl))
  · exact (operandsFit_find w _ _).bind fun _ => failsAs_ok _

theorem operandsFit_visit (w : Walk) (budget : Nat) (visited : Array Bool)
    (arrivals : List Arrival) (deepest : UInt16) :
    OperandsFit (w.visit budget visited arrivals deepest) := by
  induction budget generalizing visited arrivals deepest with
  | zero => exact failsAs_ok _
  | succ budget ih =>
    unfold Walk.visit
    split
    · exact failsAs_ok _
    · split
      · exact failsAs_ok _
      · exact (operandsFit_step w _ _).bind fun _ => ih _ _ _

theorem operandsFit_maxima (p : Pool) (code : List Instruction) (starts : Array Nat)
    (handlers : List Nat) (initial : UInt16) :
    OperandsFit (maxima p code starts handlers initial) := by
  have hlocals : OperandsFit (maxLocals code initial) := by
    intro e he
    obtain ⟨rfl, -⟩ := maxLocals_eq_error he
    rfl
  refine (failsAs_mapM (fun _ => ?_) _).bind fun _ => (operandsFit_visit _ _ _ _ _).bind fun _ =>
    hlocals.bind fun _ => failsAs_ok _
  exact (operandsFit_find _ _ _).bind fun _ => failsAs_ok _

theorem operandsFit_bound (labels : Array (Option Nat)) (label : Label) :
    OperandsFit (bound labels label) := by
  unfold bound
  split
  · exact failsAs_ok _
  · exact failsAs_error rfl

theorem operandsFit_assemble {code : List Instruction} (hcode : ∀ i ∈ code, i.Sized)
    (labels : Array (Option Nat)) : OperandsFit (assemble code (bound labels)) := by
  refine failsAs_assemble (fun _ => rfl) (fun _ _ => rfl) (operandsFit_bound labels) ?_
  intro i hi f j hij o e he
  rcases (retargeted_of_mapTargets hij).sized (hcode i hi) o with ⟨out, hout, -⟩ | ⟨delta, hdelta⟩
  · cases hout.symm.trans he
  · cases hdelta.symm.trans he
    rfl

/-- If this step of an emission fails, it is not for the size of an operand. -/
def Emit.OperandsFit (x : Emit α) : Prop :=
  ∀ e err e', x e = .error err e' → err.isOperandSize = false

theorem Emit.OperandsFit.bind {x : Emit α} {f : α → Emit β} (hx : Emit.OperandsFit x)
    (hf : ∀ a, Emit.OperandsFit (f a)) : Emit.OperandsFit (x >>= f) := by
  intro e err e' h
  rcases bind_eq_error.1 h with h | ⟨a, e1, -, h⟩
  · exact hx e err e' h
  · exact hf a e1 err e' h

theorem Emit.operandsFit_pure (a : α) : Emit.OperandsFit (pure a) := fun _ _ _ h => nomatch h

theorem Emit.operandsFit_ofExcept {x : Except Error α} (hx : Code.OperandsFit x) :
    Emit.OperandsFit (ofExcept x) := fun _ err _ h => hx err (ofExcept_eq_error.1 h).1

theorem Emit.operandsFit_tableAttribute (name : String) (payload : List α → Payload)
    (items : List α) : Emit.OperandsFit (tableAttribute name payload items) := by
  unfold tableAttribute
  split
  · exact operandsFit_pure _
  · refine Emit.OperandsFit.bind (fun e err e' h => ?_) fun _ => operandsFit_pure _
    unfold grow at h
    cases hadd : Grow.text name e.pool with
    | ok index pool => simp [hadd] at h
    | error err' pool =>
      simp only [hadd, EStateM.Result.error.injEq] at h
      obtain ⟨rfl, -⟩ := h
      obtain ⟨-, hencode | ⟨_, -, -, -, rfl⟩⟩ := Grow.add_eq_error.1 hadd
      · obtain ⟨_, -, -, rfl⟩ := Pool.encode_eq_error hencode
        rfl
      · rfl

theorem Emit.operandsFit_finish {isStatic : Bool} {descriptor : String} {e e' : Emission}
    {err : Error} (he : ∀ i ∈ e.instructions.toList, i.Sized)
    (h : finish isStatic descriptor e = .error err e') : err.isOperandSize = false := by
  have hplace (starts : Array Nat) (label : Label) :
      Code.OperandsFit (labelOffset e.labels starts label) :=
    (operandsFit_bound e.labels label).bind fun _ => failsAs_ok _
  have hhandler (starts : Array Nat) (l : LabelledHandler) :
      Code.OperandsFit (placeHandler (labelOffset e.labels starts) l) :=
    (hplace _ _).bind fun _ => (hplace _ _).bind fun _ => (hplace _ _).bind fun _ => failsAs_ok _
  have hvariable (starts : Array Nat) (l : LabelledVariable) :
      Code.OperandsFit (placeVariable (labelOffset e.labels starts) l) :=
    (hplace _ _).bind fun _ => (hplace _ _).bind fun _ => failsAs_ok _
  rcases bind_eq_error.1 h with hget | ⟨_, _, hget, h⟩
  · cases hget
  · cases hget
    refine ((operandsFit_ofExcept (operandsFit_assemble he _)).bind fun a => ?_) _ _ _ h
    refine (operandsFit_ofExcept (failsAs_mapM (hhandler _) _)).bind fun handlers => ?_
    refine (operandsFit_ofExcept (.of_lookup (looksUp_methodType _))).bind fun type => ?_
    refine (operandsFit_ofExcept (operandsFit_maxima _ _ _ _ _)).bind fun maxima => ?_
    refine (operandsFit_tableAttribute _ _ _).bind fun lines => ?_
    refine (operandsFit_ofExcept (failsAs_mapM (hvariable _) _)).bind fun rows => ?_
    refine (operandsFit_tableAttribute _ _ _).bind fun locals => ?_
    exact operandsFit_pure _

end Failures

/-! ## Emitted code -/

/-- The first command that fails ends a run. -/
theorem forM_eq_error {before after : List Command} {c : Command} {s e e' : Emission} {err : Error}
    (hbefore : before.forM command s = .ok () e) (hc : command c e = .error err e') :
    (before ++ c :: after).forM command s = .error err e' := by
  have hforM : (before ++ c :: after).forM command =
      (do before.forM command; command c; after.forM command) :=
    List.forM_append
  rw [hforM, bind_run hbefore]
  exact bind_eq_error.2 (.inl hc)

/-- Labels are resolved as they were bound. Emitted code has an instruction for each command that
emits one, in their order, with the offsets of the last bindings in the place of labels, and so do
its tables. If there is no such code, then because of the first command that failed, or, if none
did, not for the size of an operand: each instruction has room for its operands. -/
theorem emit_resolves (commands : List Command) (isStatic : Bool) (descriptor : String)
    (g : GrowingPool) :
    (∀ body g', emit commands isStatic descriptor g = .ok body g' →
      ∃ e, commands.forM command (.start g) = .ok () e ∧ e.Records g commands ∧
        e.Places commands body) ∧
      (∀ before c after e err e', commands = before ++ c :: after →
        before.forM command (.start g) = .ok () e → command c e = .error err e' →
        emit commands isStatic descriptor g = .error err e'.pool) ∧
      ∀ e, commands.forM command (.start g) = .ok () e →
        (∀ i ∈ e.instructions.toList, i.Sized) ∧
          ∀ err g', emit commands isStatic descriptor g = .error err g' →
            err.isOperandSize = false := by
  refine ⟨fun body g' h => ?_, fun before c after e err e' hsplit hbefore hc => ?_, fun e he => ?_⟩
  · obtain ⟨e, e', hcommands, hfinish, -⟩ := emit_eq_ok.1 h
    have hrecords := records_of_run hcommands
    exact ⟨e, hcommands, hrecords, hrecords.places (finishes_of_finish hfinish)⟩
  · rw [hsplit]
    exact emit_eq_error.2 ⟨e', rfl, .inl (forM_eq_error hbefore hc)⟩
  · have hsized := (records_of_run he).sized
    refine ⟨hsized, fun err g' h => ?_⟩
    obtain ⟨e', -, hcommands | ⟨e1, hcommands, hfinish⟩⟩ := emit_eq_error.1 h
    · cases hcommands.symm.trans he
    · cases hcommands.symm.trans he
      exact operandsFit_finish hsized hfinish

/-! ### A label that is bound again -/

/-- The first label is bound twice, and the second one behind the last instruction. -/
def rebinding : List Command :=
  [.newLabel, .newLabel, .bind 0, .pushInt 300, .store .int 300, .op .vreturn, .bind 0,
    .increment 3 128, .branch .goto 0, .bind 1, .lineNumber 8]

def rebindingCode : CodeBody where
  maxStack := 1
  maxLocals := 301
  instructions :=
    [.push .sipush 300, .access .istore 300 true, .simple .vreturn, .increment 3 128 true,
      .branch .goto 8]
  handlers := []
  attributes := []

def emptySwitch : List Command := [.op .nop, .tableSwitch 5 0 [], .op .vreturn]

def dangling : List Command := [.newLabel, .branch .goto 0]

theorem emit_resolves_rebinding :
    (emit rebinding true "()V" .empty = .ok rebindingCode .empty ∧
      ∃ e : Emission, e.Places rebinding rebindingCode) ∧
    emit emptySwitch true "()V" .empty =
      .error (.malformedAttribute "Code" (.switchTooLong 5 0)) .empty ∧
    emit dangling true "()V" .empty = .error (.unboundLabel 0) .empty ∧
      (Error.unboundLabel 0).isOperandSize = false := by
  have hemit : emit rebinding true "()V" .empty = .ok rebindingCode .empty := by rfl
  have hdangling : emit dangling true "()V" .empty = .error (.unboundLabel 0) .empty := by rfl
  obtain ⟨e, -, -, hplaces⟩ := (emit_resolves rebinding true "()V" .empty).1 _ _ hemit
  refine ⟨⟨hemit, e, hplaces⟩, ?_, hdangling, ?_⟩
  · exact (emit_resolves emptySwitch true "()V" .empty).2.1 [.op .nop] (.tableSwitch 5 0 [])
      [.op .vreturn] _ _ _ rfl rfl rfl
  · exact ((emit_resolves dangling true "()V" .empty).2.2 _ rfl).2 _ _ hdangling

end Code

end JvmClass
