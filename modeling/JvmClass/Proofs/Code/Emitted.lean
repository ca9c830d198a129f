import JvmClass.Proofs.Relocation.ReadBack

/-!
# Emitted code is read back

Commands emit instructions in the forms that reading yields, but for one: an operation on a fixed
local variable that is emitted without operands is read with its slot. `Instruction.asRead` is the
form in which an instruction is read, which is written alike. So emitted code is read back in
that form, provided that no command leaves out operands which its opcode needs
(`Command.IsComplete`).
-/

namespace JvmClass

/-! ## The form that is read -/

/-- Operations without operand bytes. Some of them work on a fixed local variable. -/
def Opcode.isBare (o : Opcode) : Bool := o.isPlain || o.implicitSlot?.isSome

/-- They are the operations of one-byte instructions. -/
theorem Opcode.isBare_iff {o : Opcode} :
    o.isBare = true ↔
      ∃ i : Instruction, i.opcode = o ∧ i.Shape ∧ ∀ offset, i.encodedLength offset = 1 := by
  rw [isBare, Bool.or_eq_true]
  constructor
  · rintro (hplain | hslot)
    · exact ⟨.simple o, rfl, hplain, fun _ => rfl⟩
    · obtain ⟨slot, hsome⟩ := Option.isSome_iff_exists.1 hslot
      refine ⟨.access o (UInt16.ofNat slot) false, rfl, ⟨isSome_localSlots? hslot, ?_⟩,
        fun _ => if_pos hslot⟩
      intro n hn
      cases hsome.symm.trans hn
      exact ⟨rfl, rfl⟩
  · rintro ⟨i, rfl, hshape, hlength⟩
    have hone := hlength 0
    cases i with
    | simple o => exact .inl hshape
    | access o slot wide =>
      refine .inr ?_
      rw [Instruction.encodedLength] at hone
      split at hone
      · assumption
      · split at hone <;> cases hone
    | tableSwitch | lookupSwitch =>
      rw [Instruction.encodedLength] at hone
      omega
    | increment | push | constant | branch =>
      rw [Instruction.encodedLength] at hone
      split at hone <;> cases hone
    | _ => cases hone

/-- The opcode of the command has no operands but those of the command. -/
def Command.IsComplete : Command → Prop
  | .op o => o.isBare = true
  | .branch o _ => o.isBranch = true
  | _ => True

namespace Instruction

/-- The form in which an instruction is read back. -/
def asRead : Instruction → Instruction
  | simple o =>
    match o.implicitSlot? with
    | some slot => access o (UInt16.ofNat slot) false
    | none => simple o
  | i => i

theorem encode_asRead (offset : Nat) (i : Instruction) :
    i.asRead.encode offset = i.encode offset := by
  cases i with
  | simple o =>
    rw [asRead]
    split
    · rename_i slot h
      have hsome : o.implicitSlot?.isSome = true := by rw [h]; rfl
      have hoperands : (access o (UInt16.ofNat slot) false).encodeOperands offset = .ok [] :=
        if_pos hsome
      rw [encode, hoperands]
      rfl
    · rfl
  | _ => rfl

theorem encodedLength_asRead (offset : Nat) (i : Instruction) :
    i.asRead.encodedLength offset = i.encodedLength offset := by
  cases i with
  | simple o =>
    rw [asRead]
    split
    · rename_i slot h
      have hsome : o.implicitSlot?.isSome = true := by rw [h]; rfl
      exact if_pos hsome
    · rfl
  | _ => rfl

theorem targets_asRead (i : Instruction) : i.asRead.targets = i.targets := by
  cases i with
  | simple o =>
    rw [asRead]
    split <;> rfl
  | _ => rfl

/-- The instruction is read back, if the pairs of a switch can be counted. -/
def Emittable (p : Pool) (i : Instruction) : Prop :=
  (∀ default pairs, i = lookupSwitch default pairs → pairs.length < 0x80000000) → i.asRead.Fits p

theorem Fits.emittable {p : Pool} {i : Instruction} (h : i.Fits p) (he : i.asRead = i) :
    i.Emittable p := fun _ => by rwa [he]

theorem Fits.mono {S G : ImportSource} (hle : S ≤ G) {i : Instruction} (h : i.Fits S.pool) :
    i.Fits G.pool :=
  ⟨h.1, fun index role hi hr => (h.2 index role hi hr).mono hle⟩

theorem Emittable.mono {S G : ImportSource} (hle : S ≤ G) {i : Instruction}
    (h : i.Emittable S.pool) : i.Emittable G.pool :=
  fun hpairs => (h hpairs).mono hle

/-! ### Placing targets -/

/-- `j` is `i` with its targets replaced, each by one that `R` relates to it. -/
inductive Retargeted (R : UInt32 → UInt32 → Prop) : Instruction → Instruction → Prop
  | plain {i} : i.targets = [] → Retargeted R i i
  | branch {o t t'} : R t t' → Retargeted R (.branch o t) (.branch o t')
  | tableSwitch {d d' low high ts ts'} : R d d' → List.Forall₂ R ts ts' →
      Retargeted R (.tableSwitch d low high ts) (.tableSwitch d' low high ts')
  | lookupSwitch {d d' pairs pairs'} : R d d' →
      List.Forall₂ (fun p p' => p'.1 = p.1 ∧ R p.2 p'.2) pairs pairs' →
      Retargeted R (.lookupSwitch d pairs) (.lookupSwitch d' pairs')

section Retargeted

variable {R : UInt32 → UInt32 → Prop} {i j : Instruction}

theorem retargeted_of_mapTargets {f : UInt32 → Except Error UInt32} (h : i.mapTargets f = .ok j) :
    Retargeted (fun t t' => f t = .ok t') i j := by
  cases i with
  | branch o t =>
    obtain ⟨t', ht, h⟩ := exceptBind_eq_ok.1 h
    cases h
    exact .branch ht
  | tableSwitch d low high ts =>
    obtain ⟨d', hd, h⟩ := exceptBind_eq_ok.1 h
    obtain ⟨ts', hts, h⟩ := exceptBind_eq_ok.1 h
    cases h
    exact .tableSwitch hd (mapM_eq_ok_iff.1 hts)
  | lookupSwitch d pairs =>
    obtain ⟨d', hd, h⟩ := exceptBind_eq_ok.1 h
    obtain ⟨pairs', hpairs, h⟩ := exceptBind_eq_ok.1 h
    cases h
    refine .lookupSwitch hd ((mapM_eq_ok_iff.1 hpairs).imp fun pair pair' hpair => ?_)
    obtain ⟨t', ht, hpair⟩ := exceptBind_eq_ok.1 hpair
    cases hpair
    exact ⟨rfl, ht⟩
  | _ =>
    cases h
    exact .plain rfl

theorem Retargeted.imp {R' : UInt32 → UInt32 → Prop} (hR : ∀ t t', R t t' → R' t t')
    (h : Retargeted R i j) : Retargeted R' i j := by
  cases h with
  | plain h => exact .plain h
  | branch h => exact .branch (hR _ _ h)
  | tableSwitch hd hts => exact .tableSwitch (hR _ _ hd) (hts.imp hR)
  | lookupSwitch hd hps =>
    exact .lookupSwitch (hR _ _ hd) (hps.imp fun _ _ hp => ⟨hp.1, hR _ _ hp.2⟩)

theorem Retargeted.fits {p : Pool} (h : Retargeted R i j) (hi : i.Fits p) : j.Fits p := by
  cases h with
  | plain => exact hi
  | branch => exact fits_of_poolIndex hi.1 rfl
  | tableSwitch _ hts => exact fits_of_poolIndex ⟨hi.1.1, hts.length_eq ▸ hi.1.2⟩ rfl
  | lookupSwitch _ hps =>
    refine fits_of_poolIndex ?_ rfl
    rw [Shape, ← hps.length_eq]
    exact hi.1

theorem Retargeted.targets (h : Retargeted R i j) : List.Forall₂ R i.targets j.targets := by
  cases h with
  | plain h => rw [h]; exact .nil
  | branch h => exact .cons h .nil
  | tableSwitch hd hts => exact .cons hd hts
  | lookupSwitch hd hps =>
    refine .cons hd (List.forall₂_map_left_iff.2 (List.forall₂_map_right_iff.2 ?_))
    exact hps.imp fun _ _ hp => hp.2

theorem Retargeted.emittable {p : Pool} (h : Retargeted R i j) (hi : i.Emittable p) :
    j.Emittable p := by
  cases h with
  | plain => exact hi
  | branch h => exact fun _ => (Retargeted.branch h).fits (hi nofun)
  | tableSwitch hd hts => exact fun _ => (Retargeted.tableSwitch hd hts).fits (hi nofun)
  | lookupSwitch hd hps =>
    refine fun hpairs => (Retargeted.lookupSwitch hd hps).fits (hi ?_)
    rintro _ _ ⟨⟩
    rw [hps.length_eq]
    exact hpairs _ _ rfl

end Retargeted

end Instruction

/-! ## Commands -/

namespace Code

/-- Emission has got so far that all instructions are read back. -/
structure Emission.Sound (P : Symbol → Prop) (e : Emission) : Prop where
  inv : e.pool.Inv P
  emittable : ∀ i ∈ e.instructions.toList, i.Emittable e.pool.pool

namespace Emit

/-- A step of an emission that keeps it sound. -/
def Sound {α : Type} (P : Symbol → Prop) (x : Emit α) : Prop :=
  ∀ e y e', e.Sound P → x e = .ok y e' → e'.Sound P

section Steps

variable {α β : Type} {P : Symbol → Prop}

theorem sound_pure (y : α) : Sound P (pure y) := by
  intro e z e' he h
  obtain ⟨-, rfl⟩ := pure_eq_ok.1 h
  exact he

theorem Sound.bind {x : Emit α} {f : α → Emit β} (hx : Sound P x) (hf : ∀ y, Sound P (f y)) :
    Sound P (x >>= f) := by
  intro e z e' he h
  obtain ⟨y, e1, h1, h2⟩ := bind_eq_ok.1 h
  exact hf y e1 z e' (hx e y e1 he h1) h2

theorem sound_ofExcept (x : Except Error α) : Sound P (ofExcept x) := by
  intro e z e' he h
  obtain ⟨-, rfl⟩ := ofExcept_eq_ok.1 h
  exact he

/-- A step that leaves the pool and the instructions alone. -/
theorem sound_modify {f : Emission → Emission} (hpool : ∀ e, (f e).pool = e.pool)
    (hcode : ∀ e, (f e).instructions = e.instructions) : Sound P (modify f) := by
  intro e z e' he h
  cases h
  exact ⟨by rw [hpool]; exact he.inv, by rw [hpool, hcode]; exact he.emittable⟩

theorem sound_forM {f : α → Emit Unit} {as : List α} (h : ∀ a ∈ as, Sound P (f a)) :
    Sound P (as.forM f) := by
  induction as with
  | nil => exact sound_pure ()
  | cons a as ih =>
    obtain ⟨hfirst, hrest⟩ := List.forall_mem_cons.1 h
    exact hfirst.bind fun _ => ih hrest

theorem instruction_sound {e e' : Emission} {i : Instruction} (he : e.Sound P)
    (hi : i.Emittable e.pool.pool) {u : Unit} (h : instruction i e = .ok u e') : e'.Sound P := by
  cases h
  refine ⟨he.inv, fun j hj => ?_⟩
  rw [Array.toList_push, List.mem_append, List.mem_singleton] at hj
  rcases hj with hj | rfl
  · exact he.emittable j hj
  · exact hi

theorem sound_instruction {i : Instruction} (hi : ∀ p, i.Emittable p) : Sound P (instruction i) :=
  fun _ _ _ he h => instruction_sound he (hi _) h

theorem grow_sound {x : Grow UInt16} {t : Symbol} (hx : Grow.Enters P x t) {e e' : Emission}
    {i : UInt16} (he : e.Sound P) (h : grow x e = .ok i e') :
    e'.Sound P ∧ e'.pool.source.Denotes i t := by
  obtain ⟨grows, ht, hcode⟩ := grow_spec hx he.inv h
  exact ⟨⟨grows.inv, fun j hj => (he.emittable j (hcode ▸ hj)).mono grows.le⟩, ht⟩

theorem sound_grow {x : Grow UInt16} {t : Symbol} (hx : Grow.Enters P x t) : Sound P (grow x) :=
  fun _ _ _ he h => (grow_sound hx he h).1

/-- An instruction whose operand stands for what it asks for. -/
theorem sound_indexed {x : Grow UInt16} {t : Symbol} (hx : Grow.Enters P x t) {role : Role}
    (hrole : role.accepts t.head = true) {make : UInt16 → Instruction}
    (hmake : ∀ i, (make i).Shape ∧ (make i).poolIndex? = some i ∧
      (make i).opcode.role? = some role ∧ (make i).asRead = make i) :
    Sound P (do instruction (make (← grow x))) := by
  intro e u e' he h
  obtain ⟨i, e1, h1, h2⟩ := bind_eq_ok.1 h
  obtain ⟨he1, ht⟩ := grow_sound hx he h1
  obtain ⟨hshape, hindex, hopcode, hread⟩ := hmake i
  have hholds : e1.pool.pool.Holds role i := (ht.holds_iff role).2 hrole
  exact instruction_sound he1
    ((Instruction.fits_of_holds hshape hindex hopcode hholds).emittable hread) h2

end Steps

section Commands

variable {P : Symbol → Prop}

/-- An instruction without an operand in the pool. -/
theorem sound_plain {i : Instruction} (hshape : i.Shape) (hindex : i.poolIndex? = none)
    (hread : i.asRead = i) : Sound P (instruction i) :=
  sound_instruction fun _ => (Instruction.fits_of_poolIndex hshape hindex).emittable hread

theorem sound_op {o : Opcode} (h : o.isBare = true) : Sound P (instruction (.simple o)) := by
  refine sound_instruction fun p _ => ?_
  rw [Instruction.asRead]
  split
  · rename_i slot hslot
    refine Instruction.fits_of_poolIndex ⟨Opcode.isSome_localSlots? (by rw [hslot]; rfl), ?_⟩ rfl
    intro n hn
    cases hslot.symm.trans hn
    exact ⟨rfl, rfl⟩
  · rename_i hslot
    have hplain : o.isPlain = true := by simpa [Opcode.isBare, hslot] using h
    exact Instruction.fits_of_poolIndex hplain rfl

/-- The general form works on any slot, and the short forms on their own. -/
structure LocalForms (forms : Opcode × Opcode) : Prop where
  general : forms.1.localSlots?.isSome = true ∧ forms.1.implicitSlot? = none
  short : ∀ n < 4, ∃ o, Opcode.ofByte? (forms.2.code + UInt8.ofNat n) = some o ∧
    o.implicitSlot? = some n

theorem localForms_load (kind : ValueKind) : LocalForms (loadForms kind) where
  general := by cases kind <;> exact ⟨rfl, rfl⟩
  short n hn := by
    obtain rfl | rfl | rfl | rfl : n = 0 ∨ n = 1 ∨ n = 2 ∨ n = 3 := by omega
    all_goals cases kind <;> exact ⟨_, rfl, rfl⟩

theorem localForms_store (kind : ValueKind) : LocalForms (storeForms kind) where
  general := by cases kind <;> exact ⟨rfl, rfl⟩
  short n hn := by
    obtain rfl | rfl | rfl | rfl : n = 0 ∨ n = 1 ∨ n = 2 ∨ n = 3 := by omega
    all_goals cases kind <;> exact ⟨_, rfl, rfl⟩

theorem sound_localAccess {forms : Opcode × Opcode} (h : LocalForms forms) (slot : UInt16) :
    Sound P (instruction (localAccess forms slot)) := by
  have hgeneral (wide : Bool) : (Instruction.access forms.1 slot wide).Shape := by
    refine ⟨h.general.1, fun n hn => ?_⟩
    rw [h.general.2] at hn
    cases hn
  unfold localAccess
  dsimp only
  split
  · rename_i hslot
    obtain ⟨o, ho, himplicit⟩ := h.short slot.toNat hslot
    rw [ho]
    refine sound_plain ⟨Opcode.isSome_localSlots? (by rw [himplicit]; rfl), fun n hn => ?_⟩ rfl rfl
    cases himplicit.symm.trans hn
    exact ⟨UInt16.ofNat_toNat.symm, rfl⟩
  · exact sound_plain (hgeneral _) rfl rfl

theorem shape_tableSwitch {low high : Int32} {default : Label} {targets : List Label}
    (h : tableHigh? low targets.length = some high) :
    (Instruction.tableSwitch default low high targets).Shape := by
  unfold tableHigh? at h
  dsimp only at h
  split at h
  · rename_i hbounds
    cases h
    have hlow := low.le_toInt
    have hhigh : (low.toInt + targets.length - 1).toInt32.toInt =
        low.toInt + targets.length - 1 :=
      Int32.toInt_ofInt_of_le (by omega) (by omega)
    refine ⟨Int32.le_iff_toInt_le.2 (by omega), ?_⟩
    rw [hhigh]
    omega
  · cases h

theorem sound_loadConstant {x : Grow UInt16} {t : Symbol} (hx : Grow.Enters P x t)
    (ht : Role.loadable.accepts t.head = true) : Sound P (do loadConstant (← grow x)) := by
  refine sound_indexed hx ht fun i => ?_
  split
  · exact ⟨.inl rfl, rfl, rfl, rfl⟩
  · exact ⟨.inr (.inl rfl), rfl, rfl, rfl⟩

variable (hP : Symbol.Named P)

include hP

theorem sound_pushInt (i : Int32) : Sound P (pushInt i) := by
  unfold pushInt
  split
  · rename_i o ho
    have hplain : o.isPlain = true := by
      unfold smallInt? at ho
      split at ho <;> cases ho <;> rfl
    exact sound_op (by rw [Opcode.isBare, hplain]; rfl)
  · split
    · exact sound_plain (.inl rfl) rfl rfl
    · split
      · exact sound_plain (.inr rfl) rfl rfl
      · exact sound_loadConstant (enters_constant hP (.integer i) trivial rfl rfl) rfl

theorem sound_command {c : Command} (hc : c.IsComplete) : Sound P (command c) := by
  cases c with
  | op o => exact sound_op hc
  | load kind slot => exact sound_localAccess (localForms_load kind) slot
  | store kind slot => exact sound_localAccess (localForms_store kind) slot
  | increment slot delta => exact sound_plain trivial rfl rfl
  | newArray element => exact sound_plain trivial rfl rfl
  | branch o label => exact sound_plain hc rfl rfl
  | lookupSwitch default cases =>
    -- Nothing limits the pairs here; the layout does, once the code is known to be short.
    refine sound_instruction fun p hpairs => ?_
    exact Instruction.fits_of_poolIndex (hpairs _ _ rfl) rfl
  | newLabel | bind | lineNumber => exact sound_modify (fun _ => rfl) fun _ => rfl
  | pushInt i => exact sound_pushInt hP i
  | loadInt i => exact sound_loadConstant (enters_constant hP (.integer i) trivial rfl rfl) rfl
  | loadFloat bits =>
    exact sound_loadConstant (enters_constant hP (.float bits) trivial rfl rfl) rfl
  | loadLong i =>
    exact sound_indexed (enters_constant hP (.long i) trivial rfl rfl)
      (show Role.wideLoadable.accepts _ = true from rfl)
      fun i => ⟨.inr (.inr rfl), rfl, rfl, rfl⟩
  | loadDouble bits =>
    exact sound_indexed (enters_constant hP (.double bits) trivial rfl rfl)
      (show Role.wideLoadable.accepts _ = true from rfl)
      fun i => ⟨.inr (.inr rfl), rfl, rfl, rfl⟩
  | loadString s => exact sound_loadConstant (Grow.enters_stringRef hP s) rfl
  | loadClass name => exact sound_loadConstant (Grow.enters_class hP name) rfl
  | field access m =>
    refine sound_indexed (Grow.enters_fieldRef hP m)
      (show Role.fieldRef.accepts _ = true from rfl) fun i => ?_
    cases access <;> exact ⟨by simp [Instruction.Shape, fieldOpcode], rfl, rfl, rfl⟩
  | call kind m =>
    cases kind with
    | virtual =>
      exact sound_indexed (Grow.enters_methodRef hP m)
        (show Role.methodRef.accepts _ = true from rfl) fun i => ⟨.inl rfl, rfl, rfl, rfl⟩
    | special =>
      exact sound_indexed (Grow.enters_methodRef hP m)
        (show Role.anyMethodRef.accepts _ = true from rfl) fun i => ⟨.inr (.inl rfl), rfl, rfl, rfl⟩
    | static =>
      exact sound_indexed (Grow.enters_methodRef hP m)
        (show Role.anyMethodRef.accepts _ = true from rfl) fun i => ⟨.inr (.inr rfl), rfl, rfl, rfl⟩
  | callInterface m =>
    exact (sound_ofExcept _).bind fun _ => sound_indexed (Grow.enters_interfaceMethodRef hP m)
      (show Role.interfaceMethodRef.accepts _ = true from rfl) fun i => ⟨trivial, rfl, rfl, rfl⟩
  | useClass use name =>
    refine sound_indexed (Grow.enters_class hP name)
      (show Role.classRef.accepts _ = true from rfl) fun i => ?_
    cases use <;> exact ⟨by simp [Instruction.Shape, classOpcode], rfl, rfl, rfl⟩
  | tableSwitch low default targets =>
    rw [command]
    split
    · rename_i high hhigh
      exact sound_plain (shape_tableSwitch hhigh) rfl rfl
    · intro e y e' _ h
      exact absurd h throw_ne_ok
  | localVariable slot name descriptor start stop =>
    exact (sound_grow (Grow.enters_text (hP.text name))).bind fun _ =>
      (sound_grow (Grow.enters_text (hP.text descriptor))).bind fun _ =>
      sound_modify (fun _ => rfl) fun _ => rfl
  | handler start stop handler catchType =>
    cases catchType with
    | some name =>
      exact (sound_grow (Grow.enters_class hP name)).bind fun _ =>
        sound_modify (fun _ => rfl) fun _ => rfl
    | none => exact (sound_pure _).bind fun _ => sound_modify (fun _ => rfl) fun _ => rfl

end Commands

end Emit

/-! ## Layout -/

theorem PlacedFrom.forall₂ {place : Nat → UInt32 → Except Error UInt32} {offset : Nat}
    {code placed : List Instruction} (h : PlacedFrom place offset code placed) :
    List.Forall₂ (fun i j => ∃ o, i.mapTargets (place o) = .ok j) code placed := by
  induction code generalizing offset placed with
  | nil =>
    obtain rfl := h
    exact .nil
  | cons i rest ih =>
    obtain ⟨j, js, hj, hjs, rfl⟩ := h
    exact .cons ⟨offset, hj⟩ (ih hjs)

theorem encodedLength_le_endFrom (offset : Nat) {code : List Instruction} {i : Instruction}
    (h : i ∈ code) : ∃ o, i.encodedLength o ≤ endFrom offset code := by
  induction code generalizing offset with
  | nil => cases h
  | cons j rest ih =>
    rcases List.mem_cons.1 h with rfl | h
    · exact ⟨offset, Nat.le_trans (Nat.le_add_left ..) (le_endFrom _ rest)⟩
    · exact ih _ h

/-- The pairs of a switch in short code can be counted. -/
theorem length_lt_of_mem {code : List Instruction} (hend : endFrom 0 code < 0x10000)
    {default : UInt32} {pairs : List (Int32 × UInt32)}
    (h : Instruction.lookupSwitch default pairs ∈ code) : pairs.length < 0x80000000 := by
  obtain ⟨o, ho⟩ := encodedLength_le_endFrom 0 h
  rw [Instruction.encodedLength] at ho
  omega

/-- What laying out makes of a target. -/
theorem placeTarget_eq_ok {code : List Instruction} (hend : endFrom 0 code < 0x10000)
    {resolve : UInt32 → Except Error Nat} {o : Nat} {key target : UInt32}
    (h : placeTarget (offsets code) code.length resolve o key = .ok target) :
    ∃ index, resolve key = .ok index ∧ index < code.length ∧
      (offsets code)[index]? = some target.toNat := by
  obtain ⟨index, hindex, h⟩ := exceptBind_eq_ok.1 h
  split at h
  · rename_i hlt
    cases h
    obtain ⟨n, hn, hle⟩ := getElem?_offsets (Nat.lt_succ_of_lt hlt)
    refine ⟨index, hindex, hlt, ?_⟩
    rw [Array.getD_eq_getD_getElem?, hn, Option.getD_some, UInt32.toNat_ofNat',
      Nat.mod_eq_of_lt (by omega)]
  · cases h

/-- Laid-out code has the instructions that were given, with their keys resolved. -/
theorem retargeted_of_assemble {code : List Instruction} {resolve : UInt32 → Except Error Nat}
    {a : Assembled} (h : assemble code resolve = .ok a) :
    a.offsets = offsets a.instructions ∧
      List.Forall₂ (Instruction.Retargeted fun key target => ∃ index, resolve key = .ok index ∧
        index < code.length ∧ a.offsets[index]? = some target.toNat) code a.instructions := by
  obtain ⟨hend, hplaced, -, hoffsets⟩ := assemble_eq_ok_iff.1 h
  have hsame : offsets a.instructions = offsets code := by
    rw [offsets_eq, offsets_eq, hplaced.starts_eq, hplaced.end_eq]
  refine ⟨hoffsets.trans hsame.symm, hplaced.forall₂.imp fun i j hij => ?_⟩
  obtain ⟨o, hij⟩ := hij
  rw [hoffsets]
  exact (Instruction.retargeted_of_mapTargets hij).imp fun key target => placeTarget_eq_ok hend

/-- Code that is laid out, of instructions that are read back. -/
structure LaidOut (p : Pool) (code : List Instruction) : Prop where
  lands : TargetsIn (startsFrom 0 code) code
  short : endFrom 0 code < 0x10000
  encodes : ∃ out, encodeFrom 0 code = .ok out
  fits : ∀ i ∈ code, i.asRead.Fits p

theorem LaidOut.mono {S G : ImportSource} (hle : S ≤ G) {code : List Instruction}
    (h : LaidOut S.pool code) : LaidOut G.pool code :=
  { h with fits := fun i hi => (h.fits i hi).mono hle }

theorem targetsIn_of_assemble {code : List Instruction} {resolve : UInt32 → Except Error Nat}
    {a : Assembled} (h : assemble code resolve = .ok a) :
    TargetsIn (startsFrom 0 a.instructions) a.instructions := by
  obtain ⟨hoffsets, hretargeted⟩ := retargeted_of_assemble h
  intro j hj target htarget
  obtain ⟨i, -, hij⟩ := exists_of_forall₂ hretargeted j hj
  obtain ⟨key, -, index, -, hlt, hget⟩ := exists_of_forall₂ hij.targets target htarget
  have hstart : index < (startsFrom 0 a.instructions).length := by
    rwa [length_startsFrom, ← hretargeted.length_eq]
  rw [hoffsets, offsets_eq, List.getElem?_toArray, List.getElem?_append_left hstart] at hget
  exact List.mem_of_getElem? hget

theorem laidOut_of_assemble {p : Pool} {code : List Instruction}
    {resolve : UInt32 → Except Error Nat} {a : Assembled} (h : assemble code resolve = .ok a)
    (hcode : ∀ i ∈ code, i.Emittable p) : LaidOut p a.instructions := by
  obtain ⟨hend, hplaced, hencode, -⟩ := assemble_eq_ok_iff.1 h
  have hshort : endFrom 0 a.instructions < 0x10000 := by rwa [hplaced.end_eq]
  refine ⟨targetsIn_of_assemble h, hshort, ⟨a.bytes, hencode⟩, fun j hj => ?_⟩
  obtain ⟨i, hi, hij⟩ := exists_of_forall₂ (retargeted_of_assemble h).2 j hj
  refine hij.emittable (hcode i hi) fun default pairs he => ?_
  exact length_lt_of_mem hshort (he ▸ hj)

/-! ### The form that is read -/

theorem startsFrom_asRead (offset : Nat) (code : List Instruction) :
    startsFrom offset (code.map Instruction.asRead) = startsFrom offset code := by
  induction code generalizing offset with
  | nil => rfl
  | cons i rest ih =>
    rw [List.map_cons, startsFrom, startsFrom, Instruction.encodedLength_asRead, ih]

theorem endFrom_asRead (offset : Nat) (code : List Instruction) :
    endFrom offset (code.map Instruction.asRead) = endFrom offset code := by
  induction code generalizing offset with
  | nil => rfl
  | cons i rest ih =>
    rw [List.map_cons, endFrom, endFrom, Instruction.encodedLength_asRead, ih]

theorem encodeFrom_asRead (offset : Nat) (code : List Instruction) :
    encodeFrom offset (code.map Instruction.asRead) = encodeFrom offset code := by
  induction code generalizing offset with
  | nil => rfl
  | cons i rest ih =>
    rw [List.map_cons, encodeFrom, encodeFrom, Instruction.encodedLength_asRead,
      Instruction.encode_asRead, ih]

namespace LaidOut

variable {p : Pool} {code : List Instruction} (h : LaidOut p code)

include h

theorem lands_asRead :
    TargetsIn (startsFrom 0 (code.map Instruction.asRead)) (code.map Instruction.asRead) := by
  intro j hj target htarget
  obtain ⟨i, hi, rfl⟩ := List.mem_map.1 hj
  rw [Instruction.targets_asRead] at htarget
  rw [startsFrom_asRead]
  exact h.lands i hi target htarget

theorem fits_asRead : ∀ i ∈ code.map Instruction.asRead, i.Fits p := by
  intro j hj
  obtain ⟨i, hi, rfl⟩ := List.mem_map.1 hj
  exact h.fits i hi

/-- The two forms are written alike. -/
theorem reassemble_asRead : ∃ out, reassemble code = .ok ⟨out, offsets code, code⟩ ∧
    reassemble (code.map Instruction.asRead) =
      .ok ⟨out, offsets (code.map Instruction.asRead), code.map Instruction.asRead⟩ := by
  obtain ⟨out, hencode⟩ := h.encodes
  refine ⟨out, reassemble_eq_ok h.lands h.short hencode, reassemble_eq_ok h.lands_asRead ?_ ?_⟩
  · rw [endFrom_asRead]
    exact h.short
  · rw [encodeFrom_asRead]
    exact hencode

end LaidOut

end Code

/-! ## Bodies -/

/-- Emitted code: laid out, with tables that refer to it. -/
structure CodeBody.IsEmitted (G : ImportSource) (body : CodeBody) : Prop where
  laidOut : Code.LaidOut G.pool body.instructions
  tables : ∀ a ∈ body.attributes, a.IsTable G

namespace CodeBody.IsEmitted

theorem mono {S G : ImportSource} (hle : S ≤ G) {body : CodeBody} (h : body.IsEmitted S) :
    body.IsEmitted G :=
  ⟨h.laidOut.mono hle, fun a ha => (h.tables a ha).mono hle⟩

/-- Emitted code is read back with its instructions in the form that is read. -/
theorem legible {G : ImportSource} {body : CodeBody} (h : body.IsEmitted G) (depth : Nat) :
    Legible (CodeBody.SpellsWith G.pool (Attribute.Spells G.pool (depth + 1))) CodeBody.encode
      body := by
  obtain ⟨maxStack, maxLocals, code, handlers, attributes⟩ := body
  refine ⟨⟨maxStack, maxLocals, code.map Instruction.asRead, handlers, attributes⟩, ?_, ?_⟩
  · obtain ⟨out, hcode, hread⟩ := h.laidOut.reassemble_asRead
    rw [CodeBody.encode_eq, CodeBody.encode_eq, hcode, hread]
    rfl
  · exact CodeBody.readsBack
      (fun a ha => Code.decode_of_reassemble h.laidOut.fits_asRead h.laidOut.lands_asRead ha)
      (.attributes fun a ha => (h.tables a ha).readsBack depth)

end CodeBody.IsEmitted

namespace Code

namespace Emit

/-- What laying out an emission comes to. -/
inductive Finishes (isStatic : Bool) (descriptor : String) (e : Emission) :
    CodeBody → Emission → Prop
  | mk {a handlers type stack locals lines e1 rows tables e'} :
      assemble e.instructions.toList (bound e.labels) = .ok a →
      e.handlers.toList.mapM (placeHandler (labelOffset e.labels a.offsets)) = .ok handlers →
      MethodType.parse descriptor = .ok type →
      maxima e.pool.pool a.instructions a.offsets (handlers.map fun h => h.handler.toNat)
        (type.parameterSlots + if isStatic then 0 else 1) = .ok (stack, locals) →
      tableAttribute "LineNumberTable" .lineNumberTable
        (placeLines a.offsets e.instructions.size e.lines.toList) e = .ok lines e1 →
      e.locals.toList.mapM (placeVariable (labelOffset e.labels a.offsets)) = .ok rows →
      tableAttribute "LocalVariableTable" .localVariableTable rows e1 = .ok tables e' →
      Finishes isStatic descriptor e ⟨stack, locals, a.instructions, handlers, lines ++ tables⟩ e'

theorem finishes_of_finish {isStatic : Bool} {descriptor : String} {e e' : Emission}
    {body : CodeBody} (h : finish isStatic descriptor e = .ok body e') :
    Finishes isStatic descriptor e body e' := by
  obtain ⟨_, _, hget, h⟩ := bind_eq_ok.1 h
  cases hget
  obtain ⟨assembled, _, hx, h⟩ := bind_eq_ok.1 h
  obtain ⟨ha, rfl⟩ := ofExcept_eq_ok.1 hx
  obtain ⟨handlers, _, hx, h⟩ := bind_eq_ok.1 h
  obtain ⟨hhandlers, rfl⟩ := ofExcept_eq_ok.1 hx
  obtain ⟨type, _, hx, h⟩ := bind_eq_ok.1 h
  obtain ⟨htype, rfl⟩ := ofExcept_eq_ok.1 hx
  obtain ⟨⟨stack, locals⟩, _, hx, h⟩ := bind_eq_ok.1 h
  obtain ⟨hmaxima, rfl⟩ := ofExcept_eq_ok.1 hx
  obtain ⟨lines, e1, hlines, h⟩ := bind_eq_ok.1 h
  obtain ⟨rows, _, hx, hrest⟩ := bind_eq_ok.1 h
  obtain ⟨hrows, rfl⟩ := ofExcept_eq_ok.1 hx
  obtain ⟨tables, e2, htables, hbody⟩ := bind_eq_ok.1 hrest
  obtain ⟨rfl, rfl⟩ := pure_eq_ok.1 hbody
  exact .mk ha hhandlers htype hmaxima hlines hrows htables

variable {P : Symbol → Prop} (hP : Symbol.Named P)

include hP

theorem tableAttribute_isTable {α : Type} {name : String} {payload : List α → Payload}
    {items : List α} {e e' : Emission} (he : e.pool.Inv P) {as : List Attribute}
    (h : tableAttribute name payload items e = .ok as e')
    (hpayload : (payload items).name? = some name ∧ (payload items).IsReadable) :
    ∀ a ∈ as, a.IsTable e'.pool.source := by
  unfold tableAttribute at h
  split at h
  · obtain ⟨rfl, -⟩ := pure_eq_ok.1 h
    simp
  · obtain ⟨index, e1, hgrow, h⟩ := bind_eq_ok.1 h
    obtain ⟨rfl, rfl⟩ := pure_eq_ok.1 h
    obtain ⟨-, ht, -⟩ := grow_spec (Grow.enters_text (hP.text name)) he hgrow
    rw [List.forall_mem_singleton]
    exact ⟨name, ht, hpayload⟩

/-- What laying out makes of sound code. -/
theorem finish_spec {isStatic : Bool} {descriptor : String} {e e' : Emission} (he : e.Sound P)
    {body : CodeBody} (h : finish isStatic descriptor e = .ok body e') :
    body.IsEmitted e'.pool.source := by
  obtain ⟨ha, -, -, -, hlines, -, hlocals⟩ := finishes_of_finish h
  -- The instructions were laid out before the tables entered their names.
  have grows1 := keeps_tableAttribute hP _ _ _ _ _ _ he.inv hlines
  have grows2 := keeps_tableAttribute hP _ _ _ _ _ _ grows1.inv hlocals
  refine ⟨(laidOut_of_assemble ha he.emittable).mono (grows1.trans grows2).le, ?_⟩
  have lineTables := tableAttribute_isTable hP he.inv hlines ⟨rfl, trivial⟩
  have localTables := tableAttribute_isTable hP grows1.inv hlocals ⟨rfl, trivial⟩
  exact List.forall_mem_append.2 ⟨fun a ha => (lineTables a ha).mono grows2.le, localTables⟩

end Emit

/-- Complete commands emit code that is read back. -/
theorem emit_spec {P : Symbol → Prop} (hP : Symbol.Named P) {commands : List Command}
    (hcommands : ∀ c ∈ commands, c.IsComplete) {isStatic : Bool} {descriptor : String}
    {g g' : GrowingPool} {body : CodeBody} (hg : g.Inv P)
    (h : emit commands isStatic descriptor g = .ok body g') : body.IsEmitted g'.source := by
  obtain ⟨e, e', hcommand, hfinish, rfl⟩ := emit_eq_ok.1 h
  have hstart : (Emission.start g).Sound P := ⟨hg, by simp [Emission.start]⟩
  have hsound := Emit.sound_forM (fun c hc => Emit.sound_command hP (hcommands c hc))
  exact Emit.finish_spec hP (hsound _ _ _ hstart hcommand) hfinish

end Code

end JvmClass
