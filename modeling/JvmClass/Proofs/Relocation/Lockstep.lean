import JvmClass.Proofs.Relocation.Alike
import JvmClass.Proofs.Relocation.Attributes

/-!
# Relocations in lockstep

What a relocation does depends on what indices stand for, and not on the indices. Two relocations
of what is alike, begun with one pool, go through the same pools: at each point both fail, or both
succeed with the same result. `Lockstep` states this of two runs; it says nothing about the log,
which tells what is left out, nor about the failure.
-/

namespace JvmClass

open Relocation

/-- Begun with one pool, the runs succeed with the same results and the same pools. -/
def Lockstep {α : Type} (x x' : Build α) : Prop :=
  ∀ g log log' y g', (∃ l, x ⟨g, log⟩ = .ok y ⟨g', l⟩) ↔ ∃ l, x' ⟨g, log'⟩ = .ok y ⟨g', l⟩

namespace Lockstep

variable {α β : Type} {x x' : Build α}

theorem symm (h : Lockstep x x') : Lockstep x' x :=
  fun g log log' y g' => (h g log' log y g').symm

theorem bind (hx : Lockstep x x') {f f' : α → Build β} (hf : ∀ y, Lockstep (f y) (f' y)) :
    Lockstep (x >>= f) (x' >>= f') := by
  -- one direction will do, as what is assumed is symmetric
  have forward {x x' : Build α} {f f' : α → Build β} (hx : Lockstep x x')
      (hf : ∀ y, Lockstep (f y) (f' y)) {g log log' z g'} :
      (∃ l, (x >>= f) ⟨g, log⟩ = .ok z ⟨g', l⟩) → ∃ l, (x' >>= f') ⟨g, log'⟩ = .ok z ⟨g', l⟩ := by
    rintro ⟨l, h⟩
    obtain ⟨y, ⟨g1, l1⟩, hy, hz⟩ := bind_eq_ok.1 h
    obtain ⟨l1', hy'⟩ := (hx g log log' y g1).1 ⟨l1, hy⟩
    obtain ⟨l', hz'⟩ := (hf y g1 l1 l1' z g').1 ⟨l, hz⟩
    exact ⟨l', bind_eq_ok.2 ⟨y, _, hy', hz'⟩⟩
  intro g log log' z g'
  exact ⟨forward hx hf, forward hx.symm fun y => (hf y).symm⟩

end Lockstep

section Requests

variable {α β : Type}

theorem lockstep_pure (y : α) : Lockstep (pure y) (pure y) := by
  intro g log log' z g'
  simp [pure_eq_ok]

theorem lockstep_throw (e : Error) : Lockstep (throw e : Build α) (throw e) := by
  intro g log log' y g'
  simp [throw_ne_ok]

theorem lockstep_ofExcept (x : Except Error α) : Lockstep (ofExcept x) (ofExcept x) := by
  cases x with
  | ok y => exact lockstep_pure y
  | error e => exact lockstep_throw e

/-- A run that ends in `make` of its result. -/
theorem Lockstep.map {x x' : Build α} (h : Lockstep x x') (make : α → β) :
    Lockstep (do return make (← x)) (do return make (← x')) :=
  h.bind fun y => lockstep_pure (make y)

theorem exists_grow_iff {x : Grow α} {g g' : GrowingPool} {log : Log} {y : α} :
    (∃ l, Build.grow x ⟨g, log⟩ = .ok y ⟨g', l⟩) ↔ x g = .ok y g' := by
  rw [grow_run]
  cases x g with
  | ok a g1 => simp
  | error e g1 => simp

theorem lockstep_grow {x x' : Grow α} (h : ∀ g y g', x g = .ok y g' ↔ x' g = .ok y g') :
    Lockstep (Build.grow x) (Build.grow x') := by
  intro g log log' y g'
  rw [exists_grow_iff, exists_grow_iff]
  exact h g y g'

theorem lockstep_record (e e' : Event) : Lockstep (Build.record e) (Build.record e') := by
  intro g log log' y g'
  constructor
  · rintro ⟨l, h⟩
    cases h
    exact ⟨_, rfl⟩
  · rintro ⟨l, h⟩
    cases h
    exact ⟨_, rfl⟩

/-- What is done next may depend on the pool. -/
theorem lockstep_get {f f' : Building → Build α}
    (h : ∀ g log log', Lockstep (f ⟨g, log⟩) (f' ⟨g, log'⟩)) :
    Lockstep (get >>= f) (get >>= f') :=
  fun g log log' y g' => h g log log' g log log' y g'

theorem Lockstep.mapM {γ : Type} {f : α → Build γ} {f' : β → Build γ} {as : List α} {bs : List β}
    (h : List.Forall₂ (fun a b => Lockstep (f a) (f' b)) as bs) :
    Lockstep (as.mapM f) (bs.mapM f') := by
  induction h with
  | nil => exact lockstep_pure []
  | cons hab _ ih =>
    rw [List.mapM_cons, List.mapM_cons]
    exact hab.bind fun c => ih.bind fun cs => lockstep_pure (c :: cs)

end Requests

section Rows

variable {S S' : ImportSource}

theorem lockstep_index {i j : UInt16} (h : Corresponds S i S' j) :
    Lockstep (index S i) (index S' j) := by
  have h' : Corresponds S' j S i := fun t => (h t).symm
  exact lockstep_grow fun g k g' =>
    ⟨Grow.importEntry_of_corresponds h, Grow.importEntry_of_corresponds h'⟩

theorem lockstep_optional {i j : UInt16} (h : CorrespondsOptional S i S' j) :
    Lockstep (Relocation.optional S i) (Relocation.optional S' j) := by
  obtain ⟨hzero, hagree⟩ := h
  unfold Relocation.optional Grow.importOptional
  by_cases hi : i = 0
  · rw [if_pos hi, if_pos (hzero.1 hi)]
    exact lockstep_grow fun _ _ _ => Iff.rfl
  · rw [if_neg hi, if_neg (fun hj => hi (hzero.2 hj))]
    exact lockstep_index hagree

theorem lockstep_indices {is js : List UInt16} (h : List.Forall₂ (Corresponds S · S' ·) is js) :
    Lockstep (is.mapM (index S)) (js.mapM (index S')) :=
  .mapM (h.imp fun _ _ => lockstep_index)

theorem lockstep_innerClass {c c' : InnerClass} (h : c.Alike S S' c') :
    Lockstep (innerClass S c) (innerClass S' c') := by
  obtain ⟨hinner, houter, hname⟩ := h
  exact (lockstep_index hinner).bind fun i => (lockstep_optional houter).bind fun j =>
    (lockstep_optional hname).map fun k => InnerClass.mk i j k _

theorem lockstep_parameter {p p' : Parameter} (h : p.Alike S S' p') :
    Lockstep (parameter S p) (parameter S' p') := by
  obtain ⟨hname⟩ := h
  exact (lockstep_optional hname).map fun i => Parameter.mk i _

end Rows

/-! ## Annotations -/

section Annotations

variable {S S' : ImportSource}

mutual

theorem lockstep_value : (v v' : ElementValue) → v.Alike S S' v' →
    Lockstep (value S v) (value S' v')
  | .const .., _, .const hi => (lockstep_index hi).map _
  | .enum .., _, .enum hi hj =>
    (lockstep_index hi).bind fun i => (lockstep_index hj).map (ElementValue.enum i)
  | .classInfo _, _, .classInfo hi => (lockstep_index hi).map _
  | .nested a, _, .nested ha => (lockstep_annotated a _ ha).map _
  | .array vs, .array vs', .array hvs => by
    rw [value_array, value_array]
    exact (lockstep_values vs vs' hvs).map ElementValue.array

theorem lockstep_annotated : (a a' : AnnotationInfo) → a.Alike S S' a' →
    Lockstep (annotated S a) (annotated S' a')
  | ⟨_, es⟩, ⟨_, es'⟩, .mk hi hes => by
    rw [annotated_eq, annotated_eq]
    exact (lockstep_index hi).bind fun i =>
      (lockstep_elements es es' hes).map (AnnotationInfo.mk i)

theorem lockstep_values : (vs vs' : List ElementValue) →
    List.Forall₂ (ElementValue.Alike S S') vs vs' →
    Lockstep (vs.mapM (value S)) (vs'.mapM (value S'))
  | [], _, .nil => lockstep_pure []
  | v :: vs, v' :: vs', .cons hv hvs => by
    rw [List.mapM_cons, List.mapM_cons]
    exact (lockstep_value v v' hv).bind fun w => (lockstep_values vs vs' hvs).map (w :: ·)

theorem lockstep_elements : (es es' : List Element) → List.Forall₂ (Element.Alike S S') es es' →
    Lockstep (es.mapM (element S)) (es'.mapM (element S'))
  | [], _, .nil => lockstep_pure []
  | ⟨i, v⟩ :: es, ⟨i', v'⟩ :: es', .cons (.mk hi hv) hes => by
    rw [List.mapM_cons, List.mapM_cons]
    refine Lockstep.bind ?_ fun e => (lockstep_elements es es' hes).map (e :: ·)
    exact (lockstep_index hi).bind fun name => (lockstep_value v v' hv).map (Element.mk name)

end

theorem lockstep_annotations {as as' : List AnnotationInfo}
    (h : List.Forall₂ (AnnotationInfo.Alike S S') as as') :
    Lockstep (annotations S as) (annotations S' as') :=
  .mapM (h.imp fun a a' => lockstep_annotated a a')

end Annotations

/-! ## Code -/

section Code

variable {S S' : ImportSource}

theorem Instruction.Alike.encodedLength_eq {i j : Instruction} (h : i.Alike S S' j)
    (offset : Nat) : j.encodedLength offset = i.encodedLength offset := by
  cases h <;> rfl

theorem lockstep_instruction {i j : Instruction} (h : i.Alike S S' j) :
    Lockstep (instruction S i) (instruction S' j) := by
  cases h with
  | constant h | field h | invoke h | invokeInterface h | invokeDynamic h | typed h
  | multiNewArray h => exact (lockstep_index h).map _
  | plain h =>
    cases i with
    | constant | field | invoke | invokeInterface | invokeDynamic | typed | multiNewArray => cases h
    | _ => exact lockstep_pure _

/-- The layout of code does not depend on its indices. -/
theorem Code.offsets_of_alike {code code' : List Instruction}
    (h : List.Forall₂ (Instruction.Alike S S') code code') : offsets code' = offsets code := by
  have after (offset : Nat) (starts : Array Nat) :
      offsetsAfter code' offset starts = offsetsAfter code offset starts := by
    induction h generalizing offset starts with
    | nil => rfl
    | cons hi _ ih => rw [offsetsAfter, offsetsAfter, hi.encodedLength_eq, ih]
  exact after 0 #[]

theorem lockstep_instructions {code code' : List Instruction}
    (h : List.Forall₂ (Instruction.Alike S S') code code') :
    Lockstep (instructions S code) (instructions S' code') := by
  have hindices : Code.indexByOffset code' = Code.indexByOffset code := by
    rw [Code.indexByOffset, Code.offsets_of_alike h, Code.indexByOffset]
  unfold instructions
  rw [hindices]
  exact (Lockstep.mapM (h.imp fun _ _ => lockstep_instruction)).bind fun imported =>
    (lockstep_ofExcept _).map fun placed : Code.Assembled =>
      (placed.instructions, OffsetMap.mk _ placed.offsets)

variable {moved : Option OffsetMap}

theorem lockstep_handler (m : OffsetMap) {h h' : Handler} (hh : h.Alike S S' h') :
    Lockstep (handler S m h) (handler S' m h') := by
  obtain ⟨hc⟩ := hh
  refine (lockstep_ofExcept _).bind fun start => ?_
  refine (lockstep_ofExcept _).bind fun stop => ?_
  refine (lockstep_ofExcept _).bind fun target => ?_
  exact (lockstep_optional hc).map (Handler.mk start stop target)

theorem lockstep_lineNumber (l : LineNumber) :
    Lockstep (lineNumber moved l) (lineNumber moved l) :=
  (lockstep_ofExcept _).map fun start => LineNumber.mk start l.line

theorem lockstep_localVariable {v v' : LocalVariable} (h : v.Alike S S' v') :
    Lockstep (localVariable S moved v) (localVariable S' moved v') := by
  obtain ⟨hname, hdescriptor⟩ := h
  have rest (start length slot : UInt16) := (lockstep_index hname).bind fun i =>
    (lockstep_index hdescriptor).map fun j => LocalVariable.mk start length i j slot
  cases moved with
  | none => exact rest _ _ _
  | some m => exact (lockstep_ofExcept _).bind fun range => rest range.1 range.2 _

theorem lockstep_verificationType {t t' : VerificationType} (h : t.Alike S S' t') :
    Lockstep (verificationType S moved t) (verificationType S' moved t') := by
  cases h with
  | object hi => exact (lockstep_index hi).map _
  | plain h =>
    cases t with
    | object i => exact absurd rfl (h i)
    | uninitialized o => exact (lockstep_ofExcept _).map _
    | _ => exact lockstep_pure _

theorem Frame.Alike.delta_eq {f f' : Frame} (h : f.Alike S S' f') : f'.delta = f.delta := by
  cases h <;> rfl

theorem Frame.offsetsFrom_of_alike {fs fs' : List Frame}
    (h : List.Forall₂ (Frame.Alike S S') fs fs') (previous : Option Nat) :
    offsetsFrom previous fs' = offsetsFrom previous fs := by
  induction h generalizing previous with
  | nil => rfl
  | cons hf _ ih => cases previous <;> rw [offsetsFrom, offsetsFrom, hf.delta_eq, ih]

theorem lockstep_mapTypes {f f' : Frame} (h : f.Alike S S' f') (delta : UInt16) :
    Lockstep ((f.withDelta delta).mapTypes (verificationType S moved))
      ((f'.withDelta delta).mapTypes (verificationType S' moved)) := by
  have types {ts ts' : List VerificationType}
      (h : List.Forall₂ (VerificationType.Alike S S') ts ts') :
      Lockstep (ts.mapM (verificationType S moved)) (ts'.mapM (verificationType S' moved)) :=
    .mapM (h.imp fun _ _ => lockstep_verificationType)
  cases h with
  | same | sameExtended | chop => exact lockstep_pure _
  | oneItem ht | oneItemExtended ht => exact (lockstep_verificationType ht).map _
  | append hts => exact (types hts).map _
  | full hts hus => exact (types hts).bind fun locals => (types hus).map (Frame.full delta locals)

theorem lockstep_frames {fs fs' : List Frame} (h : List.Forall₂ (Frame.Alike S S') fs fs') :
    Lockstep (frames S moved fs) (frames S' moved fs') := by
  have after (previous : Option UInt16) (offsets : List Nat) :
      Lockstep (framesFrom S moved previous (fs.zip offsets))
        (framesFrom S' moved previous (fs'.zip offsets)) := by
    induction h generalizing previous offsets with
    | nil => exact lockstep_pure []
    | cons hf _ ih =>
      cases offsets with
      | nil => exact lockstep_pure []
      | cons o offsets =>
        exact (lockstep_ofExcept _).bind fun offset => (lockstep_mapTypes hf _).bind fun frame =>
          (ih (some offset) offsets).map (frame :: ·)
  rw [frames_eq, frames_eq, Frame.offsetsFrom_of_alike h]
  exact after none _

end Code

/-! ## Attributes -/

section Attributes

variable {S S' : ImportSource}

/-- An attribute that is left out leaves the pool alone. -/
theorem attribute?_run_of_not_isKept {a : Attribute} (ha : ¬a.isKept = true)
    (moved : Option OffsetMap) (g : GrowingPool) (log : Log) :
    ∃ l, attribute? S moved a ⟨g, log⟩ = .ok none ⟨g, l⟩ := by
  rw [Attribute.isKept_iff, not_not] at ha
  obtain ⟨i, p⟩ := a
  rcases ha with ⟨methods, rfl⟩ | ⟨bytes, rfl⟩
  · exact ⟨log, rfl⟩
  · exact ⟨_, rfl⟩

theorem Lockstep.leftOut {moved : Option OffsetMap} {x : Build (List Attribute)}
    {a : Attribute} (ha : ¬a.isKept = true) {as : List Attribute}
    (h : Lockstep (as.filterMapM (attribute? S moved)) x) :
    Lockstep ((a :: as).filterMapM (attribute? S moved)) x := by
  intro g log log' y g'
  obtain ⟨l, hrun⟩ := attribute?_run_of_not_isKept ha moved g log
  rw [List.filterMapM_cons, bind_run hrun]
  exact h g l log' y g'

theorem Lockstep.leftOut_append {moved : Option OffsetMap} {x : Build (List Attribute)}
    {pre : List Attribute} (hpre : ∀ a ∈ pre, ¬a.isKept = true) {as : List Attribute}
    (h : Lockstep x (as.filterMapM (attribute? S moved))) :
    Lockstep x ((pre ++ as).filterMapM (attribute? S moved)) := by
  induction pre with
  | nil => exact h
  | cons a pre ih =>
    obtain ⟨ha, hpre⟩ := List.forall_mem_cons.1 hpre
    exact (Lockstep.leftOut ha (ih hpre).symm).symm

theorem Attribute.Alike.not_isLeftOut {a a' : Attribute} (h : a.Alike S S' a') :
    ¬a.IsLeftOut ∧ ¬a'.IsLeftOut := by
  obtain ⟨-, hp⟩ := h
  constructor <;> rintro (⟨methods, e⟩ | ⟨bytes, e⟩) <;> cases hp <;> cases e

mutual

theorem lockstep_attribute? (moved : Option OffsetMap) : (a a' : Attribute) → a.Alike S S' a' →
    Lockstep (attribute? S moved a) (attribute? S' moved a')
  | ⟨i, p⟩, ⟨i', p'⟩, h => by
    obtain ⟨hout, hout'⟩ := h.not_isLeftOut
    obtain ⟨hi, hp⟩ := h
    rw [attribute?_eq S moved hout, attribute?_eq S' moved hout']
    exact (lockstep_index hi).bind fun j =>
      (lockstep_payload moved p p' hp).map fun q => some (Attribute.mk j q)
termination_by structural a => a

theorem lockstep_payload (moved : Option OffsetMap) : (p p' : Payload) → p.Alike S S' p' →
    Lockstep (payload S moved p) (payload S' moved p')
  | .code body, .code body', .code h => (lockstep_codeBody body body' h).map Payload.code
  | .record cs, .record cs', .record h => by
    rw [payload_record, payload_record]
    exact (lockstep_components cs cs' h).map Payload.record
  | _, _, .constantValue h => (lockstep_index h).map _
  | _, _, .exceptions h => (lockstep_indices h).map _
  | _, _, .sourceFile h => (lockstep_index h).map _
  | _, _, .signature h => (lockstep_index h).map _
  | _, _, .lineNumberTable =>
    (Lockstep.mapM (List.forall₂_same.2 fun l _ => lockstep_lineNumber l)).map _
  | _, _, .localVariableTable h =>
    (Lockstep.mapM (h.imp fun _ _ => lockstep_localVariable)).map _
  | _, _, .localVariableTypeTable h =>
    (Lockstep.mapM (h.imp fun _ _ => lockstep_localVariable)).map _
  | _, _, .stackMapTable h => (lockstep_frames h).map _
  | _, _, .innerClasses h => (Lockstep.mapM (h.imp fun _ _ => lockstep_innerClass)).map _
  | _, _, .enclosingMethod h h' =>
    (lockstep_index h).bind fun owner => (lockstep_optional h').map (Payload.enclosingMethod owner)
  | _, _, .nestHost h => (lockstep_index h).map _
  | _, _, .nestMembers h => (lockstep_indices h).map _
  | _, _, .permittedSubclasses h => (lockstep_indices h).map _
  | _, _, .methodParameters h => (Lockstep.mapM (h.imp fun _ _ => lockstep_parameter)).map _
  | _, _, .deprecated => lockstep_pure _
  | _, _, .synthetic => lockstep_pure _
  | _, _, .visibleAnnotations h => (lockstep_annotations h).map _
  | _, _, .invisibleAnnotations h => (lockstep_annotations h).map _
  | _, _, .visibleParameterAnnotations h =>
    (Lockstep.mapM (h.imp fun _ _ => lockstep_annotations)).map _
  | _, _, .invisibleParameterAnnotations h =>
    (Lockstep.mapM (h.imp fun _ _ => lockstep_annotations)).map _
  | _, _, .annotationDefault h => (lockstep_value _ _ h).map _
  | _, _, .sourceDebugExtension => lockstep_pure _
termination_by structural p => p

theorem lockstep_codeBody : (body body' : CodeBody) → body.Alike S S' body' →
    Lockstep (codeBody S body) (codeBody S' body')
  | ⟨maxStack, maxLocals, code, handlers, inner⟩, ⟨_, _, code', handlers', inner'⟩,
      .mk hcode hhandlers hinner => by
    rw [codeBody_eq, codeBody_eq]
    exact (lockstep_instructions hcode).bind fun placed =>
      (Lockstep.mapM (hhandlers.imp fun _ _ => lockstep_handler placed.2)).bind fun hs =>
      (lockstep_attributes (some placed.2) inner inner' hinner).map fun as =>
        CodeBody.mk maxStack maxLocals placed.1 hs as
termination_by structural body => body

theorem lockstep_attributes (moved : Option OffsetMap) : (as as' : List Attribute) →
    Attribute.AllAlike S S' as as' →
    Lockstep (as.filterMapM (attribute? S moved)) (as'.filterMapM (attribute? S' moved))
  | [], as', h => by
    have hpre : ∀ a ∈ as', ¬a.isKept = true :=
      List.filter_eq_nil_iff.1 (List.forall₂_nil_left_iff.1 h)
    have hnil :
        Lockstep ([].filterMapM (attribute? S moved)) ([].filterMapM (attribute? S' moved)) :=
      lockstep_pure []
    simpa using hnil.leftOut_append hpre
  | a :: as, as', h => by
    unfold Attribute.AllAlike at h
    by_cases ha : a.isKept = true
    · rw [List.filter_cons_of_pos ha] at h
      obtain ⟨a', rest, haa, hrest, e⟩ := List.forall₂_cons_left_iff.1 h
      obtain ⟨pre, post, rfl, hpre, -, rfl⟩ := List.filter_eq_cons_iff.1 e
      refine Lockstep.leftOut_append hpre ?_
      rw [List.filterMapM_cons, List.filterMapM_cons]
      refine (lockstep_attribute? moved a a' haa).bind fun r => ?_
      cases r with
      | none => exact lockstep_attributes moved as post hrest
      | some b => exact (lockstep_attributes moved as post hrest).map (b :: ·)
    · rw [List.filter_cons_of_neg ha] at h
      exact (lockstep_attributes moved as as' h).leftOut ha
termination_by structural as => as

theorem lockstep_components : (cs cs' : List Component) →
    List.Forall₂ (Component.Alike S S') cs cs' →
    Lockstep (cs.mapM (component S)) (cs'.mapM (component S'))
  | [], _, .nil => lockstep_pure []
  | ⟨i, k, inner⟩ :: cs, ⟨i', k', inner'⟩ :: cs', .cons (.mk hi hk hinner) hcs => by
    rw [List.mapM_cons, List.mapM_cons]
    refine Lockstep.bind ?_ fun c => (lockstep_components cs cs' hcs).map (c :: ·)
    exact (lockstep_index hi).bind fun name => (lockstep_index hk).bind fun descriptor =>
      (lockstep_attributes none inner inner' hinner).map (Component.mk name descriptor)
termination_by structural cs => cs

end

end Attributes

end JvmClass
