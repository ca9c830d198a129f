import JvmClass.Proofs.Codec.Promotion
import JvmClass.Proofs.Relocation.Code

/-!
# Relocated attributes

Relocating an attribute makes a copy of it, and relocating the copy makes it again, with its
frames as they are written. The induction is on the attribute, with the attributes inside code and
components; code comes with the map of its offsets, and the copy of the code with the map that
leaves them alone.
-/

namespace JvmClass

open Relocation

namespace Relocation

/-- A component of a record with its indices and attributes relocated. -/
def component (S : ImportSource) : Component → Build Component
  | ⟨name, descriptor, inner⟩ => do
    let name ← index S name
    let descriptor ← index S descriptor
    return ⟨name, descriptor, ← inner.filterMapM (attribute? S none)⟩

theorem attributesAfter_eq (S : ImportSource) (moved : Option OffsetMap)
    (done as : List Attribute) :
    attributesAfter S moved done as =
      (do return done.reverse ++ (← as.filterMapM (attribute? S moved))) := by
  induction as generalizing done with
  | nil => simp [attributesAfter]
  | cons a rest ih =>
    rw [attributesAfter, List.filterMapM_cons, bind_assoc]
    congr
    funext r
    cases r <;> simp [ih]

theorem attributes_eq (S : ImportSource) (as : List Attribute) :
    attributes S as = as.filterMapM (attribute? S none) := by
  rw [attributes, attributesAfter_eq]
  simp

theorem componentsAfter_eq (S : ImportSource) (done cs : List Component) :
    componentsAfter S done cs = (do return done.reverse ++ (← cs.mapM (component S))) := by
  induction cs generalizing done with
  | nil => simp [componentsAfter]
  | cons c rest ih =>
    obtain ⟨name, descriptor, inner⟩ := c
    simp [componentsAfter, component, attributesAfter_eq, ih]

theorem codeBody_eq (S : ImportSource) (maxStack maxLocals : UInt16) (code : List Instruction)
    (handlers : List Handler) (inner : List Attribute) :
    codeBody S ⟨maxStack, maxLocals, code, handlers, inner⟩ = (do
      let placed ← instructions S code
      let handlers ← handlers.mapM (handler S placed.2)
      return ⟨maxStack, maxLocals, placed.1, handlers,
        ← inner.filterMapM (attribute? S (some placed.2))⟩) := by
  simp [codeBody, attributesAfter_eq]

theorem payload_record (S : ImportSource) (moved : Option OffsetMap) (cs : List Component) :
    payload S moved (.record cs) = (do return .record (← cs.mapM (component S))) := by
  simp [payload, componentsAfter_eq]

theorem attribute?_eq (S : ImportSource) (moved : Option OffsetMap) {i : UInt16} {p : Payload}
    (h : ¬(Attribute.mk i p).IsLeftOut) :
    attribute? S moved ⟨i, p⟩ = (do
      let i ← index S i
      return some ⟨i, ← payload S moved p⟩) := by
  cases p with
  | bootstrapMethods methods => exact absurd (.inl ⟨methods, rfl⟩) h
  | raw bytes => exact absurd (.inr ⟨bytes, rfl⟩) h
  | _ => rfl

end Relocation

theorem Payload.Copied.not_isLeftOut {S G : ImportSource} {moved : Option OffsetMap}
    {p p' : Payload} (h : Payload.Copied S G moved p p') (i : UInt16) :
    ¬(Attribute.mk i p'.promote).IsLeftOut := by
  rintro (⟨methods, e⟩ | ⟨bytes, e⟩) <;> cases h <;> cases e

section Attributes

variable {P : Symbol → Prop} {S : ImportSource}

/-- What relocating an attribute comes to: it is left out, or it is copied, and the copy is
settled. -/
def AttributeSettled (S : ImportSource) (moved moved' : Option OffsetMap) (a : Attribute)
    (G : ImportSource) (g : GrowingPool) (r : Option Attribute) (g' : GrowingPool) : Prop :=
  (r = none ∧ a.IsLeftOut ∧ g' = g) ∨
    ∃ a', r = some a' ∧ Attribute.Copied S G moved a a' ∧
      attribute? G moved' a'.promote ⟨g, .off⟩ = .ok (some a'.promote) ⟨g', .off⟩

/-- A copied payload, and its relocation with the frames as they are written. -/
def PayloadSettled (S : ImportSource) (moved moved' : Option OffsetMap) (p : Payload)
    (G : ImportSource) (g : GrowingPool) (p' : Payload) (g' : GrowingPool) : Prop :=
  Payload.Copied S G moved p p' ∧ payload G moved' p'.promote ⟨g, .off⟩ = .ok p'.promote ⟨g', .off⟩

/-- A payload without frames inside. -/
theorem Settles.flat {α γ : Type} {x : Build α} {a : γ} {R : ImportSource → γ → α → Prop}
    {again : ImportSource → α → Build α} (h : Settles P x (Again R again a)) (make : α → Payload)
    {moved moved' : Option OffsetMap} {p : Payload}
    (hR : ∀ G y, R G a y → Payload.Copied S G moved p (make y))
    (hagain : ∀ G y, payload G moved' (make y).promote = (do return make (← again G y)))
    (hmake : ∀ y, (make y).promote = make y) :
    Settles P (do return make (← x)) (PayloadSettled S moved moved' p) := by
  refine (h.bind fun y => settles_pure (make y)).mono ?_
  rintro G g z g'' ⟨y, g', ⟨hr, hy⟩, rfl, rfl⟩
  refine ⟨hR G y hr, ?_⟩
  rw [hagain, hmake, bind_run hy]
  rfl

theorem settles_fixed {moved moved' : Option OffsetMap} {p : Payload}
    (h : ∀ G, Payload.Copied S G moved p p) (hp : p.promote = p)
    (hagain : ∀ G, payload G moved' p = pure p) :
    Settles P (pure p) (PayloadSettled S moved moved' p) := by
  refine (settles_pure p).mono ?_
  rintro G g _ _ ⟨rfl, rfl⟩
  refine ⟨h G, ?_⟩
  rw [hp, hagain]
  rfl

mutual

theorem settles_attribute? (hS : S.Supplies P) {moved moved' : Option OffsetMap}
    (hm : FixesOffsets moved moved') : (a : Attribute) →
    Settles P (attribute? S moved a) (AttributeSettled S moved moved' a)
  | ⟨i, p⟩ => by
    by_cases hout : (Attribute.mk i p).IsLeftOut
    · have hnone : Settles P (pure none : Build (Option Attribute))
          (AttributeSettled S moved moved' ⟨i, p⟩) := by
        refine (settles_pure none).mono ?_
        rintro G g _ _ ⟨rfl, rfl⟩
        exact .inl ⟨rfl, hout, rfl⟩
      rcases hout with ⟨methods, rfl⟩ | ⟨bytes, rfl⟩
      · exact hnone
      · exact hnone
    · rw [attribute?_eq S moved hout]
      refine ((settles_index hS i).bind fun j => (settles_payload hS hm p hout).bind fun p' =>
        settles_pure (some (Attribute.mk j p'))).mono ?_
      rintro G g _ _ ⟨j, g1, ⟨hi, ri⟩, p', g2, ⟨hp, rp⟩, rfl, rfl⟩
      refine .inr ⟨_, rfl, .mk hi hp, ?_⟩
      rw [Attribute.promote, attribute?_eq G moved' (hp.not_isLeftOut j), bind_run ri, bind_run rp]
      rfl

theorem settles_payload (hS : S.Supplies P) {moved moved' : Option OffsetMap}
    (hm : FixesOffsets moved moved') {i : UInt16} : (p : Payload) →
    ¬(Attribute.mk i p).IsLeftOut →
    Settles P (payload S moved p) (PayloadSettled S moved moved' p) := by
  intro p hout
  cases p with
  | code body =>
    refine ((settles_codeBody hS body).bind fun body' => settles_pure (Payload.code body')).mono ?_
    rintro G g _ _ ⟨body', g1, ⟨hb, rb⟩, rfl, rfl⟩
    refine ⟨.code hb, ?_⟩
    rw [Payload.promote, payload, bind_run rb]
    rfl
  | constantValue i =>
    exact (settles_index hS i).flat .constantValue (fun _ _ => .constantValue) (fun _ _ => rfl)
      fun _ => rfl
  | exceptions is =>
    exact (settles_indices hS is).flat .exceptions (fun _ _ => .exceptions) (fun _ _ => rfl)
      fun _ => rfl
  | sourceFile i =>
    exact (settles_index hS i).flat .sourceFile (fun _ _ => .sourceFile) (fun _ _ => rfl)
      fun _ => rfl
  | signature i =>
    exact (settles_index hS i).flat .signature (fun _ _ => .signature) (fun _ _ => rfl)
      fun _ => rfl
  | lineNumberTable ls =>
    exact (Settles.mapM (settles_lineNumber hm) ls).flat .lineNumberTable
      (fun _ _ => .lineNumberTable) (fun _ _ => rfl) fun _ => rfl
  | localVariableTable vs =>
    exact (Settles.mapM (settles_localVariable hm hS) vs).flat .localVariableTable
      (fun _ _ => .localVariableTable) (fun _ _ => rfl) fun _ => rfl
  | localVariableTypeTable vs =>
    exact (Settles.mapM (settles_localVariable hm hS) vs).flat .localVariableTypeTable
      (fun _ _ => .localVariableTypeTable) (fun _ _ => rfl) fun _ => rfl
  | stackMapTable fs =>
    refine ((settles_frames hS hm fs).bind fun fs' =>
      settles_pure (Payload.stackMapTable fs')).mono ?_
    rintro G g _ _ ⟨fs', g1, ⟨hf, rf⟩, rfl, rfl⟩
    refine ⟨.stackMapTable hf, ?_⟩
    rw [Payload.promote, payload, bind_run rf]
    rfl
  | innerClasses cs =>
    exact (Settles.mapM (settles_innerClass hS) cs).flat .innerClasses (fun _ _ => .innerClasses)
      (fun _ _ => rfl) fun _ => rfl
  | enclosingMethod owner method =>
    refine ((settles_index hS owner).bind fun j => (settles_optional hS method).bind fun l =>
      settles_pure (Payload.enclosingMethod j l)).mono ?_
    rintro G g _ _ ⟨j, g1, ⟨hj, rj⟩, l, g2, ⟨hl, rl⟩, rfl, rfl⟩
    refine ⟨.enclosingMethod hj hl, ?_⟩
    show payload G moved' (.enclosingMethod j l) _ = _
    rw [payload, bind_run rj, bind_run rl]
    rfl
  | bootstrapMethods methods => exact absurd (.inl ⟨methods, rfl⟩) hout
  | nestHost i =>
    exact (settles_index hS i).flat .nestHost (fun _ _ => .nestHost) (fun _ _ => rfl) fun _ => rfl
  | nestMembers is =>
    exact (settles_indices hS is).flat .nestMembers (fun _ _ => .nestMembers) (fun _ _ => rfl)
      fun _ => rfl
  | permittedSubclasses is =>
    exact (settles_indices hS is).flat .permittedSubclasses (fun _ _ => .permittedSubclasses)
      (fun _ _ => rfl) fun _ => rfl
  | methodParameters ps =>
    exact (Settles.mapM (settles_parameter hS) ps).flat .methodParameters
      (fun _ _ => .methodParameters) (fun _ _ => rfl) fun _ => rfl
  | deprecated => exact settles_fixed (fun _ => .deprecated) rfl fun _ => rfl
  | synthetic => exact settles_fixed (fun _ => .synthetic) rfl fun _ => rfl
  | visibleAnnotations as =>
    exact (settles_annotations hS as).flat .visibleAnnotations (fun _ _ => .visibleAnnotations)
      (fun _ _ => rfl) fun _ => rfl
  | invisibleAnnotations as =>
    exact (settles_annotations hS as).flat .invisibleAnnotations (fun _ _ => .invisibleAnnotations)
      (fun _ _ => rfl) fun _ => rfl
  | visibleParameterAnnotations ps =>
    exact (Settles.mapM (settles_annotations hS) ps).flat .visibleParameterAnnotations
      (fun _ _ => .visibleParameterAnnotations) (fun _ _ => rfl) fun _ => rfl
  | invisibleParameterAnnotations ps =>
    exact (Settles.mapM (settles_annotations hS) ps).flat .invisibleParameterAnnotations
      (fun _ _ => .invisibleParameterAnnotations) (fun _ _ => rfl) fun _ => rfl
  | annotationDefault v =>
    exact (settles_value hS v).flat .annotationDefault (fun _ _ => .annotationDefault)
      (fun _ _ => rfl) fun _ => rfl
  | record cs =>
    rw [payload_record]
    refine ((settles_components hS cs).bind fun cs' => settles_pure (Payload.record cs')).mono ?_
    rintro G g _ _ ⟨cs', g1, ⟨hc, rc⟩, rfl, rfl⟩
    refine ⟨.record hc, ?_⟩
    rw [Payload.promote, payload_record, bind_run rc]
    rfl
  | sourceDebugExtension bytes =>
    exact settles_fixed (fun _ => .sourceDebugExtension) rfl fun _ => rfl
  | raw bytes => exact absurd (.inr ⟨bytes, rfl⟩) hout

theorem settles_codeBody (hS : S.Supplies P) : (body : CodeBody) →
    Settles P (codeBody S body) fun G g body' g' => CodeBody.Copied S G body body' ∧
      codeBody G body'.promote ⟨g, .off⟩ = .ok body'.promote ⟨g', .off⟩
  | ⟨maxStack, maxLocals, code, handlers, inner⟩ => by
    rw [codeBody_eq]
    refine ((settles_instructions hS code).bindOn fun y G g g' ⟨_, _, _, hfix, _⟩ =>
      (Settles.mapM (settles_handler hS hfix) handlers).bind fun handlers' =>
      (settles_attributes hS (some y.2) (some _) hfix inner).bind fun inner' =>
      settles_pure (CodeBody.mk maxStack maxLocals y.1 handlers' inner')).mono ?_
    rintro G g _ _ ⟨⟨code', m⟩, g1, ⟨e, hcode, -, -, rcode⟩, handlers', g2, ⟨hh, rh⟩, inner', g3,
      ⟨hinner, rinner⟩, rfl, rfl⟩
    dsimp only at e hcode rcode hh rh hinner rinner ⊢
    subst e
    refine ⟨.mk hcode hh hinner, ?_⟩
    rw [CodeBody.promote, codeBody_eq, bind_run rcode, bind_run rh, bind_run rinner]
    rfl

theorem settles_attributes (hS : S.Supplies P) (moved moved' : Option OffsetMap)
    (hm : FixesOffsets moved moved') : (as : List Attribute) →
    Settles P (as.filterMapM (attribute? S moved)) fun G g as' g' =>
      Attribute.AllCopied S G moved as as' ∧
        (promoteAttributes as').filterMapM (attribute? G moved') ⟨g, .off⟩ =
          .ok (promoteAttributes as') ⟨g', .off⟩
  | [] => by
    refine (settles_pure ([] : List Attribute)).mono ?_
    rintro G g _ _ ⟨rfl, rfl⟩
    exact ⟨.nil, rfl⟩
  | a :: as => by
    rw [List.filterMapM_cons]
    intro g ys b hg h
    obtain ⟨r, b1, h1, h⟩ := bind_eq_ok.1 h
    obtain ⟨g1, rfl, grows1, post1⟩ := settles_attribute? hS hm a g r b1 hg h1
    cases r with
    | none =>
      obtain ⟨g2, rfl, grows2, post2⟩ :=
        settles_attributes hS moved moved' hm as g1 ys b grows1.inv h
      refine ⟨g2, rfl, grows1.trans grows2, fun G hG => ?_⟩
      obtain ⟨hcopied, again⟩ := post2 G hG
      rcases post1 G (le_trans grows2.le hG) with ⟨-, hout, rfl⟩ | ⟨_, e, -⟩
      · exact ⟨.leftOut hout hcopied, again⟩
      · cases e
    | some a' =>
      obtain ⟨as', b2, h2, h⟩ := bind_eq_ok.1 h
      obtain ⟨rfl, rfl⟩ := pure_eq_ok.1 h
      obtain ⟨g2, rfl, grows2, post2⟩ :=
        settles_attributes hS moved moved' hm as g1 as' _ grows1.inv h2
      refine ⟨g2, rfl, grows1.trans grows2, fun G hG => ?_⟩
      obtain ⟨hcopied, again⟩ := post2 G hG
      rcases post1 G (le_trans grows2.le hG) with ⟨e, -, -⟩ | ⟨_, e, ha, ra⟩
      · cases e
      · cases e
        refine ⟨.copied ha hcopied, ?_⟩
        rw [promoteAttributes, List.filterMapM_cons, bind_run ra]
        exact bind_eq_ok.2 ⟨_, _, again, rfl⟩

theorem settles_components (hS : S.Supplies P) : (cs : List Component) →
    Settles P (cs.mapM (component S)) fun G g cs' g' =>
      List.Forall₂ (Component.Copied S G) cs cs' ∧
        (promoteComponents cs').mapM (component G) ⟨g, .off⟩ =
          .ok (promoteComponents cs') ⟨g', .off⟩
  | [] => by
    refine (settles_pure ([] : List Component)).mono ?_
    rintro G g _ _ ⟨rfl, rfl⟩
    exact ⟨.nil, rfl⟩
  | ⟨name, descriptor, inner⟩ :: cs => by
    rw [List.mapM_cons]
    refine (((settles_index hS name).bind fun i => (settles_index hS descriptor).bind fun j =>
      (settles_attributes hS none none trivial inner).bind fun inner' =>
      settles_pure (Component.mk i j inner')).bind fun c =>
      (settles_components hS cs).bind fun cs' => settles_pure (c :: cs')).mono ?_
    rintro G g _ _ ⟨_, g3, ⟨i, g1, ⟨hi, ri⟩, j, g2, ⟨hj, rj⟩, inner', _, ⟨hinner, rinner⟩, rfl,
      rfl⟩, cs', g4, ⟨hcs, rcs⟩, rfl, rfl⟩
    refine ⟨.cons (.mk hi hj hinner) hcs, ?_⟩
    have rc : component G ⟨i, j, promoteAttributes inner'⟩ ⟨g, .off⟩ =
        .ok ⟨i, j, promoteAttributes inner'⟩ ⟨g3, .off⟩ := by
      rw [component, bind_run ri, bind_run rj, bind_run rinner]
      rfl
    rw [promoteComponents, List.mapM_cons, bind_run rc, bind_run rcs]
    rfl

end

end Attributes

end JvmClass
