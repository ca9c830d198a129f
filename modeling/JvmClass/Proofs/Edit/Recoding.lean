import JvmClass.Proofs.Edit.Readable
import JvmClass.Proofs.Edit.Scripts
import JvmClass.Proofs.Relocation.Unplaced

/-!
# A new body for a method

A method that is given new code keeps its flags, its name and its other attributes, and the code
stands where the old code stood (`Attribute.Recoded`). All else is what it is without the edit
(`build_recoded`): the new code only adds to the pool, so other members may be numbered and laid out
otherwise, but they are copies of the same members. What is not kept is the table of bootstrap
methods, which holds what the entries of the new class need (`build_unlinked`).
-/

namespace JvmClass

open Relocation Draft

/-! ## The place of new code -/

namespace Attribute

/-- The attribute `a` among copies of the attributes without code: in the place of the first code,
or before all others if there is none. -/
inductive Recoded (S G : ImportSource) (a : Attribute) : List Attribute → List Attribute → Prop
  | instead {before behind before' behind' : List Attribute} {code : Attribute} :
      bodies before = [] → code.body?.isSome → AllCopied S G none before before' →
      AllCopied S G none (others behind) behind' →
      Recoded S G a (before ++ code :: behind) (before' ++ a :: behind')
  | first {old copies : List Attribute} :
      bodies old = [] → AllCopied S G none old copies → Recoded S G a old (a :: copies)

theorem bodies_of_allCopied {S G : ImportSource} {as as' : List Attribute}
    (h : AllCopied S G none as as') (has : bodies as = []) : bodies as' = [] := by
  have hbodies := h.bodies
  rw [has] at hbodies
  exact List.forall₂_nil_left_iff.1 hbodies

/-- The new code is the only code. -/
theorem Recoded.bodies {S G : ImportSource} {a : Attribute} {old new : List Attribute}
    (h : Recoded S G a old new) {body : CodeBody} (ha : a.body? = some body) :
    bodies new = [body] := by
  cases h with
  | instead hbefore _ hb ha' =>
    have h1 := bodies_of_allCopied hb hbefore
    have h2 := bodies_of_allCopied ha' (bodies_others _)
    unfold Attribute.bodies at h1 h2 ⊢
    rw [List.filterMap_append, List.filterMap_cons_some ha, h1, h2]
    rfl
  | first hold hc =>
    have h1 := bodies_of_allCopied hc hold
    unfold Attribute.bodies at h1 ⊢
    rw [List.filterMap_cons_some ha, h1]

/-- The first code among attributes. -/
theorem exists_first_body (as : List Attribute) :
    bodies as = [] ∨ ∃ before code behind, as = before ++ code :: behind ∧ bodies before = [] ∧
      code.body?.isSome := by
  induction as with
  | nil => exact .inl rfl
  | cons a as ih =>
    cases ha : a.body? with
    | some body => exact .inr ⟨[], a, as, rfl, rfl, by rw [ha]; rfl⟩
    | none =>
      have hcons (as : List Attribute) : bodies (a :: as) = bodies as :=
        List.filterMap_cons_none ha
      rcases ih with h | ⟨before, code, behind, rfl, hbefore, hcode⟩
      · exact .inl ((hcons as).trans h)
      · exact .inr ⟨a :: before, code, behind, rfl, (hcons before).trans hbefore, hcode⟩

end Attribute

namespace Draft

open Attribute

section ReplaceCode

variable {S : ImportSource} {emitted : Build Attribute}

theorem replaceCodeAfter_cons {a : Attribute} (ha : a.body? = none) (done rest : List Attribute)
    (pending : Bool) :
    replaceCodeAfter S emitted done pending (a :: rest) = (do
      let copy ← attribute? S none a
      replaceCodeAfter S emitted (copy.toList ++ done) pending rest) := by
  obtain ⟨i, p⟩ := a
  cases p with
  | code => cases ha
  | _ => exact bind_congr fun copy => by cases copy <;> rfl

/-- Attributes before the first code are copied. -/
theorem replaceCodeAfter_append {before : List Attribute} (hbefore : bodies before = [])
    (done rest : List Attribute) (pending : Bool) :
    replaceCodeAfter S emitted done pending (before ++ rest) = (do
      let copies ← before.filterMapM (attribute? S none)
      replaceCodeAfter S emitted (copies.reverse ++ done) pending rest) := by
  induction before generalizing done with
  | nil => simp
  | cons a before ih =>
    obtain ⟨ha, hrest⟩ := List.forall_mem_cons.1 (List.filterMap_eq_nil_iff.1 hbefore)
    have hrest : bodies before = [] := List.filterMap_eq_nil_iff.2 hrest
    rw [List.cons_append, replaceCodeAfter_cons ha, List.filterMapM_cons, bind_assoc]
    congr
    funext r
    rw [ih hrest]
    cases r <;> simp

/-- Once the new code has its place, other code is left out. -/
theorem replaceCodeAfter_false (done old : List Attribute) :
    replaceCodeAfter S emitted done false old = (do
      let copies ← (others old).filterMapM (attribute? S none)
      return (done.reverse ++ copies, false)) := by
  induction old generalizing done with
  | nil => simp [replaceCodeAfter, others]
  | cons a old ih =>
    cases ha : a.body? with
    | none =>
      rw [replaceCodeAfter_cons ha, others, List.filter_cons_of_pos (by rw [ha]; rfl),
        List.filterMapM_cons, bind_assoc]
      congr
      funext r
      rw [ih]
      cases r <;> simp [others]
    | some body =>
      rw [others, List.filter_cons_of_neg (by simp [ha])]
      obtain ⟨i, p⟩ := a
      cases p with
      | code => exact ih done
      | _ => cases ha

theorem replaceCode_instead {before behind : List Attribute} {code : Attribute}
    (hbefore : bodies before = []) (hcode : code.body?.isSome) :
    replaceCode S emitted (before ++ code :: behind) = (do
      let copies ← attributes S before
      let a ← emitted
      return copies ++ a :: (← attributes S (others behind))) := by
  obtain ⟨i, p⟩ := code
  cases p with
  | code body =>
    rw [replaceCode, replaceCodeAfter_append hbefore, attributes_eq, attributes_eq]
    simp [replaceCodeAfter, replaceCodeAfter_false]
  | _ => cases hcode

theorem replaceCode_first {old : List Attribute} (hold : bodies old = []) :
    replaceCode S emitted old = (do
      let copies ← attributes S old
      return (← emitted) :: copies) := by
  rw [replaceCode, ← List.append_nil old, replaceCodeAfter_append hold, List.append_nil,
    attributes_eq]
  simp [replaceCodeAfter]

end ReplaceCode

end Draft

/-! ## Members -/

/-- A copy of a member with its flags. All code in it is short enough to have offsets. -/
structure Member.Rebuilt (S G : ImportSource) (m m' : Member) : Prop where
  access : m'.access = m.access
  copied : m.Copied S G m'
  compact : AllCompact m'.attributes

/-- A copy of a method with new code, which is emitted for the flags of the method. -/
structure Member.Recoded (S G : ImportSource) (key : MemberKey) (commands : List Command)
    (m m' : Member) : Prop where
  access : m'.access = m.access
  name : G.pool.text m'.name = .ok key.name
  descriptor : G.pool.text m'.descriptor = .ok key.descriptor
  code : ∃ name body, G.pool.text name = .ok "Code" ∧
    body.EmittedFrom Symbol.IsValid G commands m.access key.descriptor ∧
    Attribute.bodies m'.attributes = [body] ∧
    Attribute.Recoded S G ⟨name, .code body⟩ m.attributes m'.attributes

/-- What becomes of a member of the base class that keeps its flags. -/
def MemberDraft.Remade (S G : ImportSource) : MemberDraft → Member → Prop
  | .kept m _ none none, m' => m.Rebuilt S G m'
  | .kept m key none (some commands), m' => m.Recoded S G key commands m'
  | _, _ => True

section Members

variable {S : ImportSource} (hS : S.Supplies Symbol.IsValid)

include hS

theorem settles_copies (as : List Attribute) :
    Settles Symbol.IsValid (attributes S as) fun G _ as' _ =>
      Attribute.AllCopied S G none as as' ∧ AllCompact as' := by
  rw [attributes_eq]
  intro g as' b hg h
  obtain ⟨g', rfl, grows, hcopied⟩ := settles_attributes hS none none trivial as g as' b hg h
  obtain ⟨_, ⟨⟩, -, hcompact⟩ := settles_compact_attributes hS none none trivial as g as' _ hg h
  exact ⟨g', rfl, grows, fun G hG => ⟨(hcopied G hG).1, hcompact G hG⟩⟩

theorem settles_rebuilt (m : Member) :
    Settles Symbol.IsValid (copyMember S m m.access) fun G _ m' _ => m.Rebuilt S G m' := by
  refine ((settles_index hS m.name).bind fun i => (settles_index hS m.descriptor).bind fun j =>
    (settles_copies hS m.attributes).bind fun as =>
    settles_pure (Member.mk m.access i j as)).mono ?_
  rintro G g _ _ ⟨i, _, ⟨hi, -⟩, j, _, ⟨hj, -⟩, as, _, ⟨has, hcompact⟩, rfl, -⟩
  exact ⟨rfl, ⟨hi, hj, has⟩, hcompact⟩

/-- New code, in its place among copies of the other attributes. -/
theorem settles_recode {L : ImportSource → Attribute → Prop} {emitted : Build Attribute}
    (he : Settles Symbol.IsValid emitted fun G _ a _ => L G a) (old : List Attribute) :
    Settles Symbol.IsValid (replaceCode S emitted old) fun G _ as _ =>
      ∃ a, L G a ∧ Attribute.Recoded S G a old as := by
  obtain hold | ⟨before, code, behind, rfl, hbefore, hcode⟩ := Attribute.exists_first_body old
  · rw [replaceCode_first hold]
    refine ((settles_copies hS old).bind fun copies => he.bind fun a =>
      settles_pure (a :: copies)).mono ?_
    rintro G g _ _ ⟨copies, _, ⟨hcopies, -⟩, a, _, ha, rfl, -⟩
    exact ⟨a, ha, .first hold hcopies⟩
  · rw [replaceCode_instead hbefore hcode]
    refine ((settles_copies hS before).bind fun copies => he.bind fun a =>
      (settles_copies hS (Attribute.others behind)).bind fun copies' =>
      settles_pure (copies ++ a :: copies')).mono ?_
    rintro G g _ _ ⟨copies, _, ⟨hcopies, -⟩, a, _, ha, copies', _, ⟨hcopies', -⟩, rfl, -⟩
    exact ⟨a, ha, .instead hbefore hcode hcopies hcopies'⟩

theorem settles_remade_method (k : MemberDraft) :
    Settles Symbol.IsValid (buildMethod S k) fun G _ m' _ => k.Remade S G m' := by
  have hP := Symbol.named_isValid
  match k with
  | .kept m _ none none => exact Settles.record (settles_rebuilt hS m) _
  | .kept m key none (some commands) =>
    refine Settles.record ((settles_member hP m.access key (settles_recode hS
      (settles_emitCode hP m.access key.descriptor commands) m.attributes)).mono ?_) _
    rintro G g m' g' ⟨haccess, hname, hdescriptor, _, ⟨code, body, rfl, hcode, hbody⟩, hrecoded⟩
    have text {i : UInt16} {s : String} (h : G.Denotes i (.text s)) : G.pool.text i = .ok s :=
      Pool.text_eq_ok.2 (ImportSource.denotes_text_iff.1 h)
    exact ⟨haccess, text hname, text hdescriptor, code, body, text hcode, hbody,
      hrecoded.bodies rfl, hrecoded⟩
  | .kept _ _ (some _) _ | .added .. => exact (settles_buildMethod hP hS _).onlyGrows

end Members

/-! ## Classes -/

/-- All of a class but its methods, in a class that is built from it. -/
structure ClassFile.Rebuilt (c r : ClassFile) : Prop where
  minor : r.minor = c.minor
  major : r.major = c.major
  access : r.access = c.access
  thisClass : SameSymbol (importSource c) c.thisClass (importSource r) r.thisClass
  superClass : SameOptional (importSource c) c.superClass (importSource r) r.superClass
  interfaces :
    List.Forall₂ (SameSymbol (importSource c) · (importSource r) ·) c.interfaces r.interfaces
  fields : List.Forall₂ (Member.Rebuilt (importSource c) (importSource r)) c.fields r.fields
  attributes : CopiedAttributes c r
  compact : AllCompact r.attributes

/-- The class without one of its methods. -/
def ClassFile.withoutMethod (c : ClassFile) (k : Nat) : ClassFile :=
  { c with methods := c.methods.eraseIdx k }

/-! ### Two builds of one class -/

/-- The table of bootstrap methods is not compared. -/
theorem Draft.CopiedAttributes.filter_unplaced {c r : ClassFile} (h : CopiedAttributes c r) :
    ∃ copies tail, r.attributes = copies ++ tail ∧
      Attribute.AllCopied (importSource c) (importSource r) none c.attributes copies ∧
      (unplaceAttributes none r.attributes).filter Attribute.isKept =
        (unplaceAttributes none copies).filter Attribute.isKept := by
  obtain ⟨copies, tail, hsum, hcopied, hcomputed, hplain⟩ := h
  have htail : (tail.map (Attribute.unplaced none)).filter Attribute.isKept = [] := by
    by_cases hc : HasComputed r
    · obtain ⟨name, -, rfl⟩ := hcomputed hc
      rfl
    · rw [hplain hc]
      rfl
  refine ⟨copies, tail, hsum, hcopied, ?_⟩
  rw [hsum, unplaceAttributes_eq_map, unplaceAttributes_eq_map, List.map_append, List.filter_append,
    htail, List.append_nil]

theorem Member.Rebuilt.alike {S G H : ImportSource} {m m' m'' : Member} (h : m.Rebuilt S G m')
    (h' : m.Rebuilt S H m'') : Member.Alike G H m'.unplaced m''.unplaced :=
  { access := h'.access.trans h.access.symm
    name := h.copied.name.corresponds h'.copied.name
    descriptor := h.copied.descriptor.corresponds h'.copied.descriptor
    attributes := Attribute.AllCopied.alike .outside .outside _ h.copied.attributes
      h'.copied.attributes h.compact h'.compact }

theorem alike_members {S G H : ImportSource} {ms ms' ms'' : List Member}
    (h : List.Forall₂ (Member.Rebuilt S G) ms ms')
    (h' : List.Forall₂ (Member.Rebuilt S H) ms ms'') :
    List.Forall₂ (Member.Alike G H) (ms'.map Member.unplaced) (ms''.map Member.unplaced) :=
  forall₂_map_map (forall₂_of_forall₂ h h' fun _ _ _ => Member.Rebuilt.alike)

/-- Two classes built from one are the same but for their numbers and their layout, as far as their
methods are copies of the same methods. -/
theorem ClassFile.Rebuilt.alike {c r r' : ClassFile} (h : c.Rebuilt r) (h' : c.Rebuilt r')
    {ms ms' ms'' : List Member}
    (hm : List.Forall₂ (Member.Rebuilt (importSource c) (importSource r)) ms ms')
    (hm' : List.Forall₂ (Member.Rebuilt (importSource c) (importSource r')) ms ms'') :
    ClassFile.Alike (ClassFile.unplaced { r with methods := ms' })
      (ClassFile.unplaced { r' with methods := ms'' }) := by
  have hattributes : Attribute.AllAlike (importSource r) (importSource r')
      (unplaceAttributes none r.attributes) (unplaceAttributes none r'.attributes) := by
    obtain ⟨copies, tail, hsum, hcopied, hfilter⟩ := h.attributes.filter_unplaced
    obtain ⟨copies', tail', hsum', hcopied', hfilter'⟩ := h'.attributes.filter_unplaced
    have hcompact := h.compact
    have hcompact' := h'.compact
    rw [hsum, allCompact_append] at hcompact
    rw [hsum', allCompact_append] at hcompact'
    rw [Attribute.AllAlike, hfilter, hfilter']
    exact Attribute.AllCopied.alike .outside .outside _ hcopied hcopied' hcompact.1 hcompact'.1
  have hG : importSource (ClassFile.unplaced { r with methods := ms' }) = importSource r :=
    importSource_unplaced _
  have hG' : importSource (ClassFile.unplaced { r' with methods := ms'' }) = importSource r' :=
    importSource_unplaced _
  refine ⟨h'.minor.trans h.minor.symm, h'.major.trans h.major.symm, h'.access.trans h.access.symm,
    ?_, ?_, ?_, ?_, ?_, ?_⟩ <;> rw [hG, hG']
  · exact h.thisClass.corresponds h'.thisClass
  · exact h.superClass.corresponds h'.superClass
  · exact forall₂_indices h.interfaces h'.interfaces
  · exact alike_members h.fields h'.fields
  · exact alike_members hm hm'
  · exact hattributes

namespace Draft

/-! ### One build -/

/-- Members that are kept as they are, and what they are built as. -/
theorem rebuilt_of_remade {c : ClassFile} {S G : ImportSource} {ms ms' : List Member}
    {ks : List MemberDraft} (hk : List.Forall₂ (fun m k => keep c m = .ok k) ms ks)
    (h : List.Forall₂ (MemberDraft.Remade S G) ks ms') :
    List.Forall₂ (Member.Rebuilt S G) ms ms' := by
  refine (forall₂_comp hk h).imp ?_
  rintro m m' ⟨k, hk, hremade⟩
  obtain ⟨key, -, -, rfl⟩ := keep_eq_ok.1 hk
  exact hremade

/-- The table of bootstrap methods, by the entries that need it. -/
theorem tail_of_bootstrapTail {P : Symbol → Prop} {r : ClassFile} {g : GrowingPool}
    (grows : GrowingPool.empty.Grows P g) (hg : importSource r = g.source) {tail : List Attribute}
    (h : BootstrapTail (importSource r) g tail) :
    (HasComputed r → ∃ name, r.pool.text name = .ok "BootstrapMethods" ∧
      tail = [⟨name, .bootstrapMethods r.bootstrapMethods⟩]) ∧ (¬HasComputed r → tail = []) := by
  have hmethods : r.bootstrapMethods = g.bootstrap.toList :=
    congrArg (fun S => S.bootstrap.toList) hg
  rw [hasComputed_iff grows hg]
  unfold BootstrapTail at h
  cases hempty : g.bootstrap.isEmpty with
  | true =>
    rw [hempty] at h
    exact ⟨nofun, fun _ => h⟩
  | false =>
    rw [hempty] at h
    obtain ⟨name, hname, rfl⟩ := h
    refine ⟨fun _ => ⟨name, ?_, by rw [hmethods]⟩, fun hne => absurd rfl hne⟩
    exact Pool.text_eq_ok.2 (ImportSource.denotes_text_iff.1 hname)

/-- A draft of the class `c` in which only methods may have changed. -/
structure Revises (c : ClassFile) (x : Draft) : Prop where
  base : x.base = some c
  thisClass : c.className = .ok x.thisClass
  superClass : c.superName? = .ok x.superClass
  interfaces : c.interfaceNames = .ok x.interfaces
  major : x.major = c.major
  minor : x.minor = c.minor
  access : x.access = c.access
  fields : c.fields.mapM (keep c) = .ok x.fields

theorem Revises.build {bytes : Bytes} {c r : ClassFile} {x : Draft} (hx : x.Revises c)
    (hread : ClassFile.read bytes = .ok c) (hr : x.build = .ok r) :
    c.Rebuilt r ∧
      List.Forall₂ (MemberDraft.Remade (importSource c) (importSource r)) x.methods r.methods := by
  have hsource : x.baseSource = importSource c := by
    rw [baseSource, hx.base]
    rfl
  have hattributes : x.baseAttributes = c.attributes := by
    rw [baseAttributes, hx.base]
    rfl
  have hS : x.baseSource.Supplies Symbol.IsValid := hsource ▸ supplies_of_read hread
  have hkept := mapM_eq_ok_iff.1 hx.fields
  have hfields : Settles Symbol.IsValid (x.fields.mapM (buildField x.baseSource)) fun G _ ms _ =>
      List.Forall₂ (MemberDraft.Remade x.baseSource G) x.fields ms := by
    refine Settles.forall₂ fun k hk => ?_
    obtain ⟨m, -, hkeep⟩ := exists_of_forall₂ hkept k hk
    obtain ⟨key, -, -, rfl⟩ := keep_eq_ok.1 hkeep
    exact settles_rebuilt hS m
  have hparts := settles_parts Symbol.named_isValid hfields
    (Settles.forall₂ fun k _ => settles_remade_method hS k) (settles_copies hS x.baseAttributes)
  obtain ⟨g, grows, hg, h, hfields, hmethods, copies, tail, ⟨hcopies, hcompact⟩, htail, hsum⟩ :=
    build_settled Symbol.named_isValid hS hparts hr
  rw [hsource] at hfields hmethods hcopies
  rw [hattributes] at hcopies
  refine ⟨⟨h.minor.trans hx.minor, h.major.trans hx.major, h.access.trans hx.access, ?_, ?_, ?_,
    rebuilt_of_remade hkept hfields, ?_, ?_⟩, hmethods⟩
  · exact ⟨_, ImportSource.denotes_classRef_iff.2 hx.thisClass, h.thisClass⟩
  · have hsuper := h.superClass
    have hname := hx.superClass
    unfold ClassFile.superName? at hname
    unfold SameOptional
    split at hname
    · rename_i hzero
      rw [← Except.ok.inj hname] at hsuper
      rw [if_pos hzero]
      exact hsuper
    · rename_i hne
      cases hclass : c.pool.className c.superClass with
      | error e =>
        rw [hclass] at hname
        cases hname
      | ok name =>
        rw [hclass] at hname
        rw [← Except.ok.inj hname] at hsuper
        rw [if_neg hne]
        exact ⟨_, ImportSource.denotes_classRef_iff.2 hclass, hsuper⟩
  · refine (forall₂_comp (mapM_eq_ok_iff.1 hx.interfaces) h.interfaces).imp ?_
    rintro i j ⟨name, hname, hj⟩
    exact ⟨_, ImportSource.denotes_classRef_iff.2 hname, hj⟩
  · obtain ⟨hcomputed, hplain⟩ := tail_of_bootstrapTail grows hg htail
    exact ⟨copies, tail, hsum, hcopies, hcomputed, hplain⟩
  · rw [hsum, allCompact_append]
    refine ⟨hcompact, ?_⟩
    unfold BootstrapTail at htail
    split at htail
    · rw [htail]
      trivial
    · obtain ⟨name, -, rfl⟩ := htail
      exact ⟨trivial, trivial⟩

/-! ## One method with new code -/

theorem revises_ofClass {c : ClassFile} {d : Draft} (h : ofClass c = .ok d) : d.Revises c := by
  obtain ⟨hf, -, hthis, hsuper, hinterfaces, hbase, hmajor, hminor, haccess, -⟩ := ofClass_eq_ok.1 h
  exact ⟨hbase, hthis, hsuper, hinterfaces, hmajor, hminor, haccess, hf⟩

/-- A method with new code is one of the draft, or the edit has failed. -/
theorem find?_of_build {c r : ClassFile} {d : Draft} (hd : ofClass c = .ok d) {key : MemberKey}
    {commands : List Command} (hr : (d.apply (.methodCode key commands)).build = .ok r) :
    ∃ k, find? d.methods key = some k ∧ d.apply (.methodCode key commands) =
      { d with methods := d.methods.modify k (.withCode commands) } := by
  obtain ⟨-, -, -, -, -, -, -, -, -, hfailure⟩ := ofClass_eq_ok.1 hd
  obtain ⟨hnone, -⟩ := build_eq_ok.1 hr
  rw [apply, changeMethod] at hnone ⊢
  cases hfind : find? d.methods key with
  | none =>
    rw [hfind] at hnone
    cases (failure_fail_of_none hfailure _).symm.trans hnone
  | some k => exact ⟨k, rfl, rfl⟩

/-- The method that is found is the first of the class with that name and descriptor. -/
theorem first_of_find? {c : ClassFile} {d : Draft} (hd : ofClass c = .ok d) {key : MemberKey}
    {k : Nat} (hfind : find? d.methods key = some k) :
    ∃ m, c.methods[k]? = some m ∧ d.methods[k]? = some (.kept m key none none) ∧
      c.memberName m = .ok key.name ∧ c.memberDescriptor m = .ok key.descriptor ∧
      ∀ n ∈ c.methods.take k,
        ¬(c.memberName n = .ok key.name ∧ c.memberDescriptor n = .ok key.descriptor) := by
  obtain ⟨-, hm, -⟩ := ofClass_eq_ok.1 hd
  obtain ⟨before, kept, after, hmethods, rfl, hkey, hbefore⟩ := find?_eq_some hfind
  have hlength : c.methods.length = before.length + (after.length + 1) := by
    rw [(mapM_eq_ok_iff.1 hm).length_eq, hmethods, List.length_append, List.length_cons]
  have hget := List.getElem?_eq_getElem (l := c.methods) (i := before.length) (by omega)
  obtain ⟨kept', hkept, hkeep⟩ := getElem?_of_mapM hm hget
  have hfound := hkept
  rw [hmethods, List.getElem?_append_right (Nat.le_refl _), Nat.sub_self] at hfound
  cases hfound
  obtain ⟨key', hname, hdescriptor, rfl⟩ := keep_eq_ok.1 hkeep
  obtain rfl : key' = key := hkey
  refine ⟨_, hget, hkept, hname, hdescriptor, ?_⟩
  -- One with that name and descriptor would have been found before.
  rintro n hn ⟨hname', hdescriptor'⟩
  obtain ⟨j, hj, rfl⟩ := List.mem_take_iff_getElem.1 hn
  have hlt : j < before.length := by omega
  obtain ⟨earlier, hearlier, hkeep'⟩ :=
    getElem?_of_mapM hm (List.getElem?_eq_getElem (l := c.methods) (i := j) (by omega))
  rw [hmethods, List.getElem?_append_left hlt] at hearlier
  cases hkeep'.symm.trans (keep_eq_ok.2 ⟨_, hname', hdescriptor', rfl⟩)
  exact hbefore _ (List.mem_of_getElem? hearlier) rfl

/-- A new body is all that is new. The method is the first with its key. It has the emitted code and
no other, in the place of its first code, among copies of its other attributes. Whatever else the
class has is copied, and if the class is also built without the edit, then both are the same but for
the numbers of entries and the layout of code. -/
theorem build_recoded {bytes : Bytes} {c r : ClassFile} {d : Draft} {key : MemberKey}
    {commands : List Command} (hread : ClassFile.read bytes = .ok c) (hd : ofClass c = .ok d)
    (hr : (d.apply (.methodCode key commands)).build = .ok r) :
    ∃ k m m', c.methods[k]? = some m ∧ r.methods[k]? = some m' ∧
      c.memberName m = .ok key.name ∧ c.memberDescriptor m = .ok key.descriptor ∧
      (∀ n ∈ c.methods.take k,
        ¬(c.memberName n = .ok key.name ∧ c.memberDescriptor n = .ok key.descriptor)) ∧
      m.Recoded (importSource c) (importSource r) key commands m' ∧
      List.Forall₂ (Member.Rebuilt (importSource c) (importSource r)) (c.methods.eraseIdx k)
        (r.methods.eraseIdx k) ∧
      c.Rebuilt r ∧
      ∀ r', d.build = .ok r' →
        (r'.withoutMethod k).unplaced.Alike (r.withoutMethod k).unplaced := by
  obtain ⟨k, hfind, happly⟩ := find?_of_build hd hr
  obtain ⟨m, hm, hkept, hname, hdescriptor, hfirst⟩ := first_of_find? hd hfind
  have hrevises := revises_ofClass hd
  have hkeep := mapM_eq_ok_iff.1 (ofClass_eq_ok.1 hd).2.1
  rw [happly] at hr
  obtain ⟨hrebuilt, hmethods⟩ := Revises.build (x := { d with
    methods := d.methods.modify k (.withCode commands) }) { hrevises with } hread hr
  have hrecode : (d.methods.modify k (.withCode commands))[k]? =
      some (.kept m key none (some commands)) := by
    rw [List.getElem?_modify_eq, hkept]
    rfl
  obtain ⟨m', hm', hrecoded⟩ := exists_getElem?_of_forall₂ hmethods hrecode
  -- Without the method, the drafts are the same.
  have hothers := forall₂_eraseIdx hmethods k
  rw [List.eraseIdx_modify_of_eq] at hothers
  have hothers := rebuilt_of_remade (forall₂_eraseIdx hkeep k) hothers
  refine ⟨k, m, m', hm, hm', hname, hdescriptor, hfirst, hrecoded, hothers, hrebuilt, ?_⟩
  intro r' hr'
  obtain ⟨hrebuilt', hmethods'⟩ := hrevises.build hread hr'
  exact hrebuilt'.alike hrebuilt
    (forall₂_eraseIdx (rebuilt_of_remade hkeep hmethods') k) hothers

/-! ## A class that needs no linking any more -/

/-- A method that is linked by a bootstrap method, and one that only returns. -/
def linkedMethod (name descriptor code : UInt16) (instructions : List Instruction) : Member :=
  ⟨⟨9⟩, name, descriptor, [⟨code, .code ⟨0, 0, instructions, [], []⟩⟩]⟩

def linkedClass : ClassFile :=
  ⟨0, 51, ⟨#[.utf8 "A", .classRef 1, .utf8 "m", .utf8 "()V", .utf8 "Code", .nameAndType 3 4,
      .methodRef 2 6, .methodHandle 6 7, .invokeDynamic 0 6, .utf8 "n",
      .utf8 "BootstrapMethods"]⟩, ⟨0x21⟩, 2, 0, [], [],
    [linkedMethod 3 4 5 [.invokeDynamic 9, .simple .vreturn],
      linkedMethod 10 4 5 [.simple .vreturn]],
    [⟨11, .bootstrapMethods [⟨8, []⟩]⟩]⟩

def linkedPool : Bytes :=
  [0, 12, 1, 0, 1, 0x41, 7, 0, 1, 1, 0, 1, 0x6D, 1, 0, 3, 0x28, 0x29, 0x56, 1, 0, 4, 0x43, 0x6F,
    0x64, 0x65, 12, 0, 3, 0, 4, 10, 0, 2, 0, 6, 15, 6, 0, 7, 18, 0, 0, 0, 6, 1, 0, 1, 0x6E, 1, 0,
    16, 0x42, 0x6F, 0x6F, 0x74, 0x73, 0x74, 0x72, 0x61, 0x70, 0x4D, 0x65, 0x74, 0x68, 0x6F, 0x64,
    0x73]

def linked : Bytes :=
  [0xCA, 0xFE, 0xBA, 0xBE, 0, 0, 0, 51] ++ linkedPool ++
    [0, 0x21, 0, 2, 0, 0, 0, 0, 0, 0, 0, 2, 0, 9, 0, 3, 0, 4, 0, 1, 0, 5, 0, 0, 0, 18, 0, 0, 0, 0,
      0, 0, 0, 6, 0xBA, 0, 9, 0, 0, 0xB1, 0, 0, 0, 0, 0, 9, 0, 10, 0, 4, 0, 1, 0, 5, 0, 0, 0, 13, 0,
      0, 0, 0, 0, 0, 0, 1, 0xB1, 0, 0, 0, 0, 0, 1, 0, 11, 0, 0, 0, 6, 0, 1, 0, 8, 0, 0]

theorem decode_linked :
    Instruction.decode linkedClass.pool [0xBA, 0, 9, 0, 0, 0xB1] =
      .ok [.invokeDynamic 9, .simple .vreturn] := by
  refine Code.decode_eq_ok_iff.2 ⟨Code.SpellsFrom.of_encode ?_ ?_ (by cbv), ?_⟩
  · simp only [List.forall_mem_cons]
    refine ⟨⟨trivial, ?_⟩, ⟨rfl, by simp [Instruction.poolIndex?]⟩, by simp⟩
    rintro _ _ ⟨⟩ ⟨⟩
    exact ⟨.invokeDynamic 0 6, rfl, rfl⟩
  · simp [Instruction.InReach, Instruction.targets]
  · simp [Code.TargetsIn, Instruction.targets]

theorem decode_idle :
    Instruction.decode linkedClass.pool [0xB1] = .ok [.simple .vreturn] := by
  refine Code.decode_eq_ok_iff.2 ⟨Code.SpellsFrom.of_encode ?_ ?_ (by cbv), ?_⟩
  · simp only [List.forall_mem_cons]
    exact ⟨⟨rfl, by simp [Instruction.poolIndex?]⟩, by simp⟩
  · simp [Instruction.InReach, Instruction.targets]
  · simp [Code.TargetsIn, Instruction.targets]

/-- A method whose only attribute is its code. -/
theorem spells_linkedMethod (name : UInt16) {code : List Instruction} {bytes v : Bytes}
    {depth : Nat} (hv : v.length < 0x100000000)
    (hbody : CodeBody.SpellsWith linkedClass.pool (Attribute.Spells linkedClass.pool depth)
      ⟨0, 0, code, [], []⟩ [bytes] v) :
    (linkedMethod name 4 5 code).Spells linkedClass.pool (depth + 1) [bytes]
      (Bytes.ofU16 9 ++ Bytes.ofU16 name ++ Bytes.ofU16 4 ++ ([0, 1] ++
        (Bytes.ofU16 5 ++ Bytes.ofU32 (UInt32.ofNat v.length) ++ v))) := by
  have hattribute : Attribute.Spells linkedClass.pool (depth + 1)
      ⟨5, .code ⟨0, 0, code, [], []⟩⟩ [bytes] _ :=
    ⟨"Code", v, by cbv, hv, ⟨rfl, hbody⟩, rfl⟩
  exact ⟨_, .singleton hattribute, rfl⟩

theorem read_linked : ClassFile.read linked = .ok linkedClass := by
  have hreadable : linkedClass.pool.IsReadable :=
    ⟨by decide, linkedClass.pool.slots.toList, rfl, by simp [linkedClass, Constant.IsReadable]⟩
  have hencode : linkedClass.pool.encode = .ok linkedPool := by rfl
  obtain ⟨texts, hpool⟩ := Pool.spells_of_encode hreadable hencode
  have hvalid : linkedClass.IsValid :=
    { minMajor_le := by decide
      le_maxMajor := by decide
      pool := by cbv
      thisClass := ⟨"A", by cbv⟩
      superClass := fun h => absurd rfl h
      bootstrap := by cbv }
  have hlinked : CodeBody.SpellsWith linkedClass.pool (Attribute.Spells linkedClass.pool 0)
      ⟨0, 0, [.invokeDynamic 9, .simple .vreturn], [], []⟩ [[0xBA, 0, 9, 0, 0, 0xB1]]
      [0, 0, 0, 0, 0, 0, 0, 6, 0xBA, 0, 9, 0, 0, 0xB1, 0, 0, 0, 0] :=
    .plain (by decide) decode_linked 0 0
  have hidle : CodeBody.SpellsWith linkedClass.pool (Attribute.Spells linkedClass.pool 0)
      ⟨0, 0, [.simple .vreturn], [], []⟩ [[0xB1]]
      [0, 0, 0, 0, 0, 0, 0, 1, 0xB1, 0, 0, 0, 0] :=
    .plain (by decide) decode_idle 0 0
  have hfirst := spells_linkedMethod 3 (by decide) hlinked
  have hsecond := spells_linkedMethod 10 (by decide) hidle
  have hall := GathersAll.cons hfirst (.cons hsecond .nil)
  have hmethods : SpellsTable (Member.Spells linkedClass.pool 1) linkedClass.methods
      [[0xBA, 0, 9, 0, 0, 0xB1], [0xB1]] _ := ⟨by decide, _, hall, rfl⟩
  have hbootstrap : Attribute.Spells linkedClass.pool 1
      ⟨11, .bootstrapMethods [⟨8, []⟩]⟩ [] [0, 11, 0, 0, 0, 6, 0, 1, 0, 8, 0, 0] :=
    ⟨"BootstrapMethods", _, Pool.text_eq_ok.2 rfl, by decide, ⟨rfl, trivial, rfl, rfl⟩, rfl⟩
  refine ClassFile.read_of_tables hvalid hpool rfl rfl hmethods (.singleton hbootstrap) ?_
  rw [linked, List.append_assoc]
  rfl

/-- The draft of the class. -/
def linkedDraft : Draft :=
  { base := some linkedClass, thisClass := "A", major := 51, minor := 0, access := ⟨0x21⟩,
    superClass := none, interfaces := [], fields := [],
    methods :=
      [.kept (linkedMethod 3 4 5 [.invokeDynamic 9, .simple .vreturn]) ⟨"m", "()V"⟩ none none,
        .kept (linkedMethod 10 4 5 [.simple .vreturn]) ⟨"n", "()V"⟩ none none],
    failure := none }

theorem ofClass_linkedClass : ofClass linkedClass = .ok linkedDraft := by
  cbv

/-- The method is to return at once. -/
def unlink : Edit := .methodCode ⟨"m", "()V"⟩ [.op .vreturn]

theorem apply_unlink :
    linkedDraft.apply unlink =
      { linkedDraft with
        methods :=
          [.kept (linkedMethod 3 4 5 [.invokeDynamic 9, .simple .vreturn]) ⟨"m", "()V"⟩ none
              (some [.op .vreturn]),
            .kept (linkedMethod 10 4 5 [.simple .vreturn]) ⟨"n", "()V"⟩ none none] } := by
  cbv

section Runs

variable {S : ImportSource} {g g1 g2 g3 g4 : GrowingPool}

/-- Code that branches nowhere. -/
theorem instructions_run {code code' : List Instruction} {b b' : Building}
    (hmap : code.mapM (instruction S) b = .ok code' b')
    (htargets : ∀ i ∈ code', i.targets = []) {bytes : Bytes}
    (hbytes : Code.encodeFrom 0 code' = .ok bytes) (hend : Code.endFrom 0 code' < 0x10000) :
    ∃ m, instructions S code b = .ok (code', m) b' := by
  have hassemble (resolve : UInt32 → Except Error Nat) :
      Code.assemble code' resolve = .ok ⟨bytes, Code.offsets code', code'⟩ := by
    refine Code.assemble_eq_ok_iff.2 ⟨hend, Code.placedFrom_self fun i hi t ht => ?_, hbytes, rfl⟩
    rw [htargets i hi] at ht
    cases ht
  rw [instructions, bind_run hmap, bind_run (ofExcept_eq_ok.2 ⟨hassemble _, rfl⟩)]
  exact ⟨_, rfl⟩

theorem instructions_return (S : ImportSource) (b : Building) :
    ∃ m, instructions S [.simple .vreturn] b = .ok ([.simple .vreturn], m) b := by
  have hmap : [Instruction.simple .vreturn].mapM (instruction S) b = .ok [.simple .vreturn] b := rfl
  exact instructions_run hmap (by simp [Instruction.targets]) rfl (by decide)

theorem buildMethod_linkedMethod {key : MemberKey} {name i j k : UInt16} {s : String}
    {code code' : List Instruction} {m : OffsetMap}
    (hname : linkedClass.pool.get? name = some (.utf8 s))
    (h1 : Grow.text s g = .ok i g1) (h2 : Grow.text "()V" g1 = .ok j g2)
    (h3 : Grow.text "Code" g2 = .ok k g3)
    (h4 : instructions (importSource linkedClass) code ⟨g3, .off⟩ = .ok (code', m) ⟨g4, .off⟩) :
    buildMethod (importSource linkedClass) (.kept (linkedMethod name 4 5 code) key none none)
      ⟨g, .off⟩ = .ok (linkedMethod i j k code') ⟨g4, .off⟩ := by
  have hcode : payload (importSource linkedClass) none (.code ⟨0, 0, code, [], []⟩) ⟨g3, .off⟩ =
      .ok (.code ⟨0, 0, code', [], []⟩) ⟨g4, .off⟩ := by
    rw [payload, codeBody_eq, bind_assoc, bind_run h4]
    rfl
  have hattributes : attributes (importSource linkedClass) (linkedMethod name 4 5 code).attributes
      ⟨g2, .off⟩ = .ok [⟨k, .code ⟨0, 0, code', [], []⟩⟩] ⟨g4, .off⟩ := by
    rw [attributes_eq]
    exact filterMapM_attribute_run rfl (index_text rfl h3) hcode rfl
  refine (bind_run rfl).trans ?_
  refine (bind_run (index_text hname h1)).trans ?_
  refine (bind_run (index_text rfl h2)).trans ?_
  exact bind_run hattributes

end Runs

theorem importEntry_linked : Grow.importEntry (importSource linkedClass) 9 = (do
    let handle ← (do Grow.methodHandle 6 (← Grow.methodRef ⟨"A", "m", "()V"⟩))
    let bootstrap ← Grow.bootstrapMethod ⟨handle, []⟩
    let member ← Grow.nameAndType "m" "()V"
    Grow.add (.invokeDynamic bootstrap member)) := by
  rfl

/-! ### The table of bootstrap methods -/

/-- A request that is granted while there is room for `n` more entries and bootstrap methods. -/
def Fits {α : Type} (n : Nat) (x : Grow α) : Prop :=
  ∀ g, g.pool.size + g.bootstrap.size + n < 0xFFFF → ∃ y g', x g = .ok y g' ∧
    g'.pool.size + g'.bootstrap.size ≤ g.pool.size + g.bootstrap.size + n

theorem Fits.bind {α β : Type} {x : Grow α} {f : α → Grow β} {n m : Nat} (hx : Fits n x)
    (hf : ∀ y, Fits m (f y)) : Fits (n + m) (x >>= f) := by
  intro g hroom
  obtain ⟨y, g1, h1, hsize1⟩ := hx g (by omega)
  obtain ⟨z, g2, h2, hsize2⟩ := hf y g1 (by omega)
  exact ⟨z, g2, bind_eq_ok.2 ⟨y, g1, h1, h2⟩, by omega⟩

theorem fits_add {c : Constant} {key : Bytes} (hkey : c.encode = .ok key) (hslots : c.slots = 1) :
    Fits 1 (Grow.add c) := by
  intro g hroom
  obtain ⟨i, g', h, hsize⟩ := Grow.add_succeeds (g := g) hkey (by omega)
  have hbootstrap : g'.bootstrap = g.bootstrap := by
    obtain ⟨_, -, ⟨-, rfl⟩ | ⟨-, -, -, rfl⟩⟩ := Grow.add_eq_ok.1 h <;> rfl
  exact ⟨i, g', h, by rw [hbootstrap]; omega⟩

theorem fits_text {s : String} (hs : (Text.encode s).length < 0x10000) : Fits 1 (Grow.text s) :=
  fits_add (if_pos hs) rfl

theorem fits_bootstrapMethod (m : BootstrapMethod) : Fits 1 (Grow.bootstrapMethod m) := by
  intro g hroom
  cases hi : g.bootstrapIndices[m]? with
  | some k => exact ⟨k, g, Grow.bootstrapMethod_eq_ok.2 (.inl ⟨hi, rfl⟩), Nat.le_add_right ..⟩
  | none =>
    have hrun := Grow.bootstrapMethod_eq_ok.2 (.inr ⟨hi, by omega, rfl, rfl⟩)
    refine ⟨_, _, hrun, ?_⟩
    show g.pool.size + (g.bootstrap.push m).size ≤ _
    rw [Array.size_push]
    omega

theorem fits_linked : Fits 12 (Grow.importEntry (importSource linkedClass) 9) := by
  have hclass : Fits 2 (Grow.classRef "A") := (fits_text (by decide)).bind fun _ => fits_add rfl rfl
  have hmember : Fits 3 (Grow.nameAndType "m" "()V") :=
    (fits_text (by decide)).bind fun _ => (fits_text (by decide)).bind fun _ => fits_add rfl rfl
  have hmethod : Fits 6 (Grow.methodRef ⟨"A", "m", "()V"⟩) :=
    hclass.bind fun _ => hmember.bind fun _ => fits_add rfl rfl
  have hhandle : Fits 7 (do Grow.methodHandle 6 (← Grow.methodRef ⟨"A", "m", "()V"⟩)) :=
    hmethod.bind fun _ => fits_add rfl rfl
  have hrest (handle : UInt16) : Fits 5 (do
      let bootstrap ← Grow.bootstrapMethod ⟨handle, []⟩
      let member ← Grow.nameAndType "m" "()V"
      Grow.add (.invokeDynamic bootstrap member)) :=
    (fits_bootstrapMethod _).bind fun _ => hmember.bind fun _ => fits_add rfl rfl
  rw [importEntry_linked]
  exact hhandle.bind hrest

/-- What the edit makes of the class: nothing is left to link. -/
def unlinked : ClassFile :=
  ⟨0, 51, ⟨#[.utf8 "A", .classRef 1, .utf8 "m", .utf8 "()V", .utf8 "Code", .utf8 "n"]⟩, ⟨0x21⟩, 2,
    0, [], [], [linkedMethod 3 4 5 [.simple .vreturn], linkedMethod 6 4 5 [.simple .vreturn]], []⟩

theorem build_unlink : (linkedDraft.apply unlink).build = .ok unlinked := by
  obtain ⟨g2, g3, g4, g5, hclass, h3, h4, h5, l5⟩ := exists_lists_method
  obtain ⟨g6, h6, l6⟩ := l5.text (s := "n") (by decide) (by simp) (by decide)
  have hdescriptor : Grow.text "()V" g6 = .ok 4 g6 := l6.held (k := 3) (by decide) rfl (by decide)
  have hcode : Grow.text "Code" g6 = .ok 5 g6 := l6.held (k := 4) (by decide) rfl (by decide)
  have hemit : emitCode ⟨9⟩ "()V" [.op .vreturn] ⟨g4, .off⟩ =
      .ok ⟨5, .code ⟨0, 0, [.simple .vreturn], [], []⟩⟩ ⟨g5, .off⟩ :=
    bind_eq_ok.2 ⟨5, _, grow_eq_ok.2 ⟨g5, rfl, h5⟩, rfl⟩
  have hfirst : buildMethod (importSource linkedClass)
      (.kept (linkedMethod 3 4 5 [.invokeDynamic 9, .simple .vreturn]) ⟨"m", "()V"⟩ none
        (some [.op .vreturn])) ⟨g2, .off⟩ =
      .ok (linkedMethod 3 4 5 [.simple .vreturn]) ⟨g5, .off⟩ := by
    have hreplace : replaceCode (importSource linkedClass) (emitCode ⟨9⟩ "()V" [.op .vreturn])
        ([] ++ ⟨5, .code ⟨0, 0, [.invokeDynamic 9, .simple .vreturn], [], []⟩⟩ :: []) ⟨g4, .off⟩ =
        .ok [⟨5, .code ⟨0, 0, [.simple .vreturn], [], []⟩⟩] ⟨g5, .off⟩ := by
      rw [replaceCode_instead rfl rfl]
      refine (bind_run rfl).trans ?_
      exact bind_run hemit
    refine (bind_run rfl).trans ?_
    refine (bind_run (grow_eq_ok.2 ⟨g3, rfl, h3⟩)).trans ?_
    refine (bind_run (grow_eq_ok.2 ⟨g4, rfl, h4⟩)).trans ?_
    exact bind_run hreplace
  obtain ⟨m, hreturn⟩ := instructions_return (importSource linkedClass) ⟨g6, .off⟩
  have hmethods : (linkedDraft.apply unlink).methods.mapM (buildMethod (importSource linkedClass))
      ⟨g2, .off⟩ = .ok unlinked.methods ⟨g6, .off⟩ := by
    rw [apply_unlink, List.mapM_cons, bind_run hfirst, List.mapM_cons, bind_assoc,
      bind_run (buildMethod_linkedMethod rfl h6 hdescriptor hcode hreturn)]
    rfl
  have hthis : Build.grow (.classRef "A") ⟨.empty, .off⟩ = .ok 2 ⟨g2, .off⟩ :=
    grow_eq_ok.2 ⟨g2, rfl, hclass⟩
  have hbuild := build_of_runs (d := linkedDraft.apply unlink) ⟨rfl, rfl, rfl⟩ hthis rfl hmethods
    rfl l6.buildBootstrap_eq
  rw [l6.pool_eq] at hbuild
  exact hbuild

theorem build_linked : ∃ r, linkedDraft.build = .ok r := by
  obtain ⟨g2, g3, g4, g5, hclass, h3, h4, h5, l5⟩ := exists_lists_method
  have hsize : g5.pool.size + g5.bootstrap.size = 5 := by
    rw [l5.pool_eq, l5.bootstrap]
    rfl
  obtain ⟨j, g6, h6, hsize6⟩ := fits_linked g5 (by omega)
  obtain ⟨i, g7, h7, hsize7⟩ := Grow.text_succeeds (s := "n") (g := g6) (by decide) (by omega)
  obtain ⟨k, g8, h8, hsize8⟩ := Grow.text_succeeds (s := "()V") (g := g7) (by decide) (by omega)
  obtain ⟨l, g9, h9, hsize9⟩ := Grow.text_succeeds (s := "Code") (g := g8) (by decide) (by omega)
  obtain ⟨tail, b, h10⟩ := buildBootstrap_run (g := g9) (by omega)
  have hlink : index (importSource linkedClass) 9 ⟨g5, .off⟩ = .ok j ⟨g6, .off⟩ :=
    grow_eq_ok.2 ⟨g6, rfl, h6⟩
  have hmap : [Instruction.invokeDynamic 9, .simple .vreturn].mapM
      (instruction (importSource linkedClass)) ⟨g5, .off⟩ =
      .ok [.invokeDynamic j, .simple .vreturn] ⟨g6, .off⟩ := by
    rw [List.mapM_cons, instruction, bind_assoc, bind_run hlink]
    rfl
  have hend : Code.endFrom 0 [.invokeDynamic j, .simple .vreturn] < 0x10000 := by
    show 6 < 0x10000
    decide
  obtain ⟨m, hcode⟩ := instructions_run hmap (by simp [Instruction.targets]) rfl hend
  obtain ⟨m', hreturn⟩ := instructions_return (importSource linkedClass) ⟨g9, .off⟩
  have hmethods : linkedDraft.methods.mapM (buildMethod (importSource linkedClass)) ⟨g2, .off⟩ =
      .ok [linkedMethod 3 4 5 [.invokeDynamic j, .simple .vreturn],
        linkedMethod i k l [.simple .vreturn]] ⟨g9, .off⟩ := by
    rw [linkedDraft, List.mapM_cons, bind_run (buildMethod_linkedMethod rfl h3 h4 h5 hcode),
      List.mapM_cons, bind_assoc, bind_run (buildMethod_linkedMethod rfl h7 h8 h9 hreturn)]
    rfl
  have hthis : Build.grow (.classRef "A") ⟨.empty, .off⟩ = .ok 2 ⟨g2, .off⟩ :=
    grow_eq_ok.2 ⟨g2, rfl, hclass⟩
  exact ⟨_, build_of_runs ⟨rfl, rfl, rfl⟩ hthis rfl hmethods rfl h10⟩

/-- An entry that stands for what a call site stands for is computed. -/
theorem hasComputed_of_sameSymbol {c r : ClassFile} {i j : UInt16} {entry : Constant}
    (h : SameSymbol (importSource c) i (importSource r) j) (hi : c.pool.get? i = some entry)
    (hb : entry.bootstrap?.isSome) : HasComputed r := by
  obtain ⟨t, ht, ht'⟩ := h
  obtain ⟨entry', _, _, hi', -, -, -, rfl⟩ := ImportSource.denotes_iff.1 ht
  obtain ⟨computed, _, _, hj, -, -, -, e⟩ := ImportSource.denotes_iff.1 ht'
  cases hi.symm.trans hi'
  obtain ⟨hhead, -⟩ := Symbol.node.inj e
  refine ⟨j, computed, hj, ?_⟩
  cases entry <;> cases hb <;> cases computed <;> first | rfl | cases hhead

/-- The table of bootstrap methods is not kept: the class has none once its only call site is
gone, though none of its other attributes was touched. -/
theorem build_unlinked :
    ∃ r name, ClassFile.read linked = .ok linkedClass ∧ ofClass linkedClass = .ok linkedDraft ∧
      linkedDraft.build = .ok r ∧ r.pool.text name = .ok "BootstrapMethods" ∧
      r.attributes = [⟨name, .bootstrapMethods r.bootstrapMethods⟩] ∧
      (linkedDraft.apply (.methodCode ⟨"m", "()V"⟩ [.op .vreturn])).build = .ok unlinked ∧
      unlinked.attributes = [] := by
  obtain ⟨r, hr⟩ := build_linked
  obtain ⟨hrebuilt, hmethods⟩ := (revises_ofClass ofClass_linkedClass).build read_linked hr
  have hcomputed : HasComputed r := by
    obtain ⟨m, -, -, hcopied, -⟩ := exists_getElem?_of_forall₂ hmethods (k := 0) rfl
    obtain ⟨body, -, hbody⟩ := exists_getElem?_of_forall₂ hcopied.attributes.bodies (k := 0) rfl
    obtain ⟨hcode, -, -⟩ := hbody
    obtain ⟨call, -, hcall⟩ := exists_getElem?_of_forall₂ hcode (k := 0) rfl
    cases hcall with
    | invokeDynamic hj => exact hasComputed_of_sameSymbol hj rfl rfl
  obtain ⟨copies, tail, hsum, hcopies, htail, -⟩ := hrebuilt.attributes
  obtain ⟨name, hname, rfl⟩ := htail hcomputed
  have hnone : copies = [] := by
    have hkept := hcopies.forall₂
    exact List.forall₂_nil_left_iff.1 hkept
  rw [hnone] at hsum
  exact ⟨r, name, read_linked, ofClass_linkedClass, hr, hname, hsum, build_unlink, rfl⟩

theorem build_recoded_unlinked :
    ∃ r k m m', ClassFile.read linked = .ok linkedClass ∧ ofClass linkedClass = .ok linkedDraft ∧
      (linkedDraft.apply (.methodCode ⟨"m", "()V"⟩ [.op .vreturn])).build = .ok unlinked ∧
      linkedDraft.build = .ok r ∧ linkedClass.methods[k]? = some m ∧
      unlinked.methods[k]? = some m' ∧
      m.Recoded (importSource linkedClass) (importSource unlinked) ⟨"m", "()V"⟩ [.op .vreturn] m' ∧
      linkedClass.Rebuilt unlinked ∧
      (r.withoutMethod k).unplaced.Alike (unlinked.withoutMethod k).unplaced := by
  obtain ⟨r, hr⟩ := build_linked
  obtain ⟨k, m, m', hm, hm', -, -, -, hrecoded, -, hrebuilt, halike⟩ :=
    build_recoded read_linked ofClass_linkedClass build_unlink
  exact ⟨r, k, m, m', read_linked, ofClass_linkedClass, build_unlink, hr, hm, hm', hrecoded,
    hrebuilt, halike r hr⟩

end Draft

end JvmClass
