import JvmClass.Proofs.Code.Emitted
import JvmClass.Proofs.Edit.FixedPoint

/-!
# What is built can be read

A draft mixes copies of members that were read with new members and new code. All of them refer
to one pool, and each of them is read back in a form that is written alike: a copy with its frames
as they are written, new code with its instructions in the form that is read. So whatever script
has made the draft, the bytes of the class are read, and the class that is read has these bytes.
The script must not leave out operands that an opcode needs (`Edit.IsComplete`).
-/

namespace JvmClass

/-! ## Scripts -/

/-- New code, if there is any, is given by complete commands. -/
def Code.IsComplete (code : Option (List Command)) : Prop :=
  ∀ commands ∈ code, ∀ c ∈ commands, c.IsComplete

def Edit.IsComplete : Edit → Prop
  | .method _ _ code => Code.IsComplete code
  | .methodCode _ code => Code.IsComplete (some code)
  | _ => True

/-- The member was read out of the pool `p`, with attributes nested less than `depth` deep, unless
it is new; and its new code is complete. -/
def MemberDraft.Readable (p : Pool) (depth : Nat) : MemberDraft → Prop
  | .kept m _ _ code => (∃ codes used, m.Spells p depth codes used) ∧ Code.IsComplete code
  | .added _ _ code => Code.IsComplete code

namespace MemberDraft.Readable

variable {p : Pool} {depth : Nat} {k : MemberDraft}

theorem withAccess (h : k.Readable p depth) (access : Access) :
    (k.withAccess access).Readable p depth := by
  cases k <;> exact h

theorem withCode (h : k.Readable p depth) {code : List Command}
    (hcode : Code.IsComplete (some code)) : (k.withCode code).Readable p depth := by
  cases k with
  | kept => exact ⟨h.1, hcode⟩
  | added => exact hcode

end MemberDraft.Readable

theorem forall_mem_modify {α : Type} {Q : α → Prop} {change : α → α} {as : List α}
    (h : ∀ a ∈ as, Q a) (hchange : ∀ a, Q a → Q (change a)) (i : Nat) :
    ∀ a ∈ as.modify i change, Q a := by
  intro a ha
  obtain ⟨j, hj⟩ := List.mem_iff_getElem?.1 ha
  rw [List.getElem?_modify] at hj
  obtain ⟨b, hb, rfl⟩ := Option.map_eq_some_iff.1 hj
  have hq := h b (List.mem_of_getElem? hb)
  split
  · exact hchange b hq
  · exact hq

namespace Draft

/-- All that a draft takes from its base class was read, and all its new code is complete. -/
structure Readable (depth : Nat) (d : Draft) : Prop where
  supplies : d.baseSource.Supplies Symbol.IsValid
  attributes : ∀ a ∈ d.baseAttributes, ∃ codes used,
    Attribute.Spells d.baseSource.pool depth a codes used
  fields : ∀ k ∈ d.fields, k.Readable d.baseSource.pool depth
  methods : ∀ k ∈ d.methods, k.Readable d.baseSource.pool depth

namespace Readable

variable {depth : Nat} {d : Draft}

theorem check (h : d.Readable depth) {α : Type} (x : Except Error α) :
    (d.check x).Readable depth := by
  cases x with
  | ok => exact h
  | error e => exact { h with }

theorem insertField (h : d.Readable depth) (access : Access) (key : MemberKey) :
    (d.insertField access key).Readable depth := by
  unfold Draft.insertField
  split
  · exact { h with }
  · refine { h with fields := List.forall_mem_append.2 ⟨h.fields, ?_⟩ }
    rw [List.forall_mem_singleton]
    exact nofun

theorem insertMethod (h : d.Readable depth) (access : Access) (key : MemberKey)
    {code : Option (List Command)} (hcode : Code.IsComplete code) :
    (d.insertMethod access key code).Readable depth := by
  unfold Draft.insertMethod
  split
  · exact { h with }
  · refine { h with methods := List.forall_mem_append.2 ⟨h.methods, ?_⟩ }
    rw [List.forall_mem_singleton]
    exact hcode

theorem changeField (h : d.Readable depth) (key : MemberKey) {change : MemberDraft → MemberDraft}
    (hchange : ∀ p k, k.Readable p depth → (change k).Readable p depth) :
    (d.changeField key change).Readable depth := by
  unfold Draft.changeField
  split
  · exact { h with fields := forall_mem_modify h.fields (hchange _) _ }
  · exact { h with }

theorem changeMethod (h : d.Readable depth) (key : MemberKey) {change : MemberDraft → MemberDraft}
    (hchange : ∀ p k, k.Readable p depth → (change k).Readable p depth) :
    (d.changeMethod key change).Readable depth := by
  unfold Draft.changeMethod
  split
  · exact { h with methods := forall_mem_modify h.methods (hchange _) _ }
  · exact { h with }

/-- What an edit keeps. -/
theorem apply (h : d.Readable depth) {e : Edit} (he : e.IsComplete) :
    (d.apply e).Readable depth := by
  cases e with
  | access | superClass | interfaces | version => exact { h with }
  | field access key => exact (h.check _).insertField access key
  | method access key code => exact (h.check _).insertMethod access key he
  | methodAccess key access => exact h.changeMethod key fun _ _ hk => hk.withAccess access
  | fieldAccess key access => exact h.changeField key fun _ _ hk => hk.withAccess access
  | methodCode key code => exact h.changeMethod key fun _ _ hk => hk.withCode he
  | removeMethod key =>
    rw [Draft.apply]
    split
    · exact { h with methods := fun k hk => h.methods k (List.mem_of_mem_eraseIdx hk) }
    · exact { h with }
  | removeField key =>
    rw [Draft.apply]
    split
    · exact { h with fields := fun k hk => h.fields k (List.mem_of_mem_eraseIdx hk) }
    · exact { h with }

/-- What a script keeps. -/
theorem applyAll (h : d.Readable depth) {edits : List Edit} (hedits : ∀ e ∈ edits, e.IsComplete) :
    (d.applyAll edits).Readable depth := by
  induction edits generalizing d with
  | nil => exact h
  | cons e edits ih =>
    obtain ⟨he, hedits⟩ := List.forall_mem_cons.1 hedits
    exact ih (h.apply he) hedits

end Readable

/-- A draft that a script starts from: an empty class, or a class that was read. -/
inductive Begins : Draft → Prop
  | new (name : String) : Begins (Draft.new name)
  | ofClass {bytes : Bytes} {c : ClassFile} {d : Draft} : ClassFile.read bytes = .ok c →
      ofClass c = .ok d → Begins d

theorem readable_of_reflags {c : ClassFile} {depth : Nat} {ms : List Member}
    {ks : List MemberDraft} (h : List.Forall₂ (MemberDraft.Reflags c) ms ks)
    (hms : ∀ m ∈ ms, ∃ codes used, m.Spells c.pool depth codes used) :
    ∀ k ∈ ks, k.Readable c.pool depth := by
  intro k hk
  obtain ⟨m, hm, key, access, -, -, rfl⟩ := exists_of_forall₂ h k hk
  exact ⟨hms m hm, nofun⟩

/-- New code holds attributes, and they hold none: it needs a depth of two. -/
theorem Begins.readable {d : Draft} (h : d.Begins) : ∃ depth, d.Readable (depth + 2) := by
  cases h with
  | new name =>
    have hget (i : UInt16) : Pool.empty.get? i = none := by simp [Pool.empty, Pool.get?]
    refine ⟨0, ⟨fun i c hi => ?_, fun i t ht => ?_⟩, fun a ha => ?_, fun k hk => ?_, fun k hk => ?_⟩
    · cases (hget i).symm.trans hi
    · obtain ⟨depth, ht⟩ := ht
      cases depth with
      | zero => cases ht
      | succ depth => simp [ImportSource.symbol?, baseSource, Draft.new, hget] at ht
    · cases ha
    · cases hk
    · cases hk
  | @ofClass bytes c _ hread hd =>
    obtain ⟨texts, codes, -, pool, body, -, hbody, rfl⟩ := ClassFile.read_eq_ok_iff.1 hread
    obtain ⟨depth, hbody⟩ : ∃ depth, c.SpellsBody (depth + 2) codes body :=
      ⟨body.length, hbody.of_length_le (by omega)⟩
    obtain ⟨_, _, _, _, _, _, -, hf, hm, ha, -, -⟩ := hbody
    have hx := reflags_ofClass hd
    refine ⟨depth, ?_, ?_, ?_, ?_⟩
    · exact hx.baseSource ▸ supplies_of_read hread
    · rw [hx.baseAttributes, hx.baseSource]
      exact ha.exists_of_mem
    · rw [hx.baseSource]
      exact readable_of_reflags hx.fields hf.exists_of_mem
    · rw [hx.baseSource]
      exact readable_of_reflags hx.methods hm.exists_of_mem

/-! ## Members -/

/-- What is written for the attribute is read out of `G`, in a form that is written alike. -/
abbrev LegibleAttribute (depth : Nat) (G : ImportSource) (a : Attribute) : Prop :=
  Legible (Attribute.Spells G.pool depth) Attribute.encode a

/-- What is written for the member is read out of `G`, in a form that is written alike. -/
abbrev LegibleMember (depth : Nat) (G : ImportSource) (m : Member) : Prop :=
  Legible (Member.Spells G.pool depth) Member.encode m

theorem legible_code {G : ImportSource} {name : UInt16} {body : CodeBody}
    (hname : G.Denotes name (.text "Code")) (hbody : body.IsEmitted G) (depth : Nat) :
    LegibleAttribute (depth + 2) G ⟨name, .code body⟩ := by
  obtain ⟨body', hencode, hback⟩ := hbody.legible depth
  have htext := Pool.text_eq_ok.2 (ImportSource.denotes_text_iff.1 hname)
  refine ⟨⟨name, .code body'⟩, ?_, Attribute.readsBack htext fun out ho => ?_⟩
  · rw [Attribute.encode, Attribute.encode, Payload.encode, Payload.encode, hencode]
  · obtain ⟨codes, hcodes⟩ := hback out ho
    exact ⟨codes, rfl, hcodes⟩

section Members

variable {P : Symbol → Prop} (hP : Symbol.Named P) {S : ImportSource} (hS : S.Supplies P)
  {depth : Nat}

include hP in
theorem legible_emitCode (depth : Nat) (access : Access) (descriptor : String)
    {code : List Command} (hcode : ∀ c ∈ code, c.IsComplete) :
    Settles P (emitCode access descriptor code) fun G _ a _ =>
      LegibleAttribute (depth + 2) G a := by
  refine (settles_emitCode hP access descriptor code).mono ?_
  rintro G g _ g' ⟨name, body, rfl, hname, g1, g2, hg, hrun, hG⟩
  exact legible_code hname ((Code.emit_spec hP hcode hg hrun).mono hG) depth

include hS in
theorem legible_copyMember {m : Member} (hm : ∃ codes used, m.Spells S.pool depth codes used)
    (access : Access) :
    Settles P (copyMember S m access) fun G _ m' _ => LegibleMember depth G m' := by
  obtain ⟨codes, used, hm⟩ := hm
  refine (settles_copyMember hS m access).mono ?_
  rintro G g m' g' ⟨-, hcopied, -⟩
  exact ⟨m'.promote, m'.encode_promote, hcopied.readsBack hm⟩

include hP in
/-- A member with a new key. -/
theorem legible_member (access : Access) (key : MemberKey) {x : Build (List Attribute)}
    (hx : Settles P x fun G _ as _ => ∀ a ∈ as, LegibleAttribute depth G a) :
    Settles P (do
      let name ← Build.grow (.text key.name)
      let descriptor ← Build.grow (.text key.descriptor)
      return ⟨access, name, descriptor, ← x⟩) fun G _ m _ => LegibleMember depth G m := by
  refine (settles_member hP access key hx).mono ?_
  rintro G g m g' ⟨-, -, -, has⟩
  exact Member.legible has

theorem legible_nil :
    Settles P (pure []) fun G _ as _ => ∀ a ∈ as, LegibleAttribute depth G a := by
  refine (settles_pure ([] : List Attribute)).mono ?_
  rintro G g _ _ ⟨rfl, -⟩
  exact nofun

include hP hS

theorem legible_buildField {k : MemberDraft} (hk : k.Readable S.pool depth) :
    Settles P (buildField S k) fun G _ m _ => LegibleMember depth G m := by
  cases k with
  | kept m key access code => exact legible_copyMember hS hk.1 _
  | added key access code =>
    exact legible_member hP access key (x := pure []) legible_nil

theorem legible_buildMethod {k : MemberDraft} (hk : k.Readable S.pool (depth + 2)) :
    Settles P (buildMethod S k) fun G _ m _ => LegibleMember (depth + 2) G m := by
  unfold buildMethod
  refine Settles.record ?_ _
  cases k with
  | kept m key access code =>
    obtain ⟨hm, hcode⟩ := hk
    cases code with
    | none => exact legible_copyMember hS hm _
    | some code =>
      obtain ⟨codes, used, v, hv, -⟩ := hm
      have hemitted := legible_emitCode hP depth (access.getD m.access) key.descriptor
        (hcode code rfl)
      refine legible_member hP _ key ((settles_replaceCode hS hemitted m.attributes).mono ?_)
      rintro G g as g' ⟨new, hnew, hreplaced⟩
      refine hreplaced.forall_mem (List.forall_mem_singleton.2 hnew) fun a ha a' hcopied => ?_
      obtain ⟨ps, u, hspells⟩ := hv.exists_of_mem a ha
      exact ⟨a'.promote, a'.encode_promote,
        Attribute.copiesReadBack S G _ none a a' ps u hcopied hspells⟩
  | added key access code =>
    cases code with
    | none => exact legible_member hP access key (x := pure []) legible_nil
    | some code =>
      refine ((onlyGrows_text hP key.name).bind fun i => (onlyGrows_text hP key.descriptor).bind
        fun j => (legible_emitCode hP depth access key.descriptor (hk code rfl)).bind fun a =>
        settles_pure (Member.mk access i j [a])).mono ?_
      rintro G g _ _ ⟨i, _, -, j, _, -, a, _, ha, rfl, -⟩
      exact Member.legible (List.forall_mem_singleton.2 ha)

end Members

/-! ## Classes -/

theorem legible_assembleClass {depth : Nat} {d : Draft} (h : d.Readable (depth + 2)) :
    Settles Symbol.IsValid d.assembleClass fun G _ r _ =>
      (∀ m ∈ r.fields, LegibleMember (depth + 2) G m) ∧
        ∀ m ∈ r.methods, LegibleMember (depth + 2) G m :=
  have hP := Symbol.named_isValid
  settles_tables hP h.supplies
    (Settles.all fun k hk => legible_buildField hP h.supplies (h.fields k hk))
    (Settles.all fun k hk => legible_buildMethod hP h.supplies (h.methods k hk))

/-- Whatever a script of complete commands has made of an empty class or of a class that was read:
if it is built and written, in a version that is read, the bytes are read as a class that is
written as the same bytes. -/
theorem read_of_build {d : Draft} (hd : d.Begins) {edits : List Edit}
    (hedits : ∀ e ∈ edits, e.IsComplete) (hmin : 45 ≤ (d.applyAll edits).major)
    (hmax : (d.applyAll edits).major ≤ 69) {out : Bytes}
    (h : ((d.applyAll edits).build >>= ClassFile.encode) = .ok out) :
    ∃ c, ClassFile.read out = .ok c ∧ c.encode = .ok out := by
  obtain ⟨depth, hd⟩ := hd.readable
  have hx := hd.applyAll hedits
  obtain ⟨r, hr, he⟩ := exceptBind_eq_ok.1 h
  obtain ⟨g, grows, hsource, hassembled, hfields, hmethods⟩ :=
    build_settled Symbol.named_isValid hx.supplies (legible_assembleClass hx) hr
  -- The class attributes are read back as they are promoted, so the class is promoted as a whole.
  have promoted {ms : List Member} (hms : ∀ m ∈ ms, LegibleMember (depth + 2) (importSource r) m) :
      ∀ m ∈ ms.map Member.promote, LegibleMember (depth + 2) (importSource r) m := by
    intro _ hpromoted
    obtain ⟨m, hm, rfl⟩ := List.mem_map.1 hpromoted
    obtain ⟨m', hencode, hback⟩ := hms m hm
    exact ⟨m', hencode.trans m.encode_promote.symm, hback⟩
  have hpool : r.pool.IsReadable := hassembled.pool ▸ grows.inv.readable
  exact ClassFile.exists_read_of_encode (hassembled.readsBack_attributes hx.attributes)
    (promoted hfields) (promoted hmethods) (isValid_promote grows hsource hassembled hmin hmax)
    hpool (r.encode_promote.trans he)

/-! ## A class with a copied method and a new one -/

/-- A method that returns its argument, beside the one that is there. -/
def newMethod : List Edit :=
  [.method ⟨9⟩ ⟨"n", "(I)I"⟩ (some [.op .iload0, .op .ireturn])]

/-- What the script makes of the class: both methods have the text `Code` in common. -/
def extended : ClassFile :=
  ⟨0, 49, ⟨#[.utf8 "A", .classRef 1, .utf8 "m", .utf8 "()V", .utf8 "Code", .integer 7, .utf8 "n",
      .utf8 "(I)I"]⟩, ⟨0x21⟩, 2, 0, [], [],
    [loading 3 4 5 (.constant .ldc 6),
      ⟨⟨9⟩, 7, 8, [⟨5, .code ⟨1, 1, [.simple .iload0, .simple .ireturn], [], []⟩⟩]⟩], []⟩

theorem applyAll_newMethod :
    (loadDraft []).applyAll newMethod =
      { loadDraft [] with
        methods :=
          [.kept (loading 4 5 6 (.constant .ldc 1)) ⟨"m", "()V"⟩ none none,
            .added ⟨"n", "(I)I"⟩ ⟨9⟩ (some [.op .iload0, .op .ireturn])] } := by
  cbv

theorem emit_newMethod (g : GrowingPool) :
    Code.emit [.op .iload0, .op .ireturn] (Access.isStatic ⟨9⟩) "(I)I" g =
      .ok ⟨1, 1, [.simple .iload0, .simple .ireturn], [], []⟩ g := by
  with_unfolding_all rfl

theorem build_newMethod {g : GrowingPool} (h : Lists g flagged.pool.slots.toList) :
    ∃ g', buildMethod (importSource loadClass)
        (.added ⟨"n", "(I)I"⟩ ⟨9⟩ (some [.op .iload0, .op .ireturn])) ⟨g, .off⟩ =
          .ok ⟨⟨9⟩, 7, 8, [⟨5, .code ⟨1, 1, [.simple .iload0, .simple .ireturn], [], []⟩⟩]⟩
            ⟨g', .off⟩ ∧
      Lists g' extended.pool.slots.toList := by
  obtain ⟨g1, h1, l1⟩ := h.text (s := "n") (by decide) (by simp [flagged]) (by decide)
  obtain ⟨g2, h2, l2⟩ := l1.text (s := "(I)I") (by decide) (by simp [flagged]) (by decide)
  have hcode : Grow.text "Code" g2 = .ok 5 g2 := l2.held (k := 4) (by decide) rfl (by decide)
  have hemit : emitCode ⟨9⟩ "(I)I" [.op .iload0, .op .ireturn] ⟨g2, .off⟩ =
      .ok ⟨5, .code ⟨1, 1, [.simple .iload0, .simple .ireturn], [], []⟩⟩ ⟨g2, .off⟩ := by
    refine (bind_run (grow_eq_ok.2 ⟨g2, rfl, hcode⟩)).trans ?_
    exact bind_run (grow_eq_ok.2 ⟨g2, rfl, emit_newMethod g2⟩)
  refine ⟨g2, ?_, l2⟩
  refine (bind_run rfl).trans ?_
  refine (bind_run (grow_eq_ok.2 ⟨g1, rfl, h1⟩)).trans ?_
  refine (bind_run (grow_eq_ok.2 ⟨g2, rfl, h2⟩)).trans ?_
  exact bind_run hemit

theorem build_extended : ((loadDraft []).applyAll newMethod).build = .ok extended := by
  obtain ⟨g, g1, hclass, hcopy, hlists⟩ := exists_lists_load none
  obtain ⟨g2, hnew, hlists⟩ := build_newMethod hlists
  have hmethods : ((loadDraft []).applyAll newMethod).methods.mapM
      (buildMethod (importSource loadClass)) ⟨g, .off⟩ = .ok extended.methods ⟨g2, .off⟩ := by
    rw [applyAll_newMethod, List.mapM_cons, bind_run hcopy, List.mapM_cons, bind_assoc,
      bind_run hnew]
    rfl
  have hthis : Build.grow (.classRef "A") ⟨.empty, .off⟩ = .ok 2 ⟨g, .off⟩ :=
    grow_eq_ok.2 ⟨g, rfl, hclass⟩
  rw [applyAll_newMethod] at hmethods ⊢
  refine Eq.trans (build_of_runs ⟨rfl, rfl, rfl⟩ hthis rfl hmethods rfl
    hlists.buildBootstrap_eq) ?_
  rw [hlists.pool_eq]
  rfl

theorem encode_extended : ∃ out, extended.encode = .ok out := by
  have hload : Code.reassemble [.constant .ldc 6, .simple .vreturn] =
      .ok ⟨[0x12, 6, 0xB1], _, _⟩ :=
    Code.reassemble_eq_ok (by simp [Code.TargetsIn, Instruction.targets]) (by decide) rfl
  have hreturn : Code.reassemble [.simple .iload0, .simple .ireturn] = .ok ⟨[0x1A, 0xAC], _, _⟩ :=
    Code.reassemble_eq_ok (by simp [Code.TargetsIn, Instruction.targets]) (by decide) rfl
  obtain ⟨methods, hmethods⟩ : ∃ out, concatM Member.encode extended.methods = .ok out := by
    rw [extended, loading, concatM_cons, concatM_cons, Member.encode, Member.encode,
      Attribute.encodeTable, Attribute.encodeTable, encodeAttributes, encodeAttributes,
      Attribute.encode, Attribute.encode, Payload.encode, Payload.encode, CodeBody.encode,
      CodeBody.encode, hload, hreturn]
    exact ⟨_, rfl⟩
  obtain ⟨pool, hpool⟩ : ∃ out, extended.pool.encode = .ok out := ⟨_, rfl⟩
  rw [ClassFile.encode_eq, hpool, ClassFile.encodeBody, hmethods]
  exact ⟨_, rfl⟩

theorem read_of_build_extended :
    ∃ out, (loadDraft []).Begins ∧ (∀ e ∈ newMethod, e.IsComplete) ∧
      45 ≤ ((loadDraft []).applyAll newMethod).major ∧
      ((loadDraft []).applyAll newMethod).major ≤ 69 ∧
      (((loadDraft []).applyAll newMethod).build >>= ClassFile.encode) = .ok out ∧
      ∃ c, ClassFile.read out = .ok c ∧ c.encode = .ok out := by
  obtain ⟨out, hout⟩ := encode_extended
  have hbegins : (loadDraft []).Begins := .ofClass read_withLoad ofClass_loadClass
  have hcomplete : ∀ e ∈ newMethod, e.IsComplete := by
    simp [newMethod, Edit.IsComplete, Code.IsComplete, Command.IsComplete]
    decide
  have hbuild := exceptBind_eq_ok.2 ⟨_, build_extended, hout⟩
  exact ⟨out, hbegins, hcomplete, by decide, by decide, hbuild,
    read_of_build hbegins hcomplete (by decide) (by decide) hbuild⟩

end Draft

end JvmClass
