import JvmClass.Inspect.Views
import JvmClass.Proofs.Code.Assembly
import JvmClass.Proofs.Pool.Coverage
import JvmClass.Proofs.Pool.Requests
import JvmClass.Proofs.WellFormed

/-!
# Classes that were read can be shown

Rendering follows references without checking them. In a pool where every reference finds what it
asks for and every text is one (`Pool.Resolvable`) nothing can fail: names, members and handles
resolve, and a handle refers to a member, never to a handle, so no chain of handles has to be cut
short. A class that was read without unpaired text has such a pool, and the operands of its
instructions are entries of it. The lines of a method stand for the instructions at the offsets
where they were read in its code array.
-/

namespace JvmClass

/-! ## Entries -/

namespace Pool

/-- Every reference finds what it asks for, and every text is one. -/
structure Resolvable (p : Pool) : Prop where
  references : ∀ i e, p.get? i = some e → p.Meets e
  texts : ∀ i us, p.get? i ≠ some (.utf8Unpaired us)

/-- What is shown inside an entry is shown by the same rules. -/
def ShownInside (p : Pool) (inner outer : Constant) : Prop :=
  ∃ kind reference, outer = .methodHandle kind reference ∧ p.get? reference = some inner

/-- A handle of any kind refers to a field or method. -/
theorem memberRef_of_handleRole? {kind : UInt8} {role : Role} {c : Constant}
    (h : handleRole? kind = some role) (hc : role.accepts c = true) :
    Role.memberRef.accepts c = true := by
  unfold handleRole? at h
  split at h <;> cases h <;> cases c <;> first | rfl | cases hc

theorem Holds.anyText {p : Pool} {i : UInt16} (h : p.Holds .text i) : p.Holds .anyText i := by
  obtain ⟨c, hc, hrole⟩ := h
  cases c with
  | utf8 s => exact ⟨_, hc, rfl⟩
  | _ => cases hrole

namespace Resolvable

variable {p : Pool} (h : p.Resolvable)

include h

theorem text {i : UInt16} (hi : p.Holds .anyText i) : ∃ s, p.text i = .ok s := by
  obtain ⟨c, hc, hrole⟩ := hi
  cases c with
  | utf8 s => exact ⟨s, text_eq_ok.2 hc⟩
  | utf8Unpaired us => exact absurd hc (h.texts i us)
  | _ => cases hrole

theorem className {i : UInt16} (hi : p.Holds .classRef i) : ∃ s, p.className i = .ok s := by
  obtain ⟨c, hc, hrole⟩ := hi
  cases c with
  | classRef n =>
    obtain ⟨_, ⟨⟩, hmet⟩ := h.references i _ hc
    obtain ⟨s, hs⟩ := h.text (List.forall₂_cons.1 hmet).1
    exact ⟨s, exceptBind_eq_ok.2 ⟨_, get_eq_ok.2 hc, hs⟩⟩
  | _ => cases hrole

theorem nameAndType {i : UInt16} (hi : p.Holds .nameAndType i) :
    ∃ t, p.nameAndType i = .ok t := by
  obtain ⟨c, hc, hrole⟩ := hi
  cases c with
  | nameAndType n d =>
    obtain ⟨_, ⟨⟩, hmet⟩ := h.references i _ hc
    obtain ⟨hn, hrest⟩ := List.forall₂_cons.1 hmet
    obtain ⟨name, hname⟩ := h.text hn
    obtain ⟨descriptor, hdescriptor⟩ := h.text (List.forall₂_cons.1 hrest).1.anyText
    refine ⟨(name, descriptor), ?_⟩
    rw [Pool.nameAndType, exceptBind_run (get_eq_ok.2 hc)]
    show (do return (← p.text n, ← p.text d)) = Except.ok (name, descriptor)
    rw [exceptBind_run hname, exceptBind_run hdescriptor]
    rfl
  | _ => cases hrole

/-- Entries other than handles are shown at once. -/
theorem renderWithin_of_plain {c : Constant} (hmet : p.Meets c)
    (hplain : ∀ kind reference, c ≠ .methodHandle kind reference) :
    ∃ text, ∀ depth, p.renderWithin depth c = .ok text := by
  obtain ⟨roles, hroles, hall⟩ := hmet
  cases c with
  | utf8 | utf8Unpaired | integer | float | long | double | unusable =>
    exact ⟨_, fun depth => by rw [renderWithin]⟩
  | classRef i | methodType i | moduleRef i | packageRef i =>
    cases hroles
    obtain ⟨s, hs⟩ := h.text (List.forall₂_cons.1 hall).1
    exact ⟨s, fun depth => by rw [renderWithin, hs]⟩
  | stringRef i =>
    cases hroles
    obtain ⟨e, he, hrole⟩ := (List.forall₂_cons.1 hall).1
    cases e with
    | utf8 s =>
      refine ⟨Text.quoted s, fun depth => ?_⟩
      rw [renderWithin, get_eq_ok.2 he, text_eq_ok.2 he]
      rfl
    | utf8Unpaired us => exact absurd he (h.texts i us)
    | _ => cases hrole
  | fieldRef i j | methodRef i j | interfaceMethodRef i j =>
    cases hroles
    obtain ⟨hi, hj⟩ := List.forall₂_cons.1 hall
    obtain ⟨owner, howner⟩ := h.className hi
    obtain ⟨⟨name, descriptor⟩, ht⟩ := h.nameAndType (List.forall₂_cons.1 hj).1
    refine ⟨owner ++ "." ++ name ++ ":" ++ descriptor, fun depth => ?_⟩
    rw [renderWithin, howner, ht]
    rfl
  | nameAndType i j =>
    cases hroles
    obtain ⟨hi, hj⟩ := List.forall₂_cons.1 hall
    obtain ⟨name, hname⟩ := h.text hi
    obtain ⟨descriptor, hdescriptor⟩ := h.text (List.forall₂_cons.1 hj).1.anyText
    refine ⟨name ++ ":" ++ descriptor, fun depth => ?_⟩
    rw [renderWithin, hname, hdescriptor]
    rfl
  | dynamic m i | invokeDynamic m i =>
    cases hroles
    obtain ⟨⟨name, descriptor⟩, ht⟩ := h.nameAndType (List.forall₂_cons.1 hall).1
    refine ⟨"#" ++ toString m.toNat ++ ":" ++ name ++ ":" ++ descriptor, fun depth => ?_⟩
    rw [renderWithin, ht]
    rfl
  | methodHandle kind reference => exact absurd rfl (hplain kind reference)

/-- Showing an entry comes to an end, and to the same text whatever the bound on handles. -/
theorem renderWithin {i : UInt16} {c : Constant} (hc : p.get? i = some c) :
    Acc p.ShownInside c ∧ ∃ text, ∀ depth, 0 < depth → p.renderWithin depth c = .ok text := by
  have hmet := h.references i c hc
  by_cases hplain : ∀ kind reference, c ≠ .methodHandle kind reference
  · obtain ⟨text, ht⟩ := h.renderWithin_of_plain hmet hplain
    refine ⟨.intro c ?_, text, fun depth _ => ht depth⟩
    rintro inner ⟨kind, reference, rfl, -⟩
    exact absurd rfl (hplain kind reference)
  · push Not at hplain
    obtain ⟨kind, reference, rfl⟩ := hplain
    obtain ⟨roles, hroles, hall⟩ := hmet
    obtain ⟨role, hrole, rfl⟩ := Option.map_eq_some_iff.1 hroles
    obtain ⟨member, hmember, haccepts⟩ := (List.forall₂_cons.1 hall).1
    have hnot : ∀ k r, member ≠ .methodHandle k r := by
      rintro k r rfl
      cases memberRef_of_handleRole? hrole haccepts
    obtain ⟨text, ht⟩ := h.renderWithin_of_plain (h.references _ _ hmember) hnot
    refine ⟨.intro _ ?_, handleKindName kind ++ " " ++ text, fun depth hdepth => ?_⟩
    · rintro inner ⟨_, _, ⟨⟩, hinner⟩
      cases hmember.symm.trans hinner
      refine .intro _ ?_
      rintro _ ⟨k, r, rfl, -⟩
      exact absurd rfl (hnot k r)
    · obtain ⟨depth, rfl⟩ := Nat.exists_eq_add_of_le' hdepth
      rw [Pool.renderWithin, get_eq_ok.2 hmember, exceptBind_run rfl, ht]
      rfl

theorem render {i : UInt16} {c : Constant} (hc : p.get? i = some c) :
    ∃ text, p.render c = .ok text := by
  obtain ⟨-, text, ht⟩ := h.renderWithin hc
  exact ⟨text, ht _ (Nat.succ_pos _)⟩

end Resolvable

theorem resolvable_of_validate {p : Pool} (hp : p.size < 0x10000) (hvalid : p.validate = .ok ())
    (htexts : ∀ us, .utf8Unpaired us ∉ p.slots.toList) : p.Resolvable where
  references _ _ he := references_of_validate hp hvalid he
  texts _ us he := htexts us (List.mem_of_getElem? (get?_eq_some_iff.1 he).2)

end Pool

/-! ## Instructions -/

theorem Instruction.render_of_operands {p : Pool} (h : p.Resolvable) {i : Instruction}
    (hi : ∀ index, i.poolIndex? = some index → ∃ e, p.get? index = some e) :
    ∃ text, i.render p = .ok text := by
  have entry (o : Opcode) (operands : String) (index : UInt16)
      (hindex : i.poolIndex? = some index) :
      ∃ text, renderEntry p o operands index = .ok text := by
    obtain ⟨e, he⟩ := hi index hindex
    obtain ⟨text, ht⟩ := h.render he
    exact ⟨_, exceptBind_eq_ok.2 ⟨e, Pool.get_eq_ok.2 he, exceptBind_eq_ok.2 ⟨text, ht, rfl⟩⟩⟩
  cases i with
  | constant | field | invoke | invokeDynamic | typed | invokeInterface | multiNewArray =>
    exact entry _ _ _ rfl
  | lookupSwitch default pairs => cases pairs <;> exact ⟨_, rfl⟩
  | _ => exact ⟨_, rfl⟩

/-! ## Methods -/

/-- The bytes of an item stand among those of the table. -/
theorem SpellsTable.infix_of_mem {α : Type} {spell : α → List Bytes → Bytes → Prop} {as : List α}
    {codes : List Bytes} {used : Bytes} (h : SpellsTable spell as codes used) :
    ∀ a ∈ as, ∃ ps u, spell a ps u ∧ u <:+: used := by
  obtain ⟨-, v, hv, rfl⟩ := h
  suffices hall : ∀ a ∈ as, ∃ ps u, spell a ps u ∧ u <:+: v by
    intro a ha
    obtain ⟨ps, u, hu, hin⟩ := hall a ha
    exact ⟨ps, u, hu, hin.trans (List.suffix_append _ _).isInfix⟩
  induction as generalizing codes v with
  | nil => simp
  | cons a as ih =>
    obtain ⟨ps, qs, u, w, hu, hw, -, rfl⟩ := hv
    refine List.forall_mem_cons.2 ⟨⟨ps, u, hu, (List.prefix_append _ _).isInfix⟩, fun b hb => ?_⟩
    obtain ⟨ps, x, hx, hin⟩ := ih w hw b hb
    exact ⟨ps, x, hx, hin.trans (List.suffix_append _ _).isInfix⟩

/-- Among the bytes of a class stand those of an attribute that holds the code of a method, with
`code` as its code array. -/
def ClassFile.CodeArray (c : ClassFile) (bytes : Bytes) (m : Member) (body : CodeBody)
    (code : Bytes) : Prop :=
  ∃ name depth rest used, ⟨name, .code body⟩ ∈ m.attributes ∧
    Attribute.Spells c.pool depth ⟨name, .code body⟩ (code :: rest) used ∧ used <:+: bytes

theorem Member.mem_of_code? {m : Member} {body : CodeBody} (h : m.code? = some body) :
    ∃ name, ⟨name, .code body⟩ ∈ m.attributes := by
  obtain ⟨⟨name, payload⟩, hm, hp⟩ := List.exists_of_findSome?_eq_some h
  cases payload with
  | code b =>
    cases hp
    exact ⟨name, hm⟩
  | _ => cases hp

/-- The code of a method was decoded from an array in the bytes of its class. -/
theorem ClassFile.exists_codeArray {bytes : Bytes} {c : ClassFile} (h : read bytes = .ok c)
    {m : Member} (hm : m ∈ c.methods) {body : CodeBody} (hbody : m.code? = some body) :
    ∃ code, c.CodeArray bytes m body code ∧
      Instruction.decode c.pool code = .ok body.instructions := by
  obtain ⟨_, _, -, pool, tables, -, htables, hbytes⟩ := read_eq_ok_iff.1 h
  obtain ⟨_, methods, attributes, _, _, _, -, -, hmethods, -, -, hused⟩ := htables
  obtain ⟨_, member, ⟨v, hv, hmember⟩, hin⟩ := hmethods.infix_of_mem m hm
  obtain ⟨name, ha⟩ := Member.mem_of_code? hbody
  obtain ⟨_, u, hu, hin'⟩ := hv.infix_of_mem _ ha
  obtain ⟨code, rest, rfl, hdecode⟩ := hu.exists_code
  have hv' : v <:+: member := hmember ▸ (List.suffix_append _ v).isInfix
  have hmethods' : methods <:+: tables := ⟨_, attributes, hused.symm⟩
  have htables' : tables <:+: bytes := hbytes ▸ (List.suffix_append _ tables).isInfix
  exact ⟨code, ⟨name, _, rest, u, ha, hu,
    (hin'.trans hv').trans (hin.trans (hmethods'.trans htables'))⟩, hdecode⟩

/-- One line for each instruction, with the offset at which it was read in front of it. -/
def Code.Listing (p : Pool) (code : Bytes) (instructions : List Instruction)
    (lines : List String) : Prop :=
  ∃ starts, LiesAt p code starts instructions ∧ lines.length = instructions.length ∧
    ∀ (k : Nat) (i : Instruction), instructions[k]? = some i →
      ∃ (o : Nat) (text : String), starts[k]? = some o ∧ i.render p = .ok text ∧
        lines[k]? = some (Text.padLeft 4 ' ' (toString o) ++ ": " ++ text)

/-- Decoded code is listed. -/
theorem Code.exists_listing {p : Pool} (h : p.Resolvable) {code : Bytes}
    {instructions : List Instruction} (hdecode : Instruction.decode p code = .ok instructions) :
    ∃ lines, (instructions.zip (offsets instructions).toList).mapM (fun (i, offset) => do
        return Text.padLeft 4 ' ' (toString offset) ++ ": " ++ (← i.render p)) =
          (.ok lines : Except Error _) ∧ Listing p code instructions lines := by
  have hspells := (decode_eq_ok_iff.1 hdecode).1
  have hlies := hspells.liesAt
  have hshown : ∀ i ∈ instructions, ∃ text, i.render p = .ok text := by
    intro i hi
    refine Instruction.render_of_operands h fun index hindex => ?_
    obtain ⟨role, -, e, he, -⟩ := (hspells.fits i hi).operand hindex
    exact ⟨e, he⟩
  have hline : ∀ x ∈ instructions.zip (offsets instructions).toList,
      ∃ line, (do return Text.padLeft 4 ' ' (toString x.2) ++ ": " ++ (← x.1.render p) :
        Except Error String) = .ok line := by
    rintro ⟨i, o⟩ hm
    obtain ⟨text, ht⟩ := hshown i (List.of_mem_zip hm).1
    exact ⟨_, exceptBind_eq_ok.2 ⟨text, ht, rfl⟩⟩
  obtain ⟨lines, hlines⟩ := exists_mapM_ok hline
  refine ⟨lines, hlines, offsets instructions, hlies, ?_, fun k i hi => ?_⟩
  · have hsize := hlies.size
    rw [← Array.length_toList] at hsize
    rw [← (mapM_eq_ok_iff.1 hlines).length_eq, List.length_zip, hsize]
    omega
  · obtain ⟨o, _, ho, -⟩ := hlies.each k i hi
    have hzip : (instructions.zip (offsets instructions).toList)[k]? = some (i, o) :=
      List.getElem?_zip_eq_some.2 ⟨hi, by rw [Array.getElem?_toList, ho]⟩
    obtain ⟨line, hline, hshow⟩ := getElem?_of_mapM hlines hzip
    obtain ⟨text, ht, hpure⟩ := exceptBind_eq_ok.1 hshow
    exact ⟨o, text, ho, ht, hline.trans (congrArg some (Except.ok.inj hpure).symm)⟩

/-! ## Classes -/

namespace ClassFile

theorem exists_dependencies {c : ClassFile} (hsize : c.pool.size < 0x10000)
    (h : c.pool.Resolvable) : ∃ names, c.dependencies = .ok names := by
  have hnames : ∀ x ∈ c.pool.usable.filter fun x => Role.classRef.accepts x.2,
      ∃ name, c.pool.className x.1 = .ok name := by
    rintro ⟨i, e⟩ hx
    obtain ⟨hm, hrole⟩ := List.mem_filter.1 hx
    exact h.className ⟨e, ((Pool.mem_usable hsize).1 hm).1, hrole⟩
  obtain ⟨names, hnames⟩ := exists_mapM_ok hnames
  exact ⟨sortedOnce names, exceptBind_eq_ok.2 ⟨names, hnames, rfl⟩⟩

/-- The view of an entry. -/
def Views (p : Pool) (entry : UInt16 × Constant) (v : EntryView) : Prop :=
  v.index = entry.1 ∧ v.kind = entry.2.kindName ∧ p.render entry.2 = .ok v.value

theorem exists_entryViews {c : ClassFile} (hsize : c.pool.size < 0x10000)
    (h : c.pool.Resolvable) :
    ∃ views, c.entryViews = .ok views ∧ List.Forall₂ (Views c.pool) c.pool.usable views := by
  have hview : ∀ x ∈ c.pool.usable, ∃ view,
      (do return ⟨x.1, x.2.kindName, ← c.pool.render x.2⟩ : Except Error EntryView) =
        .ok view := by
    rintro ⟨i, e⟩ hx
    obtain ⟨text, ht⟩ := h.render ((Pool.mem_usable hsize).1 hx).1
    exact ⟨_, exceptBind_eq_ok.2 ⟨text, ht, rfl⟩⟩
  obtain ⟨views, hviews⟩ := exists_mapM_ok hview
  refine ⟨views, hviews, (mapM_eq_ok_iff.1 hviews).imp fun x v hv => ?_⟩
  obtain ⟨text, ht, hpure⟩ := exceptBind_eq_ok.1 hv
  cases hpure
  exact ⟨rfl, rfl, ht⟩

/-- Nothing that shows a class fails on one that was read, if all its text is text. There is one
view for each usable entry, in the order of their indices. There is one line for each instruction
of a method, behind the offset of the instruction in the code array. No entry is shown inside
itself, through any number of handles. -/
theorem shown_of_read {bytes : Bytes} {c : ClassFile} (h : read bytes = .ok c)
    (htexts : ∀ us, .utf8Unpaired us ∉ c.pool.slots.toList) :
    (∃ names, c.dependencies = .ok names) ∧
      (∃ views, c.entryViews = .ok views ∧
        (views.map EntryView.index).Pairwise (· < ·) ∧
        (∀ i, i ∈ views.map EntryView.index ↔ c.pool.IsEntry i) ∧
        ∀ v ∈ views, ∃ e, c.pool.get? v.index = some e ∧ v.kind = e.kindName ∧
          c.pool.render e = .ok v.value) ∧
      (∀ m ∈ c.methods, ∃ lines, c.disassemble m = .ok lines ∧ (m.code? = none → lines = []) ∧
        ∀ body, m.code? = some body → ∃ code, c.CodeArray bytes m body code ∧
          Code.Listing c.pool code body.instructions lines) ∧
      ∀ i e, c.pool.get? i = some e → Acc c.pool.ShownInside e ∧
        ∃ text, ∀ depth, 0 < depth → c.pool.renderWithin depth e = .ok text := by
  obtain ⟨_, _, hvalid, _, _, hpool, -, -⟩ := read_eq_ok_iff.1 h
  have hsize : c.pool.size < 0x10000 := Nat.lt_succ_of_lt hpool.isReadable.1
  have hres := Pool.resolvable_of_validate hsize hvalid.pool htexts
  refine ⟨?_, ?_, fun m hm => ?_, fun i e he => hres.renderWithin he⟩
  · exact exists_dependencies hsize hres
  · obtain ⟨views, hviews, hall⟩ := exists_entryViews hsize hres
    have hindex : views.map EntryView.index = c.pool.usable.map Prod.fst :=
      map_eq_of_forall₂ (hall.imp fun _ _ hv => hv.1)
    refine ⟨views, hviews, ?_, fun i => ?_, fun v hv => ?_⟩
    · rw [hindex]
      exact List.pairwise_map.2 (Pool.usable_pairwise (by unfold Pool.size at hsize; simp; omega))
    · rw [hindex]
      exact hpool.isReadable.isSpread.mem_usable_fst
    · obtain ⟨⟨i, e⟩, hx, rfl, hkind, hvalue⟩ := exists_of_forall₂ hall v hv
      exact ⟨e, ((Pool.mem_usable hsize).1 hx).1, hkind, hvalue⟩
  · unfold disassemble
    cases hcode : m.code? with
    | none => exact ⟨[], rfl, fun _ => rfl, nofun⟩
    | some body =>
      obtain ⟨code, harray, hdecode⟩ := exists_codeArray h hm hcode
      obtain ⟨lines, hlines, hlisting⟩ := Code.exists_listing hres hdecode
      refine ⟨lines, hlines, nofun, ?_⟩
      rintro _ ⟨⟩
      exact ⟨code, harray, hlisting⟩

theorem shown_loadClass :
    read Draft.withLoad = .ok Draft.loadClass ∧
      (∀ us, .utf8Unpaired us ∉ Draft.loadClass.pool.slots.toList) ∧
      (∃ names, Draft.loadClass.dependencies = .ok names) ∧
      ∀ m ∈ Draft.loadClass.methods, ∃ lines, Draft.loadClass.disassemble m = .ok lines := by
  have htexts : ∀ us, .utf8Unpaired us ∉ Draft.loadClass.pool.slots.toList := by
    simp [Draft.loadClass]
  obtain ⟨hnames, -, hlines, -⟩ := shown_of_read Draft.read_withLoad htexts
  refine ⟨Draft.read_withLoad, htexts, hnames, fun m hm => ?_⟩
  obtain ⟨lines, hl, -⟩ := hlines m hm
  exact ⟨lines, hl⟩

end ClassFile

end JvmClass
