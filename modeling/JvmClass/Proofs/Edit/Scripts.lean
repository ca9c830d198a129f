import JvmClass.Proofs.Edit.Readable

/-!
# What a script means

An outline lists the fields and the methods of a class under edit: the key of each, its flags, the
member of the base class it was and the code it was given. A script has a meaning on outlines
alone, edit by edit, which ends with the first edit that is rejected. Drafts follow it: a draft
goes on after a failure but does not forget it, and what is built from one that did not fail is
what its outline says.
-/

namespace JvmClass

/-! ## Outlines -/

/-- A field or a method of an outline. -/
structure Outline.Entry where
  key : MemberKey
  access : Access
  /-- The member of the base class, unless the entry was inserted. -/
  base : Option Member
  /-- What the last edit of its code supplied. -/
  code : Option (List Command)

structure Outline where
  base : Option ClassFile
  fields : List Outline.Entry
  methods : List Outline.Entry

namespace Outline

/-- Puts an entry behind the others, unless its key is taken. -/
def insert (e : Entry) (es : List Entry) : Except Error (List Entry) :=
  if ∃ e' ∈ es, e'.key = e.key then .error (Draft.duplicate e.key) else .ok (es ++ [e])

/-- Puts `change e` in the place of the first entry `e` with a key. -/
def revise (key : MemberKey) (change : Entry → List Entry) :
    List Entry → Except Error (List Entry)
  | [] => .error (Draft.missing key)
  | e :: es =>
    if e.key = key then .ok (change e ++ es) else do return e :: (← revise key change es)

/-- What an edit means. The header of a class is not part of its outline. -/
def apply (o : Outline) : Edit → Except Error Outline
  | .access _ | .superClass _ | .interfaces _ | .version _ _ => return o
  | .field access key => do
    let _ ← FieldType.parse key.descriptor
    return { o with fields := ← insert ⟨key, access, none, none⟩ o.fields }
  | .method access key code => do
    let _ ← MethodType.parse key.descriptor
    return { o with methods := ← insert ⟨key, access, none, code⟩ o.methods }
  | .fieldAccess key access => do
    return { o with fields := ← revise key (fun e => [{ e with access }]) o.fields }
  | .methodAccess key access => do
    return { o with methods := ← revise key (fun e => [{ e with access }]) o.methods }
  | .methodCode key code => do
    return { o with methods := ← revise key (fun e => [{ e with code := some code }]) o.methods }
  | .removeField key => do
    return { o with fields := ← revise key (fun _ => []) o.fields }
  | .removeMethod key => do
    return { o with methods := ← revise key (fun _ => []) o.methods }

/-- A member of a class as it is. -/
def Entry.ofMember (c : ClassFile) (m : Member) : Except Error Entry := do
  return ⟨⟨← c.memberName m, ← c.memberDescriptor m⟩, m.access, some m, none⟩

/-- The outline of an empty class, or of a class as it is. -/
def ofBase : Option ClassFile → Except Error Outline
  | none => return ⟨none, [], []⟩
  | some c => do
    return ⟨some c, ← c.fields.mapM (Entry.ofMember c), ← c.methods.mapM (Entry.ofMember c)⟩

/-- What a script means: one edit after the other, up to the first that is rejected. -/
def ofScript (base : Option ClassFile) (edits : List Edit) : Except Error Outline := do
  edits.foldlM apply (← ofBase base)

/-- What the members of the base class refer to. -/
def source (o : Outline) : ImportSource := (o.base.map Draft.importSource).getD ⟨.empty, #[]⟩

/-! ## Outlines of drafts -/

theorem revise_append {key : MemberKey} {change : Entry → List Entry} {before : List Entry}
    (hbefore : ∀ e ∈ before, e.key ≠ key) {e : Entry} (he : e.key = key) (after : List Entry) :
    revise key change (before ++ e :: after) = .ok (before ++ (change e ++ after)) := by
  induction before with
  | nil => exact if_pos he
  | cons b before ih =>
    obtain ⟨hb, hbefore⟩ := List.forall_mem_cons.1 hbefore
    rw [List.cons_append, revise, if_neg hb, ih hbefore]
    rfl

theorem revise_missing {key : MemberKey} {change : Entry → List Entry} {es : List Entry}
    (h : ∀ e ∈ es, e.key ≠ key) : revise key change es = .error (Draft.missing key) := by
  induction es with
  | nil => rfl
  | cons e es ih =>
    obtain ⟨he, hes⟩ := List.forall_mem_cons.1 h
    rw [revise, if_neg he, ih hes]
    rfl

end Outline

open Outline (Entry)

/-- The entry of a member of a draft. -/
def MemberDraft.entry : MemberDraft → Entry
  | kept m key access code => ⟨key, access.getD m.access, some m, code⟩
  | added key access code => ⟨key, access, none, code⟩

namespace MemberDraft

@[simp] theorem entry_key (k : MemberDraft) : k.entry.key = k.key := by
  cases k <;> rfl

theorem entry_withAccess (k : MemberDraft) (access : Access) :
    (k.withAccess access).entry = { k.entry with access } := by
  cases k <;> rfl

theorem entry_withCode (k : MemberDraft) (code : List Command) :
    (k.withCode code).entry = { k.entry with code := some code } := by
  cases k <;> rfl

end MemberDraft

namespace Draft

/-- The member that is found is the first with its key. -/
theorem find?_eq_some {ks : List MemberDraft} {key : MemberKey} {i : Nat}
    (h : find? ks key = some i) :
    ∃ before k after, ks = before ++ k :: after ∧ before.length = i ∧ k.key = key ∧
      ∀ b ∈ before, b.key ≠ key := by
  obtain ⟨hlt, hkey, hfirst⟩ := List.findIdx?_eq_some_iff_getElem.1 h
  refine ⟨ks.take i, ks[i], ks.drop (i + 1), ?_, ?_, ?_, fun b hb => ?_⟩
  · rw [List.getElem_cons_drop, List.take_append_drop]
  · exact List.length_take_of_le (Nat.le_of_lt hlt)
  · simpa using hkey
  · obtain ⟨j, hj, rfl⟩ := List.mem_take_iff_getElem.1 hb
    simpa using hfirst j (by omega)

theorem find?_eq_none {ks : List MemberDraft} {key : MemberKey} :
    find? ks key = none ↔ ∀ k ∈ ks, k.key ≠ key := by
  simp [find?, List.findIdx?_eq_none_iff]

theorem insert_entry (ks : List MemberDraft) (key : MemberKey) (access : Access)
    (code : Option (List Command)) :
    Outline.insert ⟨key, access, none, code⟩ (ks.map MemberDraft.entry) =
      match find? ks key with
      | some _ => .error (duplicate key)
      | none => .ok ((ks ++ [MemberDraft.added key access code]).map MemberDraft.entry) := by
  unfold Outline.insert
  cases hfind : find? ks key with
  | none =>
    have hnone := find?_eq_none.1 hfind
    rw [if_neg (by simpa using hnone), List.map_append]
    rfl
  | some i =>
    have hsome : ¬∀ k ∈ ks, k.key ≠ key := by
      rw [← find?_eq_none, hfind]
      exact nofun
    exact if_pos (by simpa using hsome)

/-- A change of the first member with a key is one of its entry. -/
theorem revise_entry {change : MemberDraft → MemberDraft} {change' : Entry → Entry}
    (h : ∀ k, (change k).entry = change' k.entry) (key : MemberKey) (ks : List MemberDraft) :
    Outline.revise key (fun e => [change' e]) (ks.map MemberDraft.entry) =
      match find? ks key with
      | some i => .ok ((ks.modify i change).map MemberDraft.entry)
      | none => .error (missing key) := by
  cases hfind : find? ks key with
  | none => exact Outline.revise_missing (by simpa using find?_eq_none.1 hfind)
  | some i =>
    obtain ⟨before, k, after, rfl, rfl, hk, hbefore⟩ := find?_eq_some hfind
    rw [List.map_append, List.map_cons,
      Outline.revise_append (by simpa using hbefore) (k.entry_key.trans hk)]
    simp [List.modify_eq_take_drop, h]

theorem revise_erase (key : MemberKey) (ks : List MemberDraft) :
    Outline.revise key (fun _ => []) (ks.map MemberDraft.entry) =
      match find? ks key with
      | some i => .ok ((ks.eraseIdx i).map MemberDraft.entry)
      | none => .error (missing key) := by
  cases hfind : find? ks key with
  | none => exact Outline.revise_missing (by simpa using find?_eq_none.1 hfind)
  | some i =>
    obtain ⟨before, k, after, rfl, rfl, hk, hbefore⟩ := find?_eq_some hfind
    rw [List.map_append, List.map_cons,
      Outline.revise_append (by simpa using hbefore) (k.entry_key.trans hk)]
    simp [List.eraseIdx_append_of_length_le]

def outline (d : Draft) : Outline :=
  ⟨d.base, d.fields.map MemberDraft.entry, d.methods.map MemberDraft.entry⟩

/-- What a draft knows of its script: the first failure, or else the outline so far. -/
def outcome (d : Draft) : Except Error Outline :=
  match d.failure with
  | some e => .error e
  | none => .ok d.outline

/-! ## Scripts -/

variable {d : Draft} {err : Error}

theorem outcome_eq_error : d.outcome = .error err ↔ d.failure = some err := by
  unfold outcome
  cases d.failure <;> simp

theorem outcome_eq_ok {o : Outline} : d.outcome = .ok o ↔ d.failure = none ∧ d.outline = o := by
  unfold outcome
  cases d.failure <;> simp

theorem failure_fail_of_none (h : d.failure = none) (e : Error) : (d.fail e).failure = some e := by
  rw [fail, h]
  rfl

theorem failure_fail (h : d.failure = some err) (e : Error) : (d.fail e).failure = some err := by
  rw [fail, h]
  rfl

theorem outcome_fail (h : d.failure = none) (e : Error) : (d.fail e).outcome = .error e :=
  outcome_eq_error.2 (failure_fail_of_none h e)

theorem failure_insertField (h : d.failure = some err) (access : Access) (key : MemberKey) :
    (d.insertField access key).failure = some err := by
  unfold insertField
  split
  · exact failure_fail h _
  · exact h

theorem failure_insertMethod (h : d.failure = some err) (access : Access) (key : MemberKey)
    (code : Option (List Command)) : (d.insertMethod access key code).failure = some err := by
  unfold insertMethod
  split
  · exact failure_fail h _
  · exact h

theorem failure_check (h : d.failure = some err) {α : Type} (x : Except Error α) :
    (d.check x).failure = some err := by
  cases x with
  | ok => exact h
  | error e => exact failure_fail h e

/-- A failure is not forgotten, whatever follows it. -/
theorem failure_apply (h : d.failure = some err) (e : Edit) : (d.apply e).failure = some err := by
  cases e with
  | access | superClass | interfaces | version => exact h
  | field access key => exact failure_insertField (failure_check h _) access key
  | method access key code => exact failure_insertMethod (failure_check h _) access key code
  | methodAccess | methodCode =>
    rw [apply, changeMethod]
    split
    · exact h
    · exact failure_fail h _
  | fieldAccess =>
    rw [apply, changeField]
    split
    · exact h
    · exact failure_fail h _
  | removeMethod | removeField =>
    rw [apply]
    split
    · exact h
    · exact failure_fail h _

/-- An insertion that is found to be valid. -/
theorem outcome_insertField (h : d.failure = none) (access : Access) (key : MemberKey) :
    (d.insertField access key).outcome = (do
      return { d.outline with
        fields := ← Outline.insert ⟨key, access, none, none⟩ d.outline.fields }) := by
  rw [insertField, outline, insert_entry]
  cases find? d.fields key with
  | some i => exact outcome_fail h _
  | none => exact outcome_eq_ok.2 ⟨h, rfl⟩

theorem outcome_insertMethod (h : d.failure = none) (access : Access) (key : MemberKey)
    (code : Option (List Command)) :
    (d.insertMethod access key code).outcome = (do
      return { d.outline with
        methods := ← Outline.insert ⟨key, access, none, code⟩ d.outline.methods }) := by
  rw [insertMethod, outline, insert_entry]
  cases find? d.methods key with
  | some i => exact outcome_fail h _
  | none => exact outcome_eq_ok.2 ⟨h, rfl⟩

section Revisions

variable {key : MemberKey} {change : Entry → List Entry} {revised : Nat → List MemberDraft}

theorem outcome_reviseField (h : d.failure = none)
    (hrevise : Outline.revise key change (d.fields.map MemberDraft.entry) =
      match find? d.fields key with
      | some i => .ok ((revised i).map MemberDraft.entry)
      | none => .error (missing key)) :
    (match find? d.fields key with
      | some i => { d with fields := revised i }
      | none => d.fail (missing key)).outcome = (do
        return { d.outline with fields := ← Outline.revise key change d.outline.fields }) := by
  rw [outline, hrevise]
  cases find? d.fields key with
  | some i => exact outcome_eq_ok.2 ⟨h, rfl⟩
  | none => exact outcome_fail h _

theorem outcome_reviseMethod (h : d.failure = none)
    (hrevise : Outline.revise key change (d.methods.map MemberDraft.entry) =
      match find? d.methods key with
      | some i => .ok ((revised i).map MemberDraft.entry)
      | none => .error (missing key)) :
    (match find? d.methods key with
      | some i => { d with methods := revised i }
      | none => d.fail (missing key)).outcome = (do
        return { d.outline with methods := ← Outline.revise key change d.outline.methods }) := by
  rw [outline, hrevise]
  cases find? d.methods key with
  | some i => exact outcome_eq_ok.2 ⟨h, rfl⟩
  | none => exact outcome_fail h _

end Revisions

/-- An edit of a draft means what it means for the outline. -/
theorem outcome_apply (d : Draft) (e : Edit) : (d.apply e).outcome = d.outcome >>= (·.apply e) := by
  cases h : d.failure with
  | some err =>
    -- The draft is still edited, but its outline no longer counts.
    rw [outcome_eq_error.2 h, outcome_eq_error.2 (failure_apply h e)]
    rfl
  | none =>
    rw [outcome_eq_ok.2 ⟨h, rfl⟩]
    show _ = d.outline.apply e
    cases e with
    | access | superClass | interfaces | version => exact outcome_eq_ok.2 ⟨h, rfl⟩
    | field access key =>
      rw [apply, Outline.apply]
      cases FieldType.parse key.descriptor with
      | error e =>
        exact outcome_eq_error.2 (failure_insertField (failure_fail_of_none h e) access key)
      | ok => exact outcome_insertField h access key
    | method access key code =>
      rw [apply, Outline.apply]
      cases MethodType.parse key.descriptor with
      | error e =>
        exact outcome_eq_error.2 (failure_insertMethod (failure_fail_of_none h e) access key code)
      | ok => exact outcome_insertMethod h access key code
    | methodAccess key access =>
      exact outcome_reviseMethod h (revise_entry (fun k => k.entry_withAccess access) key d.methods)
    | fieldAccess key access =>
      exact outcome_reviseField h (revise_entry (fun k => k.entry_withAccess access) key d.fields)
    | methodCode key code =>
      exact outcome_reviseMethod h (revise_entry (fun k => k.entry_withCode code) key d.methods)
    | removeMethod key => exact outcome_reviseMethod h (revise_erase key d.methods)
    | removeField key => exact outcome_reviseField h (revise_erase key d.fields)

/-- A script applied to a draft means what it means for the outline. -/
theorem outcome_applyAll (d : Draft) (edits : List Edit) :
    (d.applyAll edits).outcome = d.outcome >>= edits.foldlM Outline.apply := by
  induction edits generalizing d with
  | nil => exact (bind_pure d.outcome).symm
  | cons e edits ih =>
    calc (d.applyAll (e :: edits)).outcome
      _ = (d.apply e).outcome >>= edits.foldlM Outline.apply := ih (d.apply e)
      _ = d.outcome >>= (e :: edits).foldlM Outline.apply := by
        rw [outcome_apply, bind_assoc]
        rfl

/-- A script starts from the outline of its base class. -/
theorem Begins.outcome_eq (h : d.Begins) : d.outcome = Outline.ofBase d.base := by
  cases h with
  | new name => rfl
  | @ofClass bytes c _ hread hd =>
    have entries {ms : List Member} {ks : List MemberDraft} (h : ms.mapM (keep c) = .ok ks) :
        ms.mapM (Entry.ofMember c) = .ok (ks.map MemberDraft.entry) := by
      refine mapM_eq_ok_iff.2 (List.forall₂_map_right_iff.2 ((mapM_eq_ok_iff.1 h).imp ?_))
      intro m k hk
      obtain ⟨key, hn, hd, rfl⟩ := keep_eq_ok.1 hk
      rw [Entry.ofMember, hn, hd]
      rfl
    obtain ⟨hf, hm, -, -, -, hbase, -, -, -, hfailure⟩ := ofClass_eq_ok.1 hd
    rw [hbase, Outline.ofBase, entries hf, entries hm]
    exact outcome_eq_ok.2 ⟨hfailure, by rw [outline, hbase]⟩

theorem Begins.outcome_applyAll (h : d.Begins) (edits : List Edit) :
    (d.applyAll edits).outcome = Outline.ofScript d.base edits := by
  rw [Draft.outcome_applyAll, h.outcome_eq, Outline.ofScript]

end Draft

/-! ## Keys of the base class -/

namespace Outline

/-- A member of the base class has the key that its texts make. -/
def Entry.IsKeyed (p : Pool) (e : Entry) : Prop :=
  ∀ m, e.base = some m →
    p.text m.name = .ok e.key.name ∧ p.text m.descriptor = .ok e.key.descriptor

/-- The base class was read, and its members are listed under their own keys. -/
structure Grounded (o : Outline) : Prop where
  supplies : o.source.Supplies Symbol.IsValid
  fields : ∀ e ∈ o.fields, e.IsKeyed o.source.pool
  methods : ∀ e ∈ o.methods, e.IsKeyed o.source.pool

section Lists

variable {Q : Entry → Prop} {es es' : List Entry} (h : ∀ e ∈ es, Q e)

include h

theorem forall_mem_insert {e : Entry} (he : Q e) (hinsert : insert e es = .ok es') :
    ∀ e ∈ es', Q e := by
  unfold insert at hinsert
  split at hinsert
  · cases hinsert
  · cases hinsert
    exact List.forall_mem_append.2 ⟨h, List.forall_mem_singleton.2 he⟩

theorem forall_mem_revise {key : MemberKey} {change : Entry → List Entry}
    (hrevise : revise key change es = .ok es') (hchange : ∀ e, Q e → ∀ e' ∈ change e, Q e') :
    ∀ e ∈ es', Q e := by
  induction es generalizing es' with
  | nil => cases hrevise
  | cons e es ih =>
    obtain ⟨he, hes⟩ := List.forall_mem_cons.1 h
    rw [revise] at hrevise
    split at hrevise
    · cases hrevise
      exact List.forall_mem_append.2 ⟨hchange e he, hes⟩
    · obtain ⟨rest, hrest, hrevise⟩ := exceptBind_eq_ok.1 hrevise
      cases hrevise
      exact List.forall_mem_cons.2 ⟨he, ih hes hrest⟩

end Lists

theorem Grounded.apply {o o' : Outline} (h : o.Grounded) {e : Edit} (he : o.apply e = .ok o') :
    o'.Grounded := by
  have inserted {key : MemberKey} {access : Access} {code : Option (List Command)} :
      (Entry.mk key access none code).IsKeyed o.source.pool := by
    rintro m ⟨⟩
  cases e with
  | access | superClass | interfaces | version =>
    cases he
    exact h
  | field access key =>
    obtain ⟨_, -, he⟩ := exceptBind_eq_ok.1 he
    obtain ⟨fields, hfields, he⟩ := exceptBind_eq_ok.1 he
    cases he
    exact { h with fields := forall_mem_insert h.fields inserted hfields }
  | method access key code =>
    obtain ⟨_, -, he⟩ := exceptBind_eq_ok.1 he
    obtain ⟨methods, hmethods, he⟩ := exceptBind_eq_ok.1 he
    cases he
    exact { h with methods := forall_mem_insert h.methods inserted hmethods }
  | fieldAccess key access =>
    obtain ⟨fields, hfields, he⟩ := exceptBind_eq_ok.1 he
    cases he
    have hkept := forall_mem_revise h.fields hfields fun e he => List.forall_mem_singleton.2 he
    exact { h with fields := hkept }
  | methodAccess | methodCode =>
    obtain ⟨methods, hmethods, he⟩ := exceptBind_eq_ok.1 he
    cases he
    have hkept := forall_mem_revise h.methods hmethods fun e he => List.forall_mem_singleton.2 he
    exact { h with methods := hkept }
  | removeField key =>
    obtain ⟨fields, hfields, he⟩ := exceptBind_eq_ok.1 he
    cases he
    exact { h with fields := forall_mem_revise h.fields hfields fun _ _ => List.forall_mem_nil _ }
  | removeMethod key =>
    obtain ⟨methods, hmethods, he⟩ := exceptBind_eq_ok.1 he
    cases he
    exact { h with
      methods := forall_mem_revise h.methods hmethods fun _ _ => List.forall_mem_nil _ }

theorem Grounded.foldlM {o o' : Outline} (h : o.Grounded) {edits : List Edit}
    (hedits : edits.foldlM Outline.apply o = .ok o') : o'.Grounded := by
  induction edits generalizing o with
  | nil =>
    cases hedits
    exact h
  | cons e edits ih =>
    obtain ⟨o1, he, hedits⟩ := exceptBind_eq_ok.1 hedits
    exact ih (h.apply he) hedits

end Outline

namespace Draft

theorem Begins.grounded {d : Draft} (h : d.Begins) : d.outline.Grounded := by
  obtain ⟨depth, hreadable⟩ := h.readable
  cases h with
  | new name => exact ⟨hreadable.supplies, List.forall_mem_nil _, List.forall_mem_nil _⟩
  | @ofClass bytes c _ hread hd =>
    obtain ⟨hf, hm, -, -, -, hbase, -⟩ := ofClass_eq_ok.1 hd
    have hsource : d.outline.source = importSource c := by
      rw [outline, Outline.source, hbase]
      rfl
    have keyed {ms : List Member} {ks : List MemberDraft} (h : ms.mapM (keep c) = .ok ks) :
        ∀ e ∈ ks.map MemberDraft.entry, e.IsKeyed d.outline.source.pool := by
      intro _ he
      obtain ⟨k, hk, rfl⟩ := List.mem_map.1 he
      obtain ⟨m, -, hkeep⟩ := exists_of_forall₂ (mapM_eq_ok_iff.1 h) k hk
      obtain ⟨key, hn, hd, rfl⟩ := keep_eq_ok.1 hkeep
      rintro _ ⟨⟩
      rw [hsource]
      exact ⟨hn, hd⟩
    exact ⟨hreadable.supplies, keyed hf, keyed hm⟩

end Draft

/-! ## Members as they are built -/

namespace Outline

/-- What an entry has from the base class. -/
def Entry.attributes (e : Entry) : List Attribute := (e.base.map (·.attributes)).getD []

/-- The name, the descriptor and the flags of a member. -/
structure Entry.Heads (p : Pool) (e : Entry) (m : Member) : Prop where
  name : p.text m.name = .ok e.key.name
  descriptor : p.text m.descriptor = .ok e.key.descriptor
  access : m.access = e.access

/-- A field as its entry says: it has nothing but what it had. -/
structure Entry.IsField (S G : ImportSource) (e : Entry) (m : Member) : Prop where
  heads : e.Heads G.pool m
  attributes : Attribute.AllCopied S G none e.attributes m.attributes

/-- A method as its entry says: the code it was given, or else the code it had, and beside the code
what it had. -/
structure Entry.IsMethod (S G : ImportSource) (e : Entry) (m : Member) : Prop where
  heads : e.Heads G.pool m
  body : match e.code with
    | some commands => ∃ body, Attribute.bodies m.attributes = [body] ∧
        body.EmittedFrom Symbol.IsValid G commands e.access e.key.descriptor
    | none => List.Forall₂ (CodeBody.Copied S G) (Attribute.bodies e.attributes)
        (Attribute.bodies m.attributes)
  others : Attribute.AllCopied S G none (Attribute.others e.attributes)
    (Attribute.others m.attributes)

/-- The fields and methods of a class are those of the outline, in its order. -/
structure Describes (o : Outline) (r : ClassFile) : Prop where
  fields : List.Forall₂ (Entry.IsField o.source (Draft.importSource r)) o.fields r.fields
  methods : List.Forall₂ (Entry.IsMethod o.source (Draft.importSource r)) o.methods r.methods

end Outline

namespace Draft

section Members

variable {S : ImportSource} (hS : S.Supplies Symbol.IsValid)

/-- A copy has the name and the descriptor of the member, which are its key. -/
theorem heads_of_copied {G : ImportSource} {m m' : Member} {key : MemberKey}
    {access : Option Access} {code : Option (List Command)}
    (hkey : (MemberDraft.kept m key access code).entry.IsKeyed S.pool) (h : m.Copied S G m')
    (ha : m'.access = access.getD m.access) :
    (MemberDraft.kept m key access code).entry.Heads G.pool m' := by
  obtain ⟨hn, hd⟩ := hkey m rfl
  exact ⟨Pool.text_eq_ok.2 (h.name.text (Pool.text_eq_ok.1 hn)),
    Pool.text_eq_ok.2 (h.descriptor.text (Pool.text_eq_ok.1 hd)), ha⟩

theorem heads_of_denotes {G : ImportSource} {m : Member} {e : Entry}
    (hn : G.Denotes m.name (.text e.key.name))
    (hd : G.Denotes m.descriptor (.text e.key.descriptor)) (ha : m.access = e.access) :
    e.Heads G.pool m :=
  ⟨Pool.text_eq_ok.2 (ImportSource.denotes_text_iff.1 hn),
    Pool.text_eq_ok.2 (ImportSource.denotes_text_iff.1 hd), ha⟩

theorem settles_no_attributes :
    Settles Symbol.IsValid (pure []) fun _ _ (as : List Attribute) _ => as = [] :=
  (settles_pure []).mono fun _ _ _ _ h => h.1

include hS

theorem isField_buildField {k : MemberDraft} (hk : k.entry.IsKeyed S.pool) :
    Settles Symbol.IsValid (buildField S k) fun G _ m _ => k.entry.IsField S G m := by
  cases k with
  | kept m key access code =>
    refine (settles_copyMember hS m (access.getD m.access)).mono ?_
    rintro G g m' g' ⟨ha, hcopied, -⟩
    exact ⟨heads_of_copied hk hcopied ha, hcopied.attributes⟩
  | added key access code =>
    refine (settles_member Symbol.named_isValid access key settles_no_attributes).mono ?_
    rintro G g m g' ⟨ha, hn, hd, has⟩
    refine ⟨heads_of_denotes hn hd ha, ?_⟩
    rw [has]
    exact .nil

theorem isMethod_buildMethod {k : MemberDraft} (hk : k.entry.IsKeyed S.pool) :
    Settles Symbol.IsValid (buildMethod S k) fun G _ m _ => k.entry.IsMethod S G m := by
  have hP := Symbol.named_isValid
  unfold buildMethod
  refine Settles.record ?_ _
  cases k with
  | kept m key access code =>
    cases code with
    | none =>
      refine (settles_copyMember hS m (access.getD m.access)).mono ?_
      rintro G g m' g' ⟨ha, hcopied, -⟩
      exact ⟨heads_of_copied hk hcopied ha, hcopied.attributes.bodies, hcopied.attributes.others⟩
    | some code =>
      have hemitted := settles_emitCode hP (access.getD m.access) key.descriptor code
      refine (settles_member hP _ key (settles_replaceCode hS hemitted m.attributes)).mono ?_
      rintro G g m' g' ⟨ha, hn, hd, _, ⟨name, body, rfl, -, hemit⟩, hreplaced⟩
      exact ⟨heads_of_denotes hn hd ha, ⟨body, hreplaced.bodies rfl, hemit⟩, hreplaced.others rfl⟩
  | added key access code =>
    cases code with
    | none =>
      refine (settles_member hP access key settles_no_attributes).mono ?_
      rintro G g m g' ⟨ha, hn, hd, has⟩
      refine ⟨heads_of_denotes hn hd ha, ?_, ?_⟩
      · rw [has]
        exact .nil
      · rw [has]
        exact .nil
    | some code =>
      -- There are no old attributes, so that the code stands alone.
      have hemitted : Settles Symbol.IsValid (do return [← emitCode access key.descriptor code])
          fun G _ as _ => ∃ a, a.EmittedFrom Symbol.IsValid G code access key.descriptor ∧
            Attribute.Replaced S G [] [a] as := by
        refine ((settles_emitCode hP access key.descriptor code).bind fun a =>
          settles_pure [a]).mono ?_
        rintro G g _ _ ⟨a, _, ha, rfl, -⟩
        exact ⟨a, ha, [], [], rfl, .nil⟩
      have hmember := settles_member hP access key hemitted
      simp only [bind_assoc, pure_bind] at hmember
      refine hmember.mono ?_
      rintro G g m g' ⟨ha, hn, hd, _, ⟨name, body, rfl, -, hemit⟩, hreplaced⟩
      exact ⟨heads_of_denotes hn hd ha, ⟨body, hreplaced.bodies rfl, hemit⟩, hreplaced.others rfl⟩

end Members

theorem build_of_failure {d : Draft} {e : Error} (h : d.failure = some e) : d.build = .error e := by
  rw [build, buildLogged, h]

/-- What is built from a draft is what its outline says. -/
theorem describes_of_build {d : Draft} (h : d.outline.Grounded) {r : ClassFile}
    (hr : d.build = .ok r) : d.outline.Describes r := by
  have hP := Symbol.named_isValid
  have hfields : Settles Symbol.IsValid (d.fields.mapM (buildField d.baseSource)) fun G _ ms _ =>
      List.Forall₂ (fun k m => k.entry.IsField d.baseSource G m) d.fields ms :=
    Settles.forall₂ fun k hk => isField_buildField h.supplies (h.fields _ (List.mem_map_of_mem hk))
  have hmethods : Settles Symbol.IsValid (d.methods.mapM (buildMethod d.baseSource))
      fun G _ ms _ => List.Forall₂ (fun k m => k.entry.IsMethod d.baseSource G m) d.methods ms :=
    Settles.forall₂ fun k hk =>
      isMethod_buildMethod h.supplies (h.methods _ (List.mem_map_of_mem hk))
  obtain ⟨g, -, -, -, hf, hm⟩ :=
    build_settled hP h.supplies (settles_tables hP h.supplies hfields hmethods) hr
  exact ⟨List.forall₂_map_left_iff.2 hf, List.forall₂_map_left_iff.2 hm⟩

/-- A script means what it says. If an edit is rejected, the build fails with the error of the
first such edit; otherwise no edit failed, and the members of a class that is built are those of
the outline that the script comes to. -/
theorem build_of_script {d : Draft} (hd : d.Begins) (edits : List Edit) :
    match Outline.ofScript d.base edits with
    | .error e => (d.applyAll edits).build = .error e
    | .ok o => (d.applyAll edits).failure = none ∧
        ∀ r, (d.applyAll edits).build = .ok r → o.Describes r := by
  have houtcome := hd.outcome_applyAll edits
  cases hscript : Outline.ofScript d.base edits with
  | error e => exact build_of_failure (outcome_eq_error.1 (houtcome.trans hscript))
  | ok o =>
    obtain ⟨hfailure, rfl⟩ := outcome_eq_ok.1 (houtcome.trans hscript)
    refine ⟨hfailure, fun r hr => describes_of_build ?_ hr⟩
    rw [Outline.ofScript, ← hd.outcome_eq] at hscript
    obtain ⟨o, ho, hedits⟩ := exceptBind_eq_ok.1 hscript
    obtain ⟨-, rfl⟩ := outcome_eq_ok.1 ho
    exact hd.grounded.foldlM hedits

/-! ## A script with its outline -/

/-- A field that does not stay, and a method that is given its code and its flags later. -/
def roundabout : List Edit :=
  [.field ⟨1⟩ ⟨"f", "I"⟩, .method ⟨0x400⟩ ⟨"n", "(I)I"⟩ none,
    .methodCode ⟨"n", "(I)I"⟩ [.op .iload0, .op .ireturn], .removeField ⟨"f", "I"⟩,
    .methodAccess ⟨"n", "(I)I"⟩ ⟨9⟩]

/-- The outline it comes to: the old method, and the new one. -/
def extendedOutline : Outline :=
  ⟨some loadClass, [],
    [⟨⟨"m", "()V"⟩, ⟨9⟩, some (loading 4 5 6 (.constant .ldc 1)), none⟩,
      ⟨⟨"n", "(I)I"⟩, ⟨9⟩, none, some [.op .iload0, .op .ireturn]⟩]⟩

/-- The method is removed before its flags are changed; what else is wrong comes too late. -/
def untimely : List Edit :=
  [.removeMethod ⟨"m", "()V"⟩, .methodAccess ⟨"m", "()V"⟩ ⟨1⟩, .field ⟨1⟩ ⟨"f", "?"⟩]

theorem build_of_script_extended :
    (loadDraft []).Begins ∧ ((loadDraft []).applyAll roundabout).build = .ok extended ∧
      extendedOutline.Describes extended ∧
      ((loadDraft []).applyAll untimely).build = .error (.memberNotFound "m" "()V") := by
  have hbegins : (loadDraft []).Begins := .ofClass read_withLoad ofClass_loadClass
  have hscript : Outline.ofScript (loadDraft []).base roundabout = .ok extendedOutline := by cbv
  have huntimely : Outline.ofScript (loadDraft []).base untimely =
      .error (.memberNotFound "m" "()V") := by cbv
  have hsame : (loadDraft []).applyAll roundabout = (loadDraft []).applyAll newMethod := by cbv
  have hbuild := hsame ▸ build_extended
  have hdescribed := build_of_script hbegins roundabout
  have hrejected := build_of_script hbegins untimely
  rw [hscript] at hdescribed
  rw [huntimely] at hrejected
  exact ⟨hbegins, hbuild, hdescribed.2 extended hbuild, hrejected⟩

end Draft

end JvmClass
