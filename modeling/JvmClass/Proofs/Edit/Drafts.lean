import JvmClass.Edit
import JvmClass.Proofs.Codec.Reads

/-!
# Where the members of a draft come from

An edit script adds members to a draft, removes some, and changes flags and code. Members of the
base class that are still there stand in their old order, under their own names and descriptors;
what is new about them was asked for by an edit of the script.
-/

namespace JvmClass

namespace MemberDraft

/-- The member of the base class. -/
def base? : MemberDraft → Option Member
  | kept m .. => some m
  | added .. => none

/-- Whether a member is copied from the base class, without new code. -/
def IsCopy (d : MemberDraft) : Prop := ∃ m key access, d = .kept m key access none

/-- A member of the base class has the key that its texts make, and new flags and new code only as
`flagged` and `recoded` say. -/
def Follows (c : ClassFile) (flagged : MemberKey → Access → Prop)
    (recoded : MemberKey → List Command → Prop) : MemberDraft → Prop
  | kept m key access code =>
    c.memberName m = .ok key.name ∧ c.memberDescriptor m = .ok key.descriptor ∧
      (∀ a, access = some a → flagged key a) ∧ ∀ body, code = some body → recoded key body
  | added .. => True

end MemberDraft

/-- Members of a draft as they come from those of the class `c`. -/
structure MembersFollow (c : ClassFile) (base : List Member)
    (flagged : MemberKey → Access → Prop) (recoded : MemberKey → List Command → Prop)
    (members : List MemberDraft) : Prop where
  bases : (members.filterMap MemberDraft.base?).Sublist base
  each : ∀ m ∈ members, m.Follows c flagged recoded

namespace MembersFollow

variable {c : ClassFile} {base : List Member} {flagged flagged' : MemberKey → Access → Prop}
  {recoded recoded' : MemberKey → List Command → Prop} {members : List MemberDraft}

theorem mono (h : MembersFollow c base flagged recoded members)
    (hf : ∀ k a, flagged k a → flagged' k a) (hr : ∀ k b, recoded k b → recoded' k b) :
    MembersFollow c base flagged' recoded' members := by
  refine ⟨h.bases, fun m hm => ?_⟩
  have hfollows := h.each m hm
  cases m with
  | kept m key access code =>
    obtain ⟨hn, hd, ha, hc⟩ := hfollows
    exact ⟨hn, hd, fun a e => hf key a (ha a e), fun b e => hr key b (hc b e)⟩
  | added => trivial

theorem insert (h : MembersFollow c base flagged recoded members) (key : MemberKey)
    (access : Access) (code : Option (List Command)) :
    MembersFollow c base flagged recoded (members ++ [.added key access code]) := by
  refine ⟨?_, fun m hm => ?_⟩
  · rw [List.filterMap_append]
    exact (List.append_nil _).symm ▸ h.bases
  · rcases List.mem_append.1 hm with hm | hm
    · exact h.each m hm
    · rw [List.mem_singleton.1 hm]
      trivial

theorem erase (h : MembersFollow c base flagged recoded members) (i : Nat) :
    MembersFollow c base flagged recoded (members.eraseIdx i) :=
  ⟨((List.eraseIdx_sublist members i).filterMap _).trans h.bases,
    fun m hm => h.each m ((List.eraseIdx_sublist members i).mem hm)⟩

theorem filterMap_base?_modify {change : MemberDraft → MemberDraft}
    (hc : ∀ m, (change m).base? = m.base?) (members : List MemberDraft) (i : Nat) :
    (members.modify i change).filterMap MemberDraft.base? =
      members.filterMap MemberDraft.base? := by
  induction members generalizing i with
  | nil => simp
  | cons m rest ih =>
    cases i with
    | zero => simp [List.filterMap_cons, hc]
    | succ i => simp [List.filterMap_cons, ih]

theorem modify (h : MembersFollow c base flagged recoded members) {key : MemberKey} {i : Nat}
    (hi : Draft.find? members key = some i) {change : MemberDraft → MemberDraft}
    (hbase : ∀ m, (change m).base? = m.base?)
    (hchange : ∀ m, m.key = key → m.Follows c flagged recoded →
      (change m).Follows c flagged recoded) :
    MembersFollow c base flagged recoded (members.modify i change) := by
  refine ⟨by rw [filterMap_base?_modify hbase]; exact h.bases, fun m hm => ?_⟩
  obtain ⟨j, hj⟩ := List.mem_iff_getElem?.1 hm
  rw [List.getElem?_modify] at hj
  obtain ⟨m', hm', rfl⟩ := Option.map_eq_some_iff.1 hj
  have hfollows := h.each m' (List.mem_of_getElem? hm')
  split
  · rename_i e
    subst e
    obtain ⟨hlt, hkey, -⟩ := List.findIdx?_eq_some_iff_getElem.1 hi
    obtain ⟨_, rfl⟩ := List.getElem?_eq_some_iff.1 hm'
    exact hchange _ (by simpa using hkey) hfollows
  · exact hfollows

theorem flag (h : MembersFollow c base flagged recoded members) {key : MemberKey} {i : Nat}
    (hi : Draft.find? members key = some i) {access : Access} (ha : flagged key access) :
    MembersFollow c base flagged recoded (members.modify i (.withAccess access)) := by
  refine h.modify hi (fun m => by cases m <;> rfl) fun m hk hm => ?_
  cases m with
  | kept m k a code =>
    cases hk
    exact ⟨hm.1, hm.2.1, fun b e => by cases e; exact ha, hm.2.2.2⟩
  | added => trivial

theorem recode (h : MembersFollow c base flagged recoded members) {key : MemberKey} {i : Nat}
    (hi : Draft.find? members key = some i) {code : List Command} (hc : recoded key code) :
    MembersFollow c base flagged recoded (members.modify i (.withCode code)) := by
  refine h.modify hi (fun m => by cases m <;> rfl) fun m hk hm => ?_
  cases m with
  | kept m k a code =>
    cases hk
    exact ⟨hm.1, hm.2.1, hm.2.2.1, fun b e => by cases e; exact hc⟩
  | added => trivial

end MembersFollow

/-! ## Drafts -/

namespace Draft

/-- A draft of the class `c` after the edits `edits`. Fields have no code. -/
structure Follows (c : ClassFile) (edits : List Edit) (d : Draft) : Prop where
  base : d.base = some c
  fields : MembersFollow c c.fields (fun k a => .fieldAccess k a ∈ edits) (fun _ _ => False)
    d.fields
  methods : MembersFollow c c.methods (fun k a => .methodAccess k a ∈ edits)
    (fun k b => .methodCode k b ∈ edits) d.methods

variable {c : ClassFile} {edits : List Edit} {d : Draft}

theorem Follows.mono (h : d.Follows c edits) (e : Edit) : d.Follows c (edits ++ [e]) :=
  ⟨h.base, h.fields.mono (fun _ _ => List.mem_append_left [e]) (fun _ _ => id),
    h.methods.mono (fun _ _ => List.mem_append_left [e]) (fun _ _ => List.mem_append_left [e])⟩

theorem Follows.fail (h : d.Follows c edits) (e : Error) : (d.fail e).Follows c edits :=
  ⟨h.base, h.fields, h.methods⟩

theorem Follows.check {α : Type} (h : d.Follows c edits) (x : Except Error α) :
    (d.check x).Follows c edits := by
  cases x with
  | ok => exact h
  | error e => exact h.fail e

theorem Follows.insertField (h : d.Follows c edits) (access : Access) (key : MemberKey) :
    (d.insertField access key).Follows c edits := by
  unfold Draft.insertField
  split
  · exact h.fail _
  · exact ⟨h.base, h.fields.insert key access none, h.methods⟩

theorem Follows.insertMethod (h : d.Follows c edits) (access : Access) (key : MemberKey)
    (code : Option (List Command)) : (d.insertMethod access key code).Follows c edits := by
  unfold Draft.insertMethod
  split
  · exact h.fail _
  · exact ⟨h.base, h.fields, h.methods.insert key access code⟩

/-- One edit. -/
theorem Follows.apply (h : d.Follows c edits) (e : Edit) :
    (d.apply e).Follows c (edits ++ [e]) := by
  have h := h.mono e
  have hasked : e ∈ edits ++ [e] := List.mem_append_right _ (List.mem_singleton.2 rfl)
  cases e with
  | access | superClass | interfaces | version => exact ⟨h.base, h.fields, h.methods⟩
  | field access key => exact (h.check _).insertField access key
  | method access key code => exact (h.check _).insertMethod access key code
  | methodAccess key access =>
    rw [Draft.apply, changeMethod]
    split
    · rename_i i hi
      exact ⟨h.base, h.fields, h.methods.flag hi hasked⟩
    · exact h.fail _
  | fieldAccess key access =>
    rw [Draft.apply, changeField]
    split
    · rename_i i hi
      exact ⟨h.base, h.fields.flag hi hasked, h.methods⟩
    · exact h.fail _
  | methodCode key code =>
    rw [Draft.apply, changeMethod]
    split
    · rename_i i hi
      exact ⟨h.base, h.fields, h.methods.recode hi hasked⟩
    · exact h.fail _
  | removeMethod key =>
    rw [Draft.apply]
    split
    · rename_i i hi
      exact ⟨h.base, h.fields, h.methods.erase i⟩
    · exact h.fail _
  | removeField key =>
    rw [Draft.apply]
    split
    · rename_i i hi
      exact ⟨h.base, h.fields.erase i, h.methods⟩
    · exact h.fail _

/-- A whole script. -/
theorem Follows.applyAll {done : List Edit} (h : d.Follows c done) (edits : List Edit) :
    (d.applyAll edits).Follows c (done ++ edits) := by
  induction edits generalizing d done with
  | nil => exact (List.append_nil done).symm ▸ h
  | cons e rest ih =>
    have hrest := ih (h.apply e)
    rw [List.append_assoc, List.singleton_append] at hrest
    exact hrest

/-! ## Drafts of a class as it is -/

theorem keep_eq_ok {m : Member} {k : MemberDraft} :
    keep c m = .ok k ↔ ∃ key : MemberKey, c.memberName m = .ok key.name ∧
      c.memberDescriptor m = .ok key.descriptor ∧ k = .kept m key none none := by
  unfold keep
  simp only [exceptBind_eq_ok]
  constructor
  · rintro ⟨name, hn, descriptor, hd, e⟩
    cases e
    exact ⟨⟨name, descriptor⟩, hn, hd, rfl⟩
  · rintro ⟨key, hn, hd, rfl⟩
    exact ⟨_, hn, _, hd, rfl⟩

theorem membersFollow_of_keep {ms : List Member} {ks : List MemberDraft}
    {flagged : MemberKey → Access → Prop} {recoded : MemberKey → List Command → Prop}
    (h : ms.mapM (keep c) = .ok ks) : MembersFollow c ms flagged recoded ks := by
  induction mapM_eq_ok_iff.1 h with
  | nil => exact ⟨List.Sublist.refl _, by simp⟩
  | @cons m k ms ks hk hks follow =>
    have follow := follow (mapM_eq_ok_iff.2 hks)
    obtain ⟨key, hn, hd, rfl⟩ := keep_eq_ok.1 hk
    refine ⟨List.Sublist.cons_cons m follow.bases, fun k hm => ?_⟩
    rcases List.mem_cons.1 hm with rfl | hm
    · exact ⟨hn, hd, nofun, nofun⟩
    · exact follow.each k hm

theorem ofClass_eq_ok {d : Draft} :
    ofClass c = .ok d ↔ c.fields.mapM (keep c) = .ok d.fields ∧
      c.methods.mapM (keep c) = .ok d.methods ∧ c.className = .ok d.thisClass ∧
      c.superName? = .ok d.superClass ∧ c.interfaceNames = .ok d.interfaces ∧
      d.base = some c ∧ d.major = c.major ∧ d.minor = c.minor ∧ d.access = c.access ∧
      d.failure = none := by
  unfold ofClass
  simp only [exceptBind_eq_ok]
  constructor
  · rintro ⟨_, hf, _, hm, _, ht, _, hs, _, hi, e⟩
    cases e
    exact ⟨hf, hm, ht, hs, hi, rfl, rfl, rfl, rfl, rfl⟩
  · obtain ⟨base, thisClass, major, minor, access, superClass, interfaces, fields, methods,
      failure⟩ := d
    rintro ⟨hf, hm, ht, hs, hi, rfl, rfl, rfl, rfl, rfl⟩
    exact ⟨_, hf, _, hm, _, ht, _, hs, _, hi, rfl⟩

theorem follows_ofClass (h : ofClass c = .ok d) : d.Follows c [] := by
  obtain ⟨hf, hm, -, -, -, hb, -⟩ := ofClass_eq_ok.1 h
  exact ⟨hb, membersFollow_of_keep hf, membersFollow_of_keep hm⟩

end Draft

end JvmClass
