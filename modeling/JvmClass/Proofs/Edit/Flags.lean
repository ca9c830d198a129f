import JvmClass.Proofs.Edit.Drafts
import Mathlib.Data.List.Forall2

/-!
# Scripts that change flags only

Such a script leaves every member a copy of what it was, and the header of the draft as it was but
for the flags (`Reflags`). What it does depends on the keys of the members alone, so on two drafts
with the same keys it does the same (`Alongside`).
-/

namespace JvmClass

/-- Edits of the flags of a class, a field or a method. -/
def Edit.isFlag : Edit → Bool
  | access _ | methodAccess .. | fieldAccess .. => true
  | _ => false

namespace MemberDraft

/-- The draft of a member under its own name and descriptor, with nothing new but flags. -/
def Reflags (c : ClassFile) (m : Member) (k : MemberDraft) : Prop :=
  ∃ key access, c.memberName m = .ok key.name ∧ c.memberDescriptor m = .ok key.descriptor ∧
    k = .kept m key access none

theorem Reflags.withAccess {c : ClassFile} {m : Member} {k : MemberDraft} (h : Reflags c m k)
    (access : Access) : Reflags c m (k.withAccess access) := by
  obtain ⟨key, a, hn, hd, rfl⟩ := h
  exact ⟨key, some access, hn, hd, rfl⟩

/-- Copies of two members, under one key and with the same new flags. -/
def Alongside (k k' : MemberDraft) : Prop :=
  ∃ m m' key access, k = .kept m key access none ∧ k' = .kept m' key access none

theorem Alongside.withAccess {k k' : MemberDraft} (h : Alongside k k') (access : Access) :
    Alongside (k.withAccess access) (k'.withAccess access) := by
  obtain ⟨m, m', key, a, rfl, rfl⟩ := h
  exact ⟨m, m', key, some access, rfl, rfl⟩

end MemberDraft

theorem forall₂_modify {α β : Type} {R : α → β → Prop} {as : List α} {bs : List β}
    (h : List.Forall₂ R as bs) {f : α → α} {f' : β → β} (hf : ∀ a b, R a b → R (f a) (f' b))
    (i : Nat) : List.Forall₂ R (as.modify i f) (bs.modify i f') := by
  induction h generalizing i with
  | nil =>
    rw [List.modify_nil, List.modify_nil]
    exact .nil
  | cons hab hrest ih =>
    cases i with
    | zero => exact .cons (hf _ _ hab) hrest
    | succ i => exact .cons hab (ih i)

theorem forall₂_modify_right {α β : Type} {R : α → β → Prop} {as : List α} {bs : List β}
    (h : List.Forall₂ R as bs) {f : β → β} (hf : ∀ a b, R a b → R a (f b)) (i : Nat) :
    List.Forall₂ R as (bs.modify i f) := by
  have hmodify := forall₂_modify h (f := id) hf i
  rwa [List.modify_id] at hmodify

namespace Draft

/-! ## One draft -/

/-- A draft of the class `c` with nothing new but flags. -/
structure Reflags (c : ClassFile) (x : Draft) : Prop where
  base : x.base = some c
  thisClass : c.className = .ok x.thisClass
  superClass : c.superName? = .ok x.superClass
  interfaces : c.interfaceNames = .ok x.interfaces
  major : x.major = c.major
  minor : x.minor = c.minor
  fields : List.Forall₂ (MemberDraft.Reflags c) c.fields x.fields
  methods : List.Forall₂ (MemberDraft.Reflags c) c.methods x.methods

theorem reflags_ofClass {c : ClassFile} {d : Draft} (h : ofClass c = .ok d) : d.Reflags c := by
  have members {ms : List Member} {ks : List MemberDraft} (h : ms.mapM (keep c) = .ok ks) :
      List.Forall₂ (MemberDraft.Reflags c) ms ks := by
    refine (mapM_eq_ok_iff.1 h).imp fun m k hk => ?_
    obtain ⟨key, hn, hd, rfl⟩ := keep_eq_ok.1 hk
    exact ⟨key, none, hn, hd, rfl⟩
  obtain ⟨hf, hm, ht, hs, hi, hb, hmajor, hminor, -⟩ := ofClass_eq_ok.1 h
  exact ⟨hb, ht, hs, hi, hmajor, hminor, members hf, members hm⟩

theorem Reflags.apply {c : ClassFile} {x : Draft} (h : x.Reflags c) {e : Edit}
    (he : e.isFlag = true) : (x.apply e).Reflags c := by
  cases e with
  | access a => exact { h with }
  | methodAccess key a =>
    rw [Draft.apply, changeMethod]
    split
    · rename_i i _
      exact { h with methods := forall₂_modify_right h.methods (fun _ _ hk => hk.withAccess a) i }
    · exact { h with }
  | fieldAccess key a =>
    rw [Draft.apply, changeField]
    split
    · rename_i i _
      exact { h with fields := forall₂_modify_right h.fields (fun _ _ hk => hk.withAccess a) i }
    · exact { h with }
  | _ => cases he

theorem Reflags.applyAll {c : ClassFile} {x : Draft} (h : x.Reflags c) {edits : List Edit}
    (hedits : ∀ e ∈ edits, e.isFlag = true) : (x.applyAll edits).Reflags c := by
  induction edits generalizing x with
  | nil => exact h
  | cons e edits ih =>
    obtain ⟨he, hrest⟩ := List.forall_mem_cons.1 hedits
    exact ih (h.apply he) hrest

/-! ## The flags of the class -/

/-- The flags that edits leave of those of the class. -/
def accessAfter (a : Access) (edits : List Edit) : Access :=
  edits.foldl (fun a e => match e with | .access b => b | _ => a) a

theorem access_applyAll (d : Draft) (edits : List Edit) :
    (d.applyAll edits).access = accessAfter d.access edits := by
  have one (d : Draft) (e : Edit) :
      (d.apply e).access = match e with | .access b => b | _ => d.access := by
    cases e with
    | access | superClass | interfaces | version => rfl
    | field access key =>
      rw [apply, insertField]
      split <;> cases FieldType.parse key.descriptor <;> rfl
    | method access key code =>
      rw [apply, insertMethod]
      split <;> cases MethodType.parse key.descriptor <;> rfl
    | methodAccess | methodCode =>
      rw [apply, changeMethod]
      split <;> rfl
    | fieldAccess =>
      rw [apply, changeField]
      split <;> rfl
    | removeMethod | removeField =>
      rw [apply]
      split <;> rfl
  induction edits generalizing d with
  | nil => rfl
  | cons e edits ih =>
    rw [accessAfter, List.foldl_cons, ← one]
    exact ih (d.apply e)

/-- Either some edit sets the flags, or none does. -/
theorem accessAfter_cases (edits : List Edit) :
    (∀ a b, accessAfter a edits = accessAfter b edits) ∨ ∀ a, accessAfter a edits = a := by
  induction edits with
  | nil => exact .inr fun _ => rfl
  | cons e edits ih =>
    cases e with
    | access b => exact .inl fun _ _ => rfl
    | _ => exact ih

theorem accessAfter_accessAfter (a : Access) (edits : List Edit) :
    accessAfter (accessAfter a edits) edits = accessAfter a edits := by
  rcases accessAfter_cases edits with h | h
  · exact h _ _
  · rw [h, h]

/-! ## Two drafts -/

/-- Drafts with the same keys, on which the same was done. -/
structure Alongside (x y : Draft) : Prop where
  fields : List.Forall₂ MemberDraft.Alongside x.fields y.fields
  methods : List.Forall₂ MemberDraft.Alongside x.methods y.methods
  failure : x.failure = y.failure

theorem find?_alongside {ks ks' : List MemberDraft}
    (h : List.Forall₂ MemberDraft.Alongside ks ks') (key : MemberKey) :
    find? ks key = find? ks' key := by
  unfold find?
  induction h with
  | nil => rfl
  | cons hk _ ih =>
    obtain ⟨m, m', k, access, rfl, rfl⟩ := hk
    rw [List.findIdx?_cons, List.findIdx?_cons, ih]
    rfl

theorem Alongside.apply {x y : Draft} (h : x.Alongside y) {e : Edit} (he : e.isFlag = true) :
    (x.apply e).Alongside (y.apply e) := by
  cases e with
  | access a => exact ⟨h.fields, h.methods, h.failure⟩
  | methodAccess key a =>
    rw [Draft.apply, Draft.apply, changeMethod, changeMethod, ← find?_alongside h.methods]
    split
    · rename_i i _
      exact ⟨h.fields, forall₂_modify h.methods (fun _ _ hk => hk.withAccess a) i, h.failure⟩
    · exact ⟨h.fields, h.methods, by rw [fail, fail, h.failure]⟩
  | fieldAccess key a =>
    rw [Draft.apply, Draft.apply, changeField, changeField, ← find?_alongside h.fields]
    split
    · rename_i i _
      exact ⟨forall₂_modify h.fields (fun _ _ hk => hk.withAccess a) i, h.methods, h.failure⟩
    · exact ⟨h.fields, h.methods, by rw [fail, fail, h.failure]⟩
  | _ => cases he

theorem Alongside.applyAll {x y : Draft} (h : x.Alongside y) {edits : List Edit}
    (hedits : ∀ e ∈ edits, e.isFlag = true) : (x.applyAll edits).Alongside (y.applyAll edits) := by
  induction edits generalizing x y with
  | nil => exact h
  | cons e edits ih =>
    obtain ⟨he, hrest⟩ := List.forall_mem_cons.1 hedits
    exact ih (h.apply he) hrest

end Draft

end JvmClass
