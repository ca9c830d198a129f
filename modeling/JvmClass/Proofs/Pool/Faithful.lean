import JvmClass.Proofs.Pool.Consistent
import JvmClass.Proofs.Pool.Validity

/-!
# Imports from any pool

A text may be kept by its code units although it has no need to, in a pool that no reader made.
Entries are still found by their binary forms, so an import may be answered by an entry that keeps
the same text in the other way. Up to that (`Constant.spelled`), an imported entry stands for what
it stood for in its own pool, however broken the two pools are. An entry that reaches itself stands
for nothing, and so cannot be imported.
-/

namespace JvmClass

/-! ## Texts by their code units -/

namespace Constant

/-- The entry with its text by code units. -/
def spelled : Constant → Constant
  | utf8 s => utf8Unpaired (Text.units s)
  | c => c

theorem head_spelled (c : Constant) : c.spelled.head = c.head.spelled := by
  cases c <;> rfl

theorem references_spelled (c : Constant) : c.spelled.references = c.references := by
  cases c <;> rfl

theorem bootstrap?_spelled (c : Constant) : c.spelled.bootstrap? = c.bootstrap? := by
  cases c <;> rfl

theorem isUnusable_spelled (c : Constant) : c.spelled.isUnusable = c.isUnusable := by
  cases c <;> rfl

/-- Every entry has a form in which it can be read back. -/
theorem exists_isReadable {c : Constant} (hu : c.isUnusable = false) :
    ∃ d : Constant, d.IsReadable ∧ d.encode = c.encode ∧ d.spelled = c.spelled := by
  cases c with
  | unusable => cases hu
  | utf8Unpaired us =>
    cases h : Text.ofUnits? us with
    | none => exact ⟨utf8Unpaired us, h, rfl, rfl⟩
    | some s =>
      rw [Text.units_of_ofUnits? h]
      exact ⟨utf8 s, trivial, rfl, rfl⟩
  | _ =>
    refine ⟨_, ?_, rfl, rfl⟩
    trivial

/-- Entries of one binary form differ in the form of their text only. -/
theorem spelled_eq_of_encode_eq {c d : Constant} {key : Bytes} (hc : c.isUnusable = false)
    (hd : d.isUnusable = false) (ec : c.encode = .ok key) (ed : d.encode = .ok key) :
    c.spelled = d.spelled := by
  obtain ⟨c', hcr, hce, hcs⟩ := exists_isReadable hc
  obtain ⟨d', hdr, hde, hds⟩ := exists_isReadable hd
  rw [← hcs, ← hds, eq_of_encode_eq hcr hdr (hce.trans ec) (hde.trans ed)]

end Constant

namespace ImportSource

/-- The pool with all texts by their code units. -/
def spelled (S : ImportSource) : ImportSource :=
  ⟨⟨S.pool.slots.map Constant.spelled⟩, S.bootstrap⟩

variable {S G : ImportSource}

theorem spelled_mono (h : S ≤ G) : S.spelled ≤ G.spelled := by
  refine ⟨?_, h.2⟩
  simpa [spelled] using h.1.map Constant.spelled

theorem get?_spelled {i : UInt16} {c : Constant} (h : S.pool.get? i = some c) :
    S.spelled.pool.get? i = some c.spelled := by
  obtain ⟨hi, hc⟩ := Pool.get?_eq_some_iff.1 h
  refine Pool.get?_eq_some_iff.2 ⟨hi, ?_⟩
  simpa [spelled] using ⟨c, by simpa using hc, rfl⟩

end ImportSource

/-- The entries at `i` in one pool and at `j` in another stand for the same, with texts by their
code units. -/
def SameSpelling (S : ImportSource) (i : UInt16) (G : ImportSource) (j : UInt16) : Prop :=
  SameSymbol S.spelled i G.spelled j

theorem Constant.Mirrors.spelled {S G : ImportSource} {T : UInt16 → UInt16 → Prop}
    {c d : Constant} (h : c.Mirrors S T G d) :
    c.spelled.Mirrors S.spelled T G.spelled d.spelled where
  head := by rw [head_spelled, head_spelled, h.head]
  references := by
    rw [references_spelled, references_spelled]
    exact h.references
  bootstrap := by
    rw [bootstrap?_spelled, bootstrap?_spelled]
    exact h.bootstrap

/-- An entry and a copy of it, in whatever form its text is found, have the same spelling. -/
theorem Constant.Mirrors.sameSpelling {S G H : ImportSource} {i j : UInt16} {c d e : Constant}
    (h : c.Mirrors S (fun i j => SameSpelling S i G j) G d) (hc : S.pool.get? i = some c)
    (hu : c.isUnusable = false) (hle : G ≤ H) (he : H.pool.get? j = some e)
    (hspelled : e.spelled = d.spelled) : SameSpelling S i H j := by
  obtain ⟨is, js, parts, his, hjs, hparts, hparts'⟩ := h.spelled.denotes
  have hle' := ImportSource.spelled_mono hle
  refine ⟨.node c.spelled.head parts, ?_, ?_⟩
  · exact ImportSource.denotes_iff.2 ⟨_, is, parts, ImportSource.get?_spelled hc,
      by rw [isUnusable_spelled, hu], his, hparts, rfl⟩
  · have hu' : e.spelled.isUnusable = false := by
      rw [hspelled, ← isUnusable_head, h.spelled.head, isUnusable_head, isUnusable_spelled, hu]
    refine ImportSource.denotes_iff.2 ⟨_, js, parts, ImportSource.get?_spelled he, hu', ?_, ?_, ?_⟩
    · rw [hspelled]
      exact ImportSource.references?_mono hle' hjs
    · exact hparts'.imp fun k t ht => ht.mono hle'
    · rw [hspelled, h.spelled.head]

/-- Whatever is imported into a consistent pool has the same spelling there. -/
theorem copying_sameSpelling (S : ImportSource) :
    Copying S GrowingPool.Consistent (fun _ => True) fun G i j => SameSpelling S i G j where
  mono G H i j hle h := by
    obtain ⟨t, hi, hj⟩ := h
    exact ⟨t, hi, hj.mono (ImportSource.spelled_mono hle)⟩
  entry i c d g hc hu hg hd := by
    have hdu : d.isUnusable = false := by
      rw [← d.isUnusable_head, hd.head, c.isUnusable_head, hu]
    refine ((Grow.repeatable_add hdu).runs g hg).mono fun j g' hrun hg' hle _ => ?_
    obtain ⟨e, he, heu, hee⟩ := Grow.add_found hg hdu hrun
    obtain ⟨key, hkey⟩ := hg'.encodes j e he heu
    have hspelled := Constant.spelled_eq_of_encode_eq heu hdu hkey (hee ▸ hkey)
    exact hd.sameSpelling hc hu hle he hspelled
  method m b b' g _ hg _ _ :=
    ((Grow.repeatable_bootstrapMethod b').runs g hg).mono fun _ _ hrun _ _ _ =>
      Grow.bootstrapMethod_found hg hrun
  malformed _ _ := trivial
  unexpected _ _ := trivial

theorem SameSpelling.exists_entry {S G : ImportSource} {i j : UInt16} (h : SameSpelling S i G j) :
    ∃ c, G.pool.get? j = some c ∧ c.isUnusable = false := by
  obtain ⟨t, -, ht⟩ := h
  obtain ⟨d, is, parts, hd, hu, -⟩ := ImportSource.denotes_iff.1 ht
  obtain ⟨hj, hd⟩ := Pool.get?_eq_some_iff.1 hd
  have hmap : (G.pool.slots.toList.map Constant.spelled)[j.toNat - 1]? = some d := by
    simpa [ImportSource.spelled] using hd
  rw [List.getElem?_map] at hmap
  obtain ⟨c, hc, rfl⟩ := Option.map_eq_some_iff.1 hmap
  exact ⟨c, Pool.get?_eq_some_iff.2 ⟨hj, hc⟩, by rwa [Constant.isUnusable_spelled] at hu⟩

/-! ## Entries that reach themselves -/

namespace ImportSource

variable {S : ImportSource}

/-- The entry `i` refers to `j`, on its own or by its bootstrap method. -/
def Refers (S : ImportSource) (i j : UInt16) : Prop :=
  ∃ c, S.pool.get? i = some c ∧ (j ∈ c.references ∨
    ∃ m b, c.bootstrap? = some m ∧ S.bootstrap[m.toNat]? = some b ∧
      (j = b.method ∨ j ∈ b.arguments))

theorem Denotes.exists_of_refers {i j : UInt16} {t : Symbol} (h : S.Denotes i t)
    (hj : S.Refers i j) : ∃ u, S.Denotes j u ∧ sizeOf u < sizeOf t := by
  obtain ⟨c, hc, hj⟩ := hj
  obtain ⟨c', is, parts, hc', -, his, -⟩ := denotes_iff.1 h
  cases hc.symm.trans hc'
  refine h.exists_part hc his ?_
  unfold references? at his
  cases hb : c.bootstrap? with
  | none =>
    rw [hb] at his
    cases his
    rcases hj with hj | ⟨m, b, hm, -⟩
    · exact hj
    · cases hb.symm.trans hm
  | some m =>
    rw [hb] at his
    obtain ⟨b, hm, rfl⟩ := Option.map_eq_some_iff.1 his
    rcases hj with hj | ⟨m', b', hm', hb', hj⟩
    · simp [hj]
    · cases hb.symm.trans hm'
      cases hm.symm.trans hb'
      rcases hj with rfl | hj
      · simp
      · simp [hj]

/-- What reaches itself stands for nothing. -/
theorem not_denotes_of_cycle {i : UInt16} (h : Relation.TransGen S.Refers i i) (t : Symbol) :
    ¬S.Denotes i t := by
  intro ht
  have hless (j : UInt16) (hj : Relation.TransGen S.Refers i j) :
      ∃ u, S.Denotes j u ∧ sizeOf u < sizeOf t := by
    induction hj with
    | single hj => exact ht.exists_of_refers hj
    | tail _ hj ih =>
      obtain ⟨u, hu, hlt⟩ := ih
      obtain ⟨v, hv, hlt'⟩ := hu.exists_of_refers hj
      exact ⟨v, hv, Nat.lt_trans hlt' hlt⟩
  obtain ⟨u, hu, hlt⟩ := hless i h
  rw [hu.unique ht] at hlt
  exact absurd hlt (Nat.lt_irrefl _)

end ImportSource

end JvmClass
