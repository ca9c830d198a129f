import JvmClass.Proofs.Codec.Pool
import JvmClass.Proofs.Pool.Symbol
import Std.Data.HashMap.Lemmas

/-!
# Growing pools

`Inv P` says what a growing pool is at any time: the pool can be read back, its two indices are
those of its entries and of its bootstrap methods, and every entry stands for a symbol with the
property `P`. `Grows P` is what a request does to it: nothing that was there changes, and every
new bootstrap method serves an entry.
-/

namespace JvmClass

/-! ## Entries -/

namespace Constant

theorem isUnusable_of_isReadable {c : Constant} (h : c.IsReadable) : c.isUnusable = false := by
  cases c with
  | unusable => exact h.elim
  | _ => rfl

theorem isReadable_head (c : Constant) : c.head.IsReadable ↔ c.IsReadable := by
  cases c <;> rfl

/-- Entries of one binary form are equal. -/
theorem eq_of_encode_eq {c d : Constant} {key : Bytes} (hc : c.IsReadable) (hd : d.IsReadable)
    (ec : c.encode = .ok key) (ed : d.encode = .ok key) : c = d := by
  have sc := spells_of_encode hc ec
  have sd := spells_of_encode hd ed
  exact ((reads_read 0).split sc sd (rfl : key ++ [] = key ++ [])).1

end Constant

namespace Pool

theorem spread_append (cs ds : List Constant) : spread (cs ++ ds) = spread cs ++ spread ds := by
  simp [spread]

theorem IsReadable.get? {p : Pool} (h : p.IsReadable) {i : UInt16} {c : Constant}
    (hc : p.get? i = some c) (hu : c.isUnusable = false) : c.IsReadable := by
  obtain ⟨-, entries, he, hr⟩ := h
  have hm := List.mem_of_getElem? (get?_eq_some_iff.1 hc).2
  rw [he, spread, List.mem_flatMap] at hm
  obtain ⟨d, hd, hm⟩ := hm
  split at hm
  · rcases List.mem_cons.1 hm with rfl | hm
    · exact hr c hd
    · rw [List.mem_singleton.1 hm] at hu
      cases hu
  · rw [List.mem_singleton.1 hm]
    exact hr d hd

section Append

variable {p : Pool} {c : Constant} (h : p.size + c.slots < 0xFFFF)

include h

theorem toNat_next : (UInt16.ofNat (p.size + 1)).toNat = p.size + 1 :=
  toNat_unit (by have := slots_pos c; omega)

theorem get?_append_next : (p.append c).get? (UInt16.ofNat (p.size + 1)) = some c := by
  have hn := toNat_next h
  refine get?_eq_some_iff.2 ⟨fun e => ?_, ?_⟩
  · rw [e] at hn
    cases hn
  · rw [hn, slots_append, Nat.add_sub_cancel, size, ← Array.length_toList,
      List.getElem?_append_right (Nat.le_refl _), Nat.sub_self]
    cases c <;> rfl

theorem get?_append_cases {i : UInt16} {d : Constant} (hd : (p.append c).get? i = some d) :
    p.get? i = some d ∨ i = UInt16.ofNat (p.size + 1) ∧ d = c ∨ d = .unusable := by
  obtain ⟨hi, hd⟩ := get?_eq_some_iff.1 hd
  have hpos : i.toNat ≠ 0 := fun e => hi (UInt16.toNat_inj.1 e)
  have hlen : p.slots.toList.length = p.size := Array.length_toList
  rw [slots_append] at hd
  by_cases hlt : i.toNat - 1 < p.slots.toList.length
  · rw [List.getElem?_append_left hlt] at hd
    exact .inl (get?_eq_some_iff.2 ⟨hi, hd⟩)
  · rw [List.getElem?_append_right (by omega)] at hd
    by_cases hz : i.toNat = p.size + 1
    · refine .inr (.inl ⟨UInt16.toNat_inj.1 (hz.trans (toNat_next h).symm), ?_⟩)
      rw [show i.toNat - 1 - p.slots.toList.length = 0 by omega] at hd
      cases c <;> exact (Option.some.inj hd).symm
    · refine .inr (.inr ?_)
      obtain ⟨k, hk⟩ : ∃ k, i.toNat - 1 - p.slots.toList.length = k + 1 :=
        Nat.exists_eq_succ_of_ne_zero (by omega)
      rw [hk] at hd
      have hm := List.mem_of_getElem? (by simpa [spread] using hd :
        (spread [c]).tail[k]? = some d)
      cases c <;> simp_all [spread, Constant.slots]

end Append

theorem IsReadable.append {p : Pool} {c : Constant} (hp : p.IsReadable) (hc : c.IsReadable)
    (h : p.size + c.slots < 0xFFFF) : (p.append c).IsReadable := by
  obtain ⟨-, entries, he, hr⟩ := hp
  refine ⟨by rwa [size_append], entries ++ [c], ?_, ?_⟩
  · rw [slots_append, he, spread_append]
  · simpa [or_imp, forall_and] using ⟨hr, hc⟩

end Pool

/-! ## The invariant -/

namespace GrowingPool

/-- The pool as it can be copied from. -/
def source (g : GrowingPool) : ImportSource := ⟨g.pool, g.bootstrap⟩

/-- What holds of a pool under construction all the time. -/
structure Inv (P : Symbol → Prop) (g : GrowingPool) : Prop where
  readable : g.pool.IsReadable
  /-- An entry is found by its binary form, and no other is. -/
  indexed : ∀ key i, g.indices[key]? = some i ↔
    ∃ c, g.pool.get? i = some c ∧ c.IsReadable ∧ c.encode = .ok key
  symbols : ∀ i c, g.pool.get? i = some c → c.IsReadable → ∃ t, g.source.Denotes i t ∧ P t
  bootstrapIndexed : ∀ m (i : UInt16),
    g.bootstrapIndices[m]? = some i ↔ g.bootstrap[i.toNat]? = some m
  bootstrapFits : g.bootstrap.size ≤ 0x10000

/-- An entry of the pool is computed by the bootstrap method at `k`. -/
def Uses (g : GrowingPool) (k : Nat) : Prop :=
  ∃ i c m, g.pool.get? i = some c ∧ c.bootstrap? = some m ∧ m.toNat = k

/-- What successful requests do to a pool. -/
structure Grows (P : Symbol → Prop) (g g' : GrowingPool) : Prop where
  inv : g'.Inv P
  le : g.source ≤ g'.source
  uses : ∀ k, g.bootstrap.size ≤ k → k < g'.bootstrap.size → g'.Uses k

variable {P : Symbol → Prop} {g g' g'' : GrowingPool}

theorem inv_empty : empty.Inv P where
  readable := ⟨by decide, [], rfl, by simp⟩
  indexed key i := by simp [empty, Pool.empty, Pool.get?]
  symbols i c h := by simp [empty, Pool.empty, Pool.get?] at h
  bootstrapIndexed m i := by simp [empty]
  bootstrapFits := Nat.zero_le _

theorem Uses.mono {k : Nat} (h : g.source ≤ g'.source) (hk : g.Uses k) : g'.Uses k := by
  obtain ⟨i, c, m, hc, hm, e⟩ := hk
  exact ⟨i, c, m, ImportSource.get?_mono h hc, hm, e⟩

theorem Grows.refl (h : g.Inv P) : g.Grows P g :=
  ⟨h, le_refl _, fun _ h1 h2 => absurd h2 (Nat.not_lt.2 h1)⟩

theorem Grows.trans (h : g.Grows P g') (h' : g'.Grows P g'') : g.Grows P g'' := by
  refine ⟨h'.inv, le_trans h.le h'.le, fun k h1 h2 => ?_⟩
  by_cases hk : k < g'.bootstrap.size
  · exact (h.uses k h1 hk).mono h'.le
  · exact h'.uses k (Nat.not_lt.1 hk) h2

theorem Inv.isReadable (h : g.Inv P) {i : UInt16} {c : Constant} (hc : g.pool.get? i = some c)
    (hu : c.isUnusable = false) : c.IsReadable :=
  h.readable.get? hc hu

/-- The index the next entry will have. -/
def next (g : GrowingPool) : UInt16 := UInt16.ofNat (g.pool.size + 1)

/-- The pool with one more entry. -/
def enter (g : GrowingPool) (c : Constant) (key : Bytes) : GrowingPool :=
  { g with pool := g.pool.append c, indices := g.indices.insert key g.next }

theorem le_enter (g : GrowingPool) (c : Constant) (key : Bytes) :
    g.source ≤ (g.enter c key).source :=
  ⟨⟨_, (Pool.slots_append g.pool c).symm⟩, List.prefix_rfl⟩

section Enter

variable {c : Constant} {key : Bytes} (hkey : c.encode = .ok key) (hnew : g.indices[key]? = none)
  (hfit : g.pool.size + c.slots < 0xFFFF)

include hkey hnew hfit

/-- Among the entries with `U`, a new one is found by its binary form like those before. -/
theorem indexed_enter {U : Constant → Prop} (hU : ¬U .unusable)
    (h : ∀ key i, g.indices[key]? = some i ↔
      ∃ c, g.pool.get? i = some c ∧ U c ∧ c.encode = .ok key)
    (hc : U c) (key' : Bytes) (i : UInt16) :
    (g.enter c key).indices[key']? = some i ↔
      ∃ d, (g.enter c key).pool.get? i = some d ∧ U d ∧ d.encode = .ok key' := by
  show (g.indices.insert key g.next)[key']? = some i ↔ _
  rw [Std.HashMap.getElem?_insert]
  constructor
  · intro hi
    split at hi
    · rename_i e
      cases hi
      cases eq_of_beq e
      exact ⟨c, Pool.get?_append_next hfit, hc, hkey⟩
    · obtain ⟨d, hd, hdu, hde⟩ := (h key' i).1 hi
      exact ⟨d, ImportSource.get?_mono (g.le_enter c key) hd, hdu, hde⟩
  · rintro ⟨d, hd, hdu, hde⟩
    rcases Pool.get?_append_cases hfit hd with hd | ⟨rfl, rfl⟩ | rfl
    · have hi := (h key' i).2 ⟨d, hd, hdu, hde⟩
      rw [if_neg, hi]
      intro e
      cases eq_of_beq e
      rw [hnew] at hi
      cases hi
    · rw [hkey] at hde
      cases hde
      simp [next]
    · exact absurd hdu hU

/-- Adding an entry that was not there. -/
theorem Inv.enter (h : g.Inv P) (hr : c.IsReadable)
    (hs : ∃ t, (g.enter c key).source.Denotes g.next t ∧ P t) : (g.enter c key).Inv P := by
  refine ⟨h.readable.append hr hfit, indexed_enter hkey hnew hfit id h.indexed hr,
    fun i d hd hdr => ?_, h.bootstrapIndexed, h.bootstrapFits⟩
  rcases Pool.get?_append_cases hfit hd with hd | ⟨rfl, rfl⟩ | rfl
  · obtain ⟨t, ht, hp⟩ := h.symbols i d hd hdr
    exact ⟨t, ht.mono (g.le_enter c key), hp⟩
  · exact hs
  · exact hdr.elim

end Enter

/-- The pool with one more bootstrap method. -/
def enterBootstrap (g : GrowingPool) (m : BootstrapMethod) : GrowingPool :=
  { g with
    bootstrap := g.bootstrap.push m
    bootstrapIndices := g.bootstrapIndices.insert m (UInt16.ofNat g.bootstrap.size) }

theorem le_enterBootstrap (g : GrowingPool) (m : BootstrapMethod) :
    g.source ≤ (g.enterBootstrap m).source :=
  ⟨List.prefix_rfl, ⟨[m], Array.toList_push.symm⟩⟩

theorem getElem?_enterBootstrap {g : GrowingPool} (hfit : g.bootstrap.size < 0x10000)
    (m : BootstrapMethod) :
    (g.enterBootstrap m).bootstrap[(UInt16.ofNat g.bootstrap.size).toNat]? = some m := by
  rw [toNat_unit hfit]
  exact Array.getElem?_push_size

section EnterBootstrap

variable {m : BootstrapMethod} (hnew : g.bootstrapIndices[m]? = none)
  (hfit : g.bootstrap.size < 0x10000)

include hnew hfit

theorem bootstrapIndexed_enter
    (h : ∀ m (i : UInt16), g.bootstrapIndices[m]? = some i ↔ g.bootstrap[i.toNat]? = some m)
    (m' : BootstrapMethod) (i : UInt16) :
    (g.enterBootstrap m).bootstrapIndices[m']? = some i ↔
      (g.enterBootstrap m).bootstrap[i.toNat]? = some m' := by
  have hsize : (UInt16.ofNat g.bootstrap.size).toNat = g.bootstrap.size := toNat_unit hfit
  show (g.bootstrapIndices.insert m _)[m']? = some i ↔ (g.bootstrap.push m)[i.toNat]? = some m'
  rw [Std.HashMap.getElem?_insert, Array.getElem?_push]
  have hold := h m' i
  have hbound : g.bootstrap[i.toNat]? = some m' → i.toNat < g.bootstrap.size := fun e =>
    (Array.getElem?_eq_some_iff.1 e).choose
  by_cases hm : m = m'
  · subst hm
    have hi : i.toNat = g.bootstrap.size ↔ UInt16.ofNat g.bootstrap.size = i := by
      rw [← UInt16.toNat_inj, hsize, eq_comm]
    rw [hnew] at hold
    simp only [beq_self_eq_true, if_true, Option.some.injEq, ← hi]
    constructor
    · intro e
      rw [if_pos e]
    · intro e
      split at e
      · assumption
      · exact absurd (hold.2 e) (by simp)
  · rw [if_neg (by simpa using hm), hold]
    constructor
    · intro e
      rw [if_neg (Nat.ne_of_lt (hbound e)), e]
    · intro e
      split at e
      · exact absurd (Option.some.inj e) hm
      · exact e

omit hnew in
theorem bootstrapFits_enter : (g.enterBootstrap m).bootstrap.size ≤ 0x10000 := by
  show (g.bootstrap.push m).size ≤ 0x10000
  rw [Array.size_push]
  exact hfit

/-- Adding a bootstrap method that was not there. -/
theorem Inv.enterBootstrap (h : g.Inv P) : (g.enterBootstrap m).Inv P := by
  refine ⟨h.readable, h.indexed, fun i c hc hr => ?_,
    bootstrapIndexed_enter hnew hfit h.bootstrapIndexed, bootstrapFits_enter hfit⟩
  obtain ⟨t, ht, hp⟩ := h.symbols i c hc hr
  exact ⟨t, ht.mono (g.le_enterBootstrap m), hp⟩

end EnterBootstrap

end GrowingPool

/-! ## Requests -/

namespace Grow

variable {P : Symbol → Prop} {g g' : GrowingPool}

theorem add_eq_ok {c : Constant} {j : UInt16} :
    add c g = .ok j g' ↔ ∃ key, c.encode = .ok key ∧
      (g.indices[key]? = some j ∧ g' = g ∨
        g.indices[key]? = none ∧ g.pool.size + c.slots < 0xFFFF ∧ j = g.next ∧
          g' = g.enter c key) := by
  unfold add
  cases c.encode with
  | error e => simp
  | ok key =>
    simp only [Except.ok.injEq, exists_eq_left']
    cases g.indices[key]? with
    | some i => simp [eq_comm]
    | none =>
      simp only
      split
      · rename_i hfit
        simp only [hfit, reduceCtorEq, false_and, true_and, false_or, EStateM.Result.ok.injEq]
        exact ⟨fun h => ⟨h.1.symm, h.2.symm⟩, fun h => ⟨h.1.symm, h.2.symm⟩⟩
      · simp [*]

/-- An entry stands at the index that is handed out, with what it stands for. -/
theorem add_spec {c : Constant} {j : UInt16} {depth : Nat} {t : Symbol} (hg : g.Inv P)
    (hr : c.IsReadable) (ht : g.source.symbolOf? (g.source.symbol? depth) c = some t) (hp : P t)
    (h : add c g = .ok j g') :
    g.Grows P g' ∧ g'.pool.get? j = some c ∧ g'.source.symbol? (depth + 1) j = some t := by
  obtain ⟨key, hkey, ⟨hi, rfl⟩ | ⟨hnew, hfit, rfl, rfl⟩⟩ := add_eq_ok.1 h
  · obtain ⟨d, hd, hdr, hde⟩ := (hg.indexed key j).1 hi
    obtain rfl := Constant.eq_of_encode_eq hr hdr hkey hde
    exact ⟨.refl hg, hd, ImportSource.symbol?_succ_eq_some_iff.2 ⟨c, hd, ht⟩⟩
  · have hle := g.le_enter c key
    have hc : (g.enter c key).pool.get? g.next = some c := Pool.get?_append_next hfit
    have hs : (g.enter c key).source.symbol? (depth + 1) g.next = some t := by
      refine ImportSource.symbol?_succ_eq_some_iff.2 ⟨c, hc, ImportSource.symbolOf?_mono hle ?_ ht⟩
      exact fun i u hu => ImportSource.symbol?_mono hle (Nat.le_refl depth) hu
    have hinv := hg.enter hkey hnew hfit hr ⟨t, ⟨depth + 1, hs⟩, hp⟩
    exact ⟨⟨hinv, hle, fun _ h1 h2 => absurd h2 (Nat.not_lt.2 h1)⟩, hc, hs⟩

/-- An entry that can be written is handed out or added while there is room. -/
theorem add_succeeds {c : Constant} {key : Bytes} (hkey : c.encode = .ok key)
    (hfit : g.pool.size + c.slots < 0xFFFF) :
    ∃ j g', add c g = .ok j g' ∧ g'.pool.size ≤ g.pool.size + c.slots := by
  cases hi : g.indices[key]? with
  | some j => exact ⟨j, g, add_eq_ok.2 ⟨key, hkey, .inl ⟨hi, rfl⟩⟩, Nat.le_add_right ..⟩
  | none =>
    refine ⟨g.next, g.enter c key, add_eq_ok.2 ⟨key, hkey, .inr ⟨hi, hfit, rfl, rfl⟩⟩, ?_⟩
    exact Nat.le_of_eq (Pool.size_append g.pool c)

/-- An entry that is not there is given the next index. -/
theorem add_new {c : Constant} {key : Bytes} (hg : g.Inv P) (hr : c.IsReadable)
    (hkey : c.encode = .ok key) (hnew : ∀ i, g.pool.get? i ≠ some c)
    (hfit : g.pool.size + c.slots < 0xFFFF) : add c g = .ok g.next (g.enter c key) := by
  refine add_eq_ok.2 ⟨key, hkey, .inr ⟨?_, hfit, rfl, rfl⟩⟩
  cases hi : g.indices[key]? with
  | none => rfl
  | some i =>
    obtain ⟨d, hd, hdr, hde⟩ := (hg.indexed key i).1 hi
    cases Constant.eq_of_encode_eq hr hdr hkey hde
    exact absurd hd (hnew i)

theorem text_succeeds {s : String} (hs : (Text.encode s).length < 0x10000)
    (hfit : g.pool.size + 1 < 0xFFFF) :
    ∃ j g', text s g = .ok j g' ∧ g'.pool.size ≤ g.pool.size + 1 := by
  have hkey : (Constant.utf8 s).encode = .ok _ := if_pos hs
  exact add_succeeds hkey hfit

theorem bootstrapMethod_eq_ok {m : BootstrapMethod} {k : UInt16} :
    bootstrapMethod m g = .ok k g' ↔ g.bootstrapIndices[m]? = some k ∧ g' = g ∨
      g.bootstrapIndices[m]? = none ∧ g.bootstrap.size < 0x10000 ∧
        k = UInt16.ofNat g.bootstrap.size ∧ g' = g.enterBootstrap m := by
  unfold bootstrapMethod
  cases hi : g.bootstrapIndices[m]? with
  | some i => simp [eq_comm]
  | none =>
    simp only
    split <;> simp [*, GrowingPool.enterBootstrap, eq_comm]

/-- A bootstrap method stands at the position that is handed out. No entry uses it yet. -/
theorem bootstrapMethod_spec {m : BootstrapMethod} {k : UInt16} (hg : g.Inv P)
    (h : bootstrapMethod m g = .ok k g') :
    g'.Inv P ∧ g.source ≤ g'.source ∧ g'.bootstrap[k.toNat]? = some m ∧
      ∀ l, g.bootstrap.size ≤ l → l < g'.bootstrap.size → l = k.toNat := by
  rcases bootstrapMethod_eq_ok.1 h with ⟨hi, rfl⟩ | ⟨hnew, hfit, rfl, rfl⟩
  · exact ⟨hg, le_refl _, (hg.bootstrapIndexed m k).1 hi, fun l h1 h2 => by omega⟩
  · have hsize : (UInt16.ofNat g.bootstrap.size).toNat = g.bootstrap.size := toNat_unit hfit
    refine ⟨hg.enterBootstrap hnew hfit, g.le_enterBootstrap m,
      GrowingPool.getElem?_enterBootstrap hfit m, fun l h1 h2 => ?_⟩
    have hl : l < (g.bootstrap.push m).size := h2
    rw [Array.size_push] at hl
    omega

theorem text_spec {s : String} {j : UInt16} (hg : g.Inv P) (hp : P (.text s))
    (h : text s g = .ok j g') :
    g.Grows P g' ∧ g'.pool.get? j = some (.utf8 s) ∧ g'.source.symbol? 1 j = some (.text s) :=
  add_spec hg trivial (ImportSource.symbolOf?_plain rfl rfl rfl) hp h

end Grow

end JvmClass
