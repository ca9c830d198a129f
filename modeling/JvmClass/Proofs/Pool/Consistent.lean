import JvmClass.Proofs.Pool.Runs
import Mathlib.Data.List.Nodup

/-!
# Consistent pools

What holds of a growing pool whatever is requested of it, from sources that may be broken: its
slots are those of its entries, and both of its indices say what is there. This much is kept by
every request, whether it succeeds or fails. It is also enough to say that a request which has
succeeded is answered from what is there when it is made again, at any later time
(`Grow.Repeatable`).
-/

namespace JvmClass

namespace GrowingPool

/-- The slots and the indices of a growing pool fit together. -/
structure Consistent (g : GrowingPool) : Prop where
  size : g.pool.size < 0xFFFF
  spread : ∃ entries, g.pool.slots.toList = Pool.spread entries ∧
    ∀ c ∈ entries, c.isUnusable = false
  /-- An entry is found by its binary form, and nothing else is. -/
  indexed : ∀ key i, g.indices[key]? = some i ↔
    ∃ c, g.pool.get? i = some c ∧ c.isUnusable = false ∧ c.encode = .ok key
  encodes : ∀ i c, g.pool.get? i = some c → c.isUnusable = false → ∃ key, c.encode = .ok key
  bootstrapIndexed : ∀ m (i : UInt16),
    g.bootstrapIndices[m]? = some i ↔ g.bootstrap[i.toNat]? = some m
  bootstrapFits : g.bootstrap.size ≤ 0x10000

variable {g g' : GrowingPool}

theorem consistent_empty : empty.Consistent where
  size := by decide
  spread := ⟨[], rfl, by simp⟩
  indexed key i := by simp [empty, Pool.empty, Pool.get?]
  encodes i c h := by simp [empty, Pool.empty, Pool.get?] at h
  bootstrapIndexed m i := by simp [empty]
  bootstrapFits := Nat.zero_le _

theorem Consistent.enter (h : g.Consistent) {c : Constant} {key : Bytes}
    (hu : c.isUnusable = false) (hkey : c.encode = .ok key) (hnew : g.indices[key]? = none)
    (hfit : g.pool.size + c.slots < 0xFFFF) : (g.enter c key).Consistent := by
  have hnot : ¬Constant.unusable.isUnusable = false := by decide
  refine ⟨?_, ?_, indexed_enter hkey hnew hfit hnot h.indexed hu, fun i d hd hdu => ?_,
    h.bootstrapIndexed, h.bootstrapFits⟩
  · show (g.pool.append c).size < 0xFFFF
    rwa [Pool.size_append]
  · obtain ⟨entries, he, hentries⟩ := h.spread
    refine ⟨entries ++ [c], ?_, ?_⟩
    · show (g.pool.append c).slots.toList = _
      rw [Pool.slots_append, he, Pool.spread_append]
    · simpa [or_imp, forall_and] using ⟨hentries, hu⟩
  · rcases Pool.get?_append_cases hfit hd with hd | ⟨-, rfl⟩ | rfl
    · exact h.encodes i d hd hdu
    · exact ⟨key, hkey⟩
    · cases hdu

theorem Consistent.enterBootstrap (h : g.Consistent) {m : BootstrapMethod}
    (hnew : g.bootstrapIndices[m]? = none) (hfit : g.bootstrap.size < 0x10000) :
    (g.enterBootstrap m).Consistent :=
  ⟨h.size, h.spread, h.indexed, h.encodes, bootstrapIndexed_enter hnew hfit h.bootstrapIndexed,
    bootstrapFits_enter hfit⟩

/-- Entries of one binary form are one entry. -/
theorem Consistent.unique (h : g.Consistent) {i j : UInt16} {c d : Constant}
    (hc : g.pool.get? i = some c) (hcu : c.isUnusable = false) (hd : g.pool.get? j = some d)
    (hdu : d.isUnusable = false) (he : c.encode = d.encode) : i = j := by
  obtain ⟨key, hkey⟩ := h.encodes i c hc hcu
  have hi := (h.indexed key i).2 ⟨c, hc, hcu, hkey⟩
  rw [(h.indexed key j).2 ⟨d, hd, hdu, he ▸ hkey⟩] at hi
  exact (Option.some.inj hi).symm

/-- A bootstrap method stands in one place. -/
theorem Consistent.bootstrap_unique (h : g.Consistent) {m : BootstrapMethod} {k l : Nat}
    (hk : g.bootstrap[k]? = some m) (hl : g.bootstrap[l]? = some m) : k = l := by
  have hfits := h.bootstrapFits
  have hfound {k : Nat} (hk : g.bootstrap[k]? = some m) :
      k < 0x10000 ∧ g.bootstrapIndices[m]? = some (UInt16.ofNat k) := by
    obtain ⟨hlt, -⟩ := Array.getElem?_eq_some_iff.1 hk
    have hlt' : k < 0x10000 := by omega
    exact ⟨hlt', (h.bootstrapIndexed m _).2 (by rw [toNat_unit hlt', hk])⟩
  obtain ⟨hklt, hkf⟩ := hfound hk
  obtain ⟨hllt, hlf⟩ := hfound hl
  have hkl := congrArg UInt16.toNat (Option.some.inj (hkf.symm.trans hlf))
  rwa [toNat_unit hklt, toNat_unit hllt] at hkl

theorem Consistent.bootstrap_nodup (h : g.Consistent) : g.bootstrap.toList.Nodup := by
  rw [List.nodup_iff_getElem?_ne_getElem?]
  intro i j hij hj e
  obtain ⟨m, hm⟩ : ∃ m, g.bootstrap.toList[j]? = some m := ⟨_, List.getElem?_eq_getElem hj⟩
  rw [hm] at e
  rw [Array.getElem?_toList] at e hm
  exact absurd (h.bootstrap_unique e hm) (Nat.ne_of_lt hij)

end GrowingPool

/-! ## Requests made again -/

namespace Grow

/-- The request keeps a pool consistent, whatever becomes of it. And where it has succeeded, it is
answered alike at any later time, and then changes nothing. -/
structure Repeatable {α : Type} (x : Grow α) : Prop where
  runs : ∀ g, g.Consistent →
    Runs GrowingPool.source GrowingPool.Consistent (fun _ => True) x g fun _ _ => True
  again : ∀ g a g', g.Consistent → x g = .ok a g' →
    ∀ h, h.Consistent → g'.source ≤ h.source → x h = .ok a h

section Repeatable

variable {α β : Type}

theorem repeatable_pure (a : α) : Repeatable (pure a) where
  runs _ hg := runs_pure hg trivial
  again g b g' _ hrun h _ _ := by
    obtain ⟨rfl, rfl⟩ := pure_eq_ok.1 hrun
    rfl

theorem repeatable_throw (e : Error) : Repeatable (throw e : Grow α) where
  runs _ hg := runs_throw hg trivial
  again _ _ _ _ hrun := absurd hrun throw_ne_ok

theorem repeatable_ofExcept (r : Except Error α) : Repeatable (ofExcept r) := by
  cases r with
  | ok a => exact repeatable_pure a
  | error e => exact repeatable_throw e

theorem Repeatable.bind {x : Grow α} {f : α → Grow β} (hx : Repeatable x)
    (hf : ∀ a, Repeatable (f a)) : Repeatable (x >>= f) where
  runs g hg := (hx.runs g hg).bind fun a g' hg' _ _ => (hf a).runs g' hg'
  again g b g' hg hrun h hh hle := by
    obtain ⟨a, g1, h1, h2⟩ := bind_eq_ok.1 hrun
    have hg1 := ((hx.runs g hg).ok h1).1
    -- the later pool begins with the one between the two requests as well
    have hle1 := (((hf a).runs g1 hg1).ok h2).2.1
    rw [bind_run (hx.again g a g1 hg h1 h hh (le_trans hle1 hle))]
    exact (hf a).again g1 b g' hg1 h2 h hh hle

theorem repeatable_mapM {f : α → Grow β} (hf : ∀ a, Repeatable (f a)) (as : List α) :
    Repeatable (as.mapM f) := by
  induction as with
  | nil => exact repeatable_pure []
  | cons a as ih =>
    rw [List.mapM_cons]
    exact (hf a).bind fun _ => ih.bind fun _ => repeatable_pure _

end Repeatable

/-- The index that is handed out is that of an entry with the binary form that was asked for. -/
theorem add_found {c : Constant} {g g' : GrowingPool} {i : UInt16} (hg : g.Consistent)
    (hu : c.isUnusable = false) (h : add c g = .ok i g') :
    ∃ d, g'.pool.get? i = some d ∧ d.isUnusable = false ∧ d.encode = c.encode := by
  obtain ⟨key, hkey, ⟨hi, rfl⟩ | ⟨-, hfit, rfl, rfl⟩⟩ := add_eq_ok.1 h
  · obtain ⟨d, hd, hdu, hde⟩ := (hg.indexed key i).1 hi
    exact ⟨d, hd, hdu, hde.trans hkey.symm⟩
  · exact ⟨c, Pool.get?_append_next hfit, hu, rfl⟩

theorem repeatable_add {c : Constant} (hu : c.isUnusable = false) : Repeatable (add c) where
  runs g hg := runs_add hg (fun _ _ _ _ => trivial)
    (fun _ hkey hnew hfit => ⟨hg.enter hu hkey hnew hfit, trivial⟩) (fun _ _ => trivial)
    fun _ _ _ _ => trivial
  again g i g' hg hrun h hh hle := by
    obtain ⟨key, hkey, -⟩ := add_eq_ok.1 hrun
    obtain ⟨d, hd, hdu, hde⟩ := add_found hg hu hrun
    have hi := (hh.indexed key i).2 ⟨d, ImportSource.get?_mono hle hd, hdu, hde.trans hkey⟩
    exact add_eq_ok.2 ⟨key, hkey, .inl ⟨hi, rfl⟩⟩

theorem bootstrapMethod_found {m : BootstrapMethod} {g g' : GrowingPool} {i : UInt16}
    (hg : g.Consistent) (h : bootstrapMethod m g = .ok i g') :
    g'.bootstrap[i.toNat]? = some m := by
  rcases bootstrapMethod_eq_ok.1 h with ⟨hi, rfl⟩ | ⟨-, hfit, rfl, rfl⟩
  · exact (hg.bootstrapIndexed m i).1 hi
  · exact GrowingPool.getElem?_enterBootstrap hfit m

theorem repeatable_bootstrapMethod (m : BootstrapMethod) : Repeatable (bootstrapMethod m) where
  runs g hg := runs_bootstrapMethod hg (fun _ _ => trivial)
    (fun hnew hfit => ⟨hg.enterBootstrap hnew hfit, trivial⟩) fun _ _ => trivial
  again g i g' hg hrun h hh hle := by
    have hm := ImportSource.bootstrap_mono hle (bootstrapMethod_found hg hrun)
    exact bootstrapMethod_eq_ok.2 (.inl ⟨(hh.bootstrapIndexed m i).2 hm, rfl⟩)

theorem repeatable_text (s : String) : Repeatable (text s) := repeatable_add rfl

theorem repeatable_classRef (name : String) : Repeatable (classRef name) :=
  (repeatable_text name).bind fun _ => repeatable_add rfl

theorem repeatable_nameAndType (name descriptor : String) :
    Repeatable (nameAndType name descriptor) :=
  (repeatable_text name).bind fun _ => (repeatable_text descriptor).bind fun _ =>
    repeatable_add rfl

theorem repeatable_importWithin (S : ImportSource) (n : Nat) (i : UInt16) :
    Repeatable (importWithin S n i) := by
  induction n generalizing i with
  | zero => exact repeatable_throw _
  | succ n ih =>
    have htext (k : UInt16) {f : String → Grow UInt16} (hf : ∀ s, Repeatable (f s)) :
        Repeatable (do f (← ofExcept (S.pool.text k))) :=
      (repeatable_ofExcept _).bind hf
    have hpair {entry : UInt16 → UInt16 → Constant} (h : ∀ i j, (entry i j).isUnusable = false)
        (a b : UInt16) : Repeatable (do
          let owner ← importWithin S n a
          let member ← importWithin S n b
          add (entry owner member)) :=
      (ih a).bind fun i => (ih b).bind fun j => repeatable_add (h i j)
    rw [importWithin]
    refine (repeatable_ofExcept _).bind fun c => ?_
    cases c with
    | utf8 | utf8Unpaired | integer | float | long | double => exact repeatable_add rfl
    | classRef k | methodType k | moduleRef k | packageRef k =>
      exact htext k fun s => (repeatable_text s).bind fun _ => repeatable_add rfl
    | stringRef k | methodHandle _ k => exact (ih k).bind fun _ => repeatable_add rfl
    | nameAndType a b => exact htext a fun s => htext b fun t => repeatable_nameAndType s t
    | fieldRef a b | methodRef a b | interfaceMethodRef a b => exact hpair (fun _ _ => rfl) a b
    | dynamic m a | invokeDynamic m a =>
      dsimp only
      split
      · exact repeatable_throw _
      · refine (ih _).bind fun handle => ?_
        refine (repeatable_mapM ih _).bind fun arguments => ?_
        refine (repeatable_bootstrapMethod _).bind fun bootstrap => ?_
        exact (ih a).bind fun _ => repeatable_add rfl
    | unusable => exact repeatable_throw _

end Grow

end JvmClass
