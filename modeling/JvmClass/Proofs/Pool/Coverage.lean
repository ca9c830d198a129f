import JvmClass.Proofs.Pool.Consistent
import JvmClass.Proofs.Pool.Validity
import Mathlib.Algebra.GroupWithZero.Nat
import Mathlib.Algebra.Order.BigOperators.Group.List
import Mathlib.Algebra.Order.Group.Nat
import Mathlib.Data.List.Perm.Subperm
import Mathlib.Data.Set.Function

/-!
# Pools that are copied out of another

A pool into which nothing goes but copies out of `S` is a part of `S`, differently numbered: each
entry has one of `S` to itself that stands for the same (`Embeds`). For what an entry stands for
tells it apart from all others, since equal entries are entered once. So the pool never needs more
room than `S` takes, and no copy is refused for want of room (`copying_covered`).
-/

namespace JvmClass

/-! ## Slots -/

namespace Pool

/-- The usable ones of some slots, numbered from `n` on. -/
theorem usable_pairwise {slots : List Constant} {n : Nat} (h : n + slots.length ≤ 0x10000) :
    ((slots.zipIdx n).filterMap fun (c, i) =>
      if c.isUnusable then none else some (UInt16.ofNat i, c)).Pairwise
        fun a b => a.1.toNat < b.1.toNat := by
  induction slots generalizing n with
  | nil => exact .nil
  | cons c slots ih =>
    rw [List.length_cons] at h
    have hrest := ih (n := n + 1) (by omega)
    rw [List.zipIdx_cons, List.filterMap_cons]
    dsimp only
    split
    · exact hrest
    · rename_i e he
      split at he
      · cases he
      · cases he
        refine List.pairwise_cons.2 ⟨fun b hb => ?_, hrest⟩
        obtain ⟨⟨d, k⟩, hm, hd⟩ := List.mem_filterMap.1 hb
        obtain ⟨hk, hlt, -⟩ := List.mem_zipIdx hm
        dsimp only at hd
        split at hd
        · cases hd
        · cases hd
          rw [toNat_unit (by omega), toNat_unit (by omega)]
          omega

theorem usable_fst_nodup {p : Pool} (hp : p.size < 0x10000) : (p.usable.map Prod.fst).Nodup := by
  have hlt : p.usable.Pairwise fun a b => a.1.toNat < b.1.toNat :=
    usable_pairwise (by rw [Array.length_toList]; unfold size at hp; omega)
  refine List.pairwise_map.2 (hlt.imp fun h e => ?_)
  rw [e] at h
  exact absurd h (Nat.lt_irrefl _)

theorem map_snd_usable (p : Pool) :
    p.usable.map Prod.snd = p.slots.toList.filter fun c => !c.isUnusable := by
  have h (slots : List Constant) (n : Nat) : ((slots.zipIdx n).filterMap fun (c, i) =>
      if c.isUnusable then none else some (UInt16.ofNat i, c)).map Prod.snd =
        slots.filter fun c => !c.isUnusable := by
    induction slots generalizing n with
    | nil => rfl
    | cons c slots ih =>
      rw [List.zipIdx_cons, List.filterMap_cons, List.filter_cons]
      cases hu : c.isUnusable <;> simp [hu, ih]
  exact h p.slots.toList 1

theorem filter_spread {entries : List Constant} (h : ∀ c ∈ entries, c.isUnusable = false) :
    (spread entries).filter (fun c => !c.isUnusable) = entries := by
  induction entries with
  | nil => rfl
  | cons c entries ih =>
    obtain ⟨hc, hrest⟩ := List.forall_mem_cons.1 h
    have hone : (spread [c]).filter (fun c => !c.isUnusable) = [c] := by
      cases c <;> first | rfl | cases hc
    rw [spread_cons, List.filter_append, hone, ih hrest, List.singleton_append]

/-- The index of a usable entry. -/
def IsEntry (p : Pool) (i : UInt16) : Prop := ∃ c, p.get? i = some c ∧ c.isUnusable = false

/-- The number of slots of the entry at an index. -/
def slotsAt (p : Pool) (i : UInt16) : Nat := ((p.get? i).map Constant.slots).getD 0

theorem slotsAt_of_get? {p : Pool} {i : UInt16} {c : Constant} (h : p.get? i = some c) :
    p.slotsAt i = c.slots := by
  rw [slotsAt, h, Option.map_some, Option.getD_some]

/-- A pool that is made of entries, with an index for each slot. -/
structure IsSpread (p : Pool) : Prop where
  size : p.size < 0x10000
  entries : ∃ entries, p.slots.toList = spread entries ∧ ∀ c ∈ entries, c.isUnusable = false

theorem IsReadable.isSpread {p : Pool} (h : p.IsReadable) : p.IsSpread := by
  obtain ⟨hsize, entries, he, hr⟩ := h
  exact ⟨by omega, entries, he, fun c hc => c.isUnusable_of_isReadable (hr c hc)⟩

namespace IsSpread

variable {p : Pool} (h : p.IsSpread)

include h

theorem mem_usable_fst {i : UInt16} : i ∈ p.usable.map Prod.fst ↔ p.IsEntry i := by
  simp [mem_usable h.size, IsEntry]

/-- The slots of a pool are those of its entries. -/
theorem sum_slotsAt : ((p.usable.map Prod.fst).map p.slotsAt).sum = p.size := by
  obtain ⟨entries, he, hu⟩ := h.entries
  have hlength (cs : List Constant) : (spread cs).length = (cs.map Constant.slots).sum := by
    induction cs with
    | nil => rfl
    | cons c cs ih =>
      rw [spread_cons, List.length_append, length_spread_singleton, ih, List.map_cons,
        List.sum_cons]
  have hmap : (p.usable.map Prod.fst).map p.slotsAt =
      (p.usable.map Prod.snd).map Constant.slots := by
    rw [List.map_map, List.map_map]
    refine List.map_congr_left fun e hm => ?_
    exact slotsAt_of_get? ((mem_usable h.size).1 hm).1
  rw [hmap, map_snd_usable, he, filter_spread hu, ← hlength, ← he, Array.length_toList]
  rfl

/-- Entries of a pool have room in it. -/
theorem sum_le_size {is : List UInt16} (hnodup : is.Nodup) (his : ∀ i ∈ is, p.IsEntry i) :
    (is.map p.slotsAt).sum ≤ p.size := by
  obtain ⟨js, hperm, hsub⟩ := hnodup.subperm fun i hi => h.mem_usable_fst.2 (his i hi)
  calc (is.map p.slotsAt).sum = (js.map p.slotsAt).sum := (hperm.map _).sum_eq.symm
    _ ≤ ((p.usable.map Prod.fst).map p.slotsAt).sum :=
      (hsub.map _).sum_le_sum fun _ _ => Nat.zero_le _
    _ = p.size := h.sum_slotsAt

end IsSpread

end Pool

theorem Constant.slots_head (c : Constant) : c.head.slots = c.slots := by
  cases c <;> rfl

/-- What an entry refers to, what it is computed by and its data make up the entry. -/
theorem Constant.eq_of_head_eq {c d : Constant} (hhead : c.head = d.head)
    (hrefs : c.references = d.references) (hboot : c.bootstrap? = d.bootstrap?) : c = d := by
  cases c <;> cases d <;> cases hhead <;> simp_all [references, bootstrap?]

/-! ## One entry for each symbol -/

theorem eq_of_forall₂ {α β : Type} {R : α → β → Prop} {as as' : List α} {bs : List β}
    (has : List.Forall₂ R as bs) (has' : List.Forall₂ R as' bs)
    (h : ∀ b ∈ bs, ∀ a a', R a b → R a' b → a = a') : as = as' := by
  induction has generalizing as' with
  | nil => exact (List.forall₂_nil_right_iff.1 has').symm
  | cons hab _ ih =>
    obtain ⟨a', rest', hab', hrest', rfl⟩ := List.forall₂_cons_right_iff.1 has'
    obtain ⟨hfirst, hrest⟩ := List.forall_mem_cons.1 h
    rw [hfirst _ _ hab hab', ih hrest' hrest]

namespace GrowingPool

variable {g : GrowingPool}

/-- An entry is made up by its data and by all that it refers to. -/
theorem Consistent.eq_of_references (h : g.Consistent) {c d : Constant} {is : List UInt16}
    (hhead : c.head = d.head) (hc : g.source.references? c = some is)
    (hd : g.source.references? d = some is) : c = d := by
  have hsome : c.bootstrap?.isSome = d.bootstrap?.isSome := by
    rw [← c.isSome_bootstrap?_head, hhead, d.isSome_bootstrap?_head]
  have hlength : c.references.length = d.references.length := by
    rw [← c.length_references_head, hhead, d.length_references_head]
  unfold ImportSource.references? at hc hd
  cases hm : c.bootstrap? with
  | none =>
    have hm' : d.bootstrap? = none := by simpa [hm] using hsome
    rw [hm] at hc
    rw [hm'] at hd
    exact Constant.eq_of_head_eq hhead (Option.some.inj (hc.trans hd.symm)) (hm.trans hm'.symm)
  | some m =>
    obtain ⟨m', hm'⟩ : ∃ m', d.bootstrap? = some m' :=
      Option.isSome_iff_exists.1 (by rw [← hsome, hm]; rfl)
    rw [hm] at hc
    rw [hm'] at hd
    obtain ⟨b, hb, rfl⟩ := Option.map_eq_some_iff.1 hc
    obtain ⟨b', hb', e⟩ := Option.map_eq_some_iff.1 hd
    obtain ⟨hparts, hrefs⟩ := List.append_inj' e hlength.symm
    obtain ⟨hmethod, harguments⟩ := List.cons.inj hparts
    -- the two bootstrap methods are equal, and so are their places
    have hboot : b = b' := by
      cases b
      cases b'
      simp_all
    subst hboot
    have hplace := (h.bootstrapIndexed b m).2 hb
    rw [(h.bootstrapIndexed b m').2 hb'] at hplace
    exact Constant.eq_of_head_eq hhead hrefs.symm (by rw [hm, hm', hplace])

/-- Entries that stand for the same are one entry. -/
theorem Consistent.denotes_unique (h : g.Consistent) {i j : UInt16} {t : Symbol}
    (hi : g.source.Denotes i t) (hj : g.source.Denotes j t) : i = j := by
  induction hn : sizeOf t using Nat.strong_induction_on generalizing i j t with
  | _ n ih =>
    subst hn
    obtain ⟨c, is, parts, hc, hcu, his, hparts, rfl⟩ := ImportSource.denotes_iff.1 hi
    obtain ⟨d, js, _, hd, hdu, hjs, hparts', e⟩ := ImportSource.denotes_iff.1 hj
    obtain ⟨hhead, rfl⟩ := Symbol.node.inj e
    -- the parts are smaller, so the entries that stand for them are the same
    have hsame : is = js := by
      refine eq_of_forall₂ hparts hparts' fun u hu k l hk hl => ih _ ?_ hk hl rfl
      have hlt := List.sizeOf_lt_of_mem hu
      simp
      omega
    subst hsame
    have hcd := h.eq_of_references hhead his hjs
    subst hcd
    exact h.unique hc hcu hd hdu rfl

/-- What stands for the same as an entry would is that entry. -/
theorem Consistent.get?_of_denotes (h : g.Consistent) {i : UInt16} {d : Constant}
    {js : List UInt16} {parts : List Symbol} (hjs : g.source.references? d = some js)
    (hparts : List.Forall₂ g.source.Denotes js parts)
    (hi : g.source.Denotes i (.node d.head parts)) : g.pool.get? i = some d := by
  obtain ⟨c, is, _, hc, -, his, hparts', e⟩ := ImportSource.denotes_iff.1 hi
  obtain ⟨hhead, rfl⟩ := Symbol.node.inj e
  have hsame := eq_of_forall₂ hparts hparts' fun _ _ _ _ => h.denotes_unique
  subst hsame
  rw [h.eq_of_references hhead hjs his]
  exact hc

end GrowingPool

/-! ## Parts of a pool -/

/-- The bootstrap methods `b` of `S` and `m` of `G` are handles and arguments that stand for the
same. -/
structure SameMethod (S : ImportSource) (b : BootstrapMethod) (G : ImportSource)
    (m : BootstrapMethod) : Prop where
  method : SameSymbol S b.method G m.method
  arguments : List.Forall₂ (fun i j => SameSymbol S i G j) b.arguments m.arguments

theorem SameSymbol.mono {S G H : ImportSource} {i j : UInt16} (hle : G ≤ H)
    (h : SameSymbol S i G j) : SameSymbol S i H j := by
  obtain ⟨t, ht, ht'⟩ := h
  exact ⟨t, ht, ht'.mono hle⟩

theorem SameMethod.mono {S G H : ImportSource} {b m : BootstrapMethod} (hle : G ≤ H)
    (h : SameMethod S b G m) : SameMethod S b H m :=
  ⟨h.method.mono hle, h.arguments.imp fun _ _ => .mono hle⟩

namespace ImportSource

/-- Each entry of `G` has one of `S` to itself that stands for the same, and so has each bootstrap
method. -/
structure Embeds (G S : ImportSource) (entry : UInt16 → UInt16) (method : Nat → Nat) : Prop where
  same : ∀ i, G.pool.IsEntry i → SameSymbol S (entry i) G i
  injective : Set.InjOn entry {i | G.pool.IsEntry i}
  sameMethod : ∀ k m, G.bootstrap[k]? = some m →
    ∃ b, S.bootstrap[method k]? = some b ∧ SameMethod S b G m
  injectiveMethod : Set.InjOn method {k | k < G.bootstrap.size}

/-- The pool `G` is a part of `S`, numbered in its own way. -/
def EmbedsIn (G S : ImportSource) : Prop := ∃ entry method, G.Embeds S entry method

variable {G S : ImportSource}

theorem Denotes.isEntry {i : UInt16} {t : Symbol} (h : S.Denotes i t) : S.pool.IsEntry i := by
  obtain ⟨c, is, parts, hc, hu, -⟩ := denotes_iff.1 h
  exact ⟨c, hc, hu⟩

theorem Denotes.isReadable (hS : S.pool.IsReadable) {i : UInt16} {t : Symbol}
    (h : S.Denotes i t) : t.head.IsReadable := by
  obtain ⟨c, is, parts, hc, hu, -, -, rfl⟩ := denotes_iff.1 h
  exact c.isReadable_head.2 (hS.get? hc hu)

theorem slotsAt_eq_of_sameSymbol {i j : UInt16} (h : SameSymbol S i G j) :
    S.pool.slotsAt i = G.pool.slotsAt j := by
  obtain ⟨t, ht, ht'⟩ := h
  obtain ⟨c, is, parts, hc, -, -, -, rfl⟩ := denotes_iff.1 ht
  obtain ⟨d, js, _, hd, -, -, -, e⟩ := denotes_iff.1 ht'
  rw [Pool.slotsAt_of_get? hc, Pool.slotsAt_of_get? hd, ← c.slots_head, (Symbol.node.inj e).1,
    d.slots_head]

namespace Embeds

variable {entry : UInt16 → UInt16} {method : Nat → Nat} (h : G.Embeds S entry method)

include h

/-- A part has no more slots than the whole, and leaves room for what is not in it. -/
theorem size_add_le (hG : G.pool.IsSpread) (hS : S.pool.IsSpread) {extra : List UInt16}
    (hnodup : extra.Nodup) (hextra : ∀ k ∈ extra, S.pool.IsEntry k ∧
      ∀ i, G.pool.IsEntry i → entry i ≠ k) :
    G.pool.size + (extra.map S.pool.slotsAt).sum ≤ S.pool.size := by
  have hmem {i : UInt16} (hi : i ∈ G.pool.usable.map Prod.fst) := hG.mem_usable_fst.1 hi
  have himages : ((G.pool.usable.map Prod.fst).map entry ++ extra).Nodup := by
    refine List.Nodup.append ?_ hnodup fun k hk hk' => ?_
    · exact (Pool.usable_fst_nodup hG.size).map_on fun i hi j hj e =>
        h.injective (hmem hi) (hmem hj) e
    · obtain ⟨i, hi, rfl⟩ := List.mem_map.1 hk
      exact (hextra _ hk').2 i (hmem hi) rfl
  have hall := hS.sum_le_size himages fun k hk => by
    rcases List.mem_append.1 hk with hk | hk
    · obtain ⟨i, hi, rfl⟩ := List.mem_map.1 hk
      obtain ⟨t, ht, -⟩ := h.same i (hmem hi)
      exact ht.isEntry
    · exact (hextra k hk).1
  have hslots : ((G.pool.usable.map Prod.fst).map entry).map S.pool.slotsAt =
      (G.pool.usable.map Prod.fst).map G.pool.slotsAt := by
    rw [List.map_map]
    exact List.map_congr_left fun i hi => slotsAt_eq_of_sameSymbol (h.same i (hmem hi))
  rwa [List.map_append, List.sum_append, hslots, hG.sum_slotsAt] at hall

theorem size_le (hG : G.pool.IsSpread) (hS : S.pool.IsSpread) : G.pool.size ≤ S.pool.size :=
  h.size_add_le hG hS List.nodup_nil (by simp)

theorem bootstrap_size_add_le {extra : List Nat} (hnodup : extra.Nodup)
    (hextra : ∀ k ∈ extra, k < S.bootstrap.size ∧ ∀ i < G.bootstrap.size, method i ≠ k) :
    G.bootstrap.size + extra.length ≤ S.bootstrap.size := by
  have himages : ((List.range G.bootstrap.size).map method ++ extra).Nodup := by
    refine List.Nodup.append ?_ hnodup fun k hk hk' => ?_
    · exact List.nodup_range.map_on fun i hi j hj e =>
        h.injectiveMethod (List.mem_range.1 hi) (List.mem_range.1 hj) e
    · obtain ⟨i, hi, rfl⟩ := List.mem_map.1 hk
      exact (hextra _ hk').2 i (List.mem_range.1 hi) rfl
  have hsub : (List.range G.bootstrap.size).map method ++ extra ⊆ List.range S.bootstrap.size := by
    intro k hk
    rw [List.mem_range]
    rcases List.mem_append.1 hk with hk | hk
    · obtain ⟨i, hi, rfl⟩ := List.mem_map.1 hk
      obtain ⟨b, hb, -⟩ := h.sameMethod i _ (Array.getElem?_eq_getElem (List.mem_range.1 hi))
      exact (Array.getElem?_eq_some_iff.1 hb).choose
    · exact (hextra k hk).1
  simpa using (himages.subperm hsub).length_le

theorem bootstrap_size_le : G.bootstrap.size ≤ S.bootstrap.size :=
  h.bootstrap_size_add_le List.nodup_nil (by simp)

end Embeds

end ImportSource

/-! ## Pools that are filled from another -/

/-- The error says that there is no room left in a pool or in a table of bootstrap methods. -/
def Error.isFull : Error → Bool
  | poolOverflow => true
  | tooManyEntries table _ => table = .newBootstrapMethods || table = .bootstrapMethods
  | _ => false

theorem Constant.isFull_of_encode {c : Constant} {e : Error} (h : c.encode = .error e) :
    e.isFull = false := by
  obtain ⟨form, -, -, rfl⟩ := Pool.encode_eq_error h
  rfl

namespace GrowingPool

variable {S : ImportSource} {g : GrowingPool}

theorem Consistent.isSpread (h : g.Consistent) : g.pool.IsSpread where
  size := by
    have := h.size
    omega
  entries := h.spread

theorem Consistent.sameSymbol_unique (h : g.Consistent) {k i j : UInt16}
    (hi : SameSymbol S k g.source i) (hj : SameSymbol S k g.source j) : i = j := by
  obtain ⟨t, ht, hi⟩ := hi
  obtain ⟨t', ht', hj⟩ := hj
  cases ht.unique ht'
  exact h.denotes_unique hi hj

theorem Consistent.sameMethod_unique (h : g.Consistent) {b m m' : BootstrapMethod}
    (hm : SameMethod S b g.source m) (hm' : SameMethod S b g.source m') : m = m' := by
  have hmethod := h.sameSymbol_unique hm.method hm'.method
  have hunique : Relator.RightUnique fun i j => SameSymbol S i g.source j :=
    fun _ _ _ => h.sameSymbol_unique
  have harguments := List.right_unique_forall₂' hunique hm.arguments hm'.arguments
  cases m
  cases m'
  cases hmethod
  cases harguments
  rfl

/-- All that is in `g` stands for the same as something in `S`. -/
structure Covered (S : ImportSource) (g : GrowingPool) : Prop where
  consistent : g.Consistent
  entries : ∀ i, g.pool.IsEntry i → ∃ k, SameSymbol S k g.source i
  methods : ∀ (k : Nat) m, g.bootstrap[k]? = some m →
    ∃ (l : Nat) (b : BootstrapMethod), S.bootstrap[l]? = some b ∧ SameMethod S b g.source m

theorem covered_empty : Covered S empty where
  consistent := consistent_empty
  entries i h := by
    obtain ⟨c, hc, -⟩ := h
    simp [empty, Pool.empty, Pool.get?] at hc
  methods k m h := by simp [empty] at h

theorem Covered.embedsIn (h : Covered S g) : g.source.EmbedsIn S := by
  have hentry (i : UInt16) : ∃ k, g.pool.IsEntry i → SameSymbol S k g.source i := by
    by_cases hi : g.pool.IsEntry i
    · obtain ⟨k, hk⟩ := h.entries i hi
      exact ⟨k, fun _ => hk⟩
    · exact ⟨0, fun hi' => absurd hi' hi⟩
  have hmethod (k : Nat) : ∃ l : Nat, ∀ m, g.bootstrap[k]? = some m →
      ∃ b, S.bootstrap[l]? = some b ∧ SameMethod S b g.source m := by
    cases hk : g.bootstrap[k]? with
    | none => exact ⟨0, nofun⟩
    | some m =>
      obtain ⟨l, b, hb, hm⟩ := h.methods k m hk
      refine ⟨l, fun m' hm' => ?_⟩
      cases hm'
      exact ⟨b, hb, hm⟩
  choose entry hsame using hentry
  choose method hsameMethod using hmethod
  refine ⟨entry, method, hsame, fun i hi j hj e => ?_, hsameMethod, fun k hk l hl e => ?_⟩
  · have hi := hsame i hi
    rw [e] at hi
    exact h.consistent.sameSymbol_unique hi (hsame j hj)
  · have hk' := Array.getElem?_eq_getElem hk
    have hl' := Array.getElem?_eq_getElem hl
    obtain ⟨b, hb, hm⟩ := hsameMethod k _ hk'
    obtain ⟨b', hb', hm'⟩ := hsameMethod l _ hl'
    rw [e, hb'] at hb
    cases hb
    rw [h.consistent.sameMethod_unique hm hm'] at hk'
    exact h.consistent.bootstrap_unique hk' hl'

/-- The entry of `S` at `k` and the entry `d` of `g`, if it were there, would stand for the
same. -/
structure Copies (S : ImportSource) (k : UInt16) (G : ImportSource) (d : Constant) : Prop where
  usable : d.isUnusable = false
  denotes : ∃ js parts, G.references? d = some js ∧ List.Forall₂ G.Denotes js parts ∧
    S.Denotes k (.node d.head parts)

theorem Covered.isReadable (h : Covered S g) (hS : S.pool.IsReadable) {i : UInt16} {c : Constant}
    (hc : g.pool.get? i = some c) (hu : c.isUnusable = false) : c.IsReadable := by
  obtain ⟨k, t, hk, hi⟩ := h.entries i ⟨c, hc, hu⟩
  obtain ⟨c', is, parts, hc', -, -, -, rfl⟩ := ImportSource.denotes_iff.1 hi
  cases hc.symm.trans hc'
  exact c.isReadable_head.1 (hk.isReadable hS)

/-- An entry has room in what it is copied out of. -/
theorem Covered.room (h : Covered S g) (hS : S.pool.IsSpread) {k : UInt16} {d : Constant}
    {key : Bytes} (hd : Copies S k g.source d) (hkey : d.encode = .ok key)
    (hnew : g.indices[key]? = none) : g.pool.size + d.slots ≤ S.pool.size := by
  obtain ⟨js, parts, hjs, hparts, hk⟩ := hd.denotes
  obtain ⟨entry, method, hembeds⟩ := h.embedsIn
  have habsent (i : UInt16) (hi : g.pool.IsEntry i) : entry i ≠ k := by
    rintro rfl
    obtain ⟨t, ht, hi⟩ := hembeds.same i hi
    cases hk.unique ht
    have hget := h.consistent.get?_of_denotes hjs hparts hi
    rw [(h.consistent.indexed key i).2 ⟨d, hget, hd.usable, hkey⟩] at hnew
    cases hnew
  have hsize := hembeds.size_add_le h.consistent.isSpread hS (List.nodup_singleton k)
    (by simpa using ⟨hk.isEntry, habsent⟩)
  obtain ⟨c, is, _, hc, -, -, -, e⟩ := ImportSource.denotes_iff.1 hk
  have hslots : S.pool.slotsAt k = d.slots := by
    rw [Pool.slotsAt_of_get? hc, ← c.slots_head, ← (Symbol.node.inj e).1, d.slots_head]
  rwa [List.map_singleton, List.sum_singleton, hslots] at hsize

theorem Covered.enter (h : Covered S g) {k : UInt16} {d : Constant} {key : Bytes}
    (hd : Copies S k g.source d) (hkey : d.encode = .ok key) (hnew : g.indices[key]? = none)
    (hfit : g.pool.size + d.slots < 0xFFFF) :
    Covered S (g.enter d key) ∧ SameSymbol S k (g.enter d key).source g.next := by
  have hle := g.le_enter d key
  obtain ⟨js, parts, hjs, hparts, hk⟩ := hd.denotes
  have hnext : SameSymbol S k (g.enter d key).source g.next :=
    ⟨_, hk, ImportSource.denotes_iff.2 ⟨d, js, parts, Pool.get?_append_next hfit, hd.usable,
      ImportSource.references?_mono hle hjs, hparts.imp fun _ _ => .mono hle, rfl⟩⟩
  refine ⟨⟨h.consistent.enter hd.usable hkey hnew hfit, ?_, ?_⟩, hnext⟩
  · rintro i ⟨c, hc, hu⟩
    rcases Pool.get?_append_cases hfit hc with hc | ⟨rfl, rfl⟩ | rfl
    · obtain ⟨l, hl⟩ := h.entries i ⟨c, hc, hu⟩
      exact ⟨l, hl.mono hle⟩
    · exact ⟨k, hnext⟩
    · cases hu
  · intro l m hm
    obtain ⟨l', b, hb, hsame⟩ := h.methods l m hm
    exact ⟨l', b, hb, hsame.mono hle⟩

theorem Covered.bootstrap_room (h : Covered S g) {l : Nat} {b m : BootstrapMethod}
    (hb : S.bootstrap[l]? = some b) (hm : SameMethod S b g.source m)
    (hnew : g.bootstrapIndices[m]? = none) : g.bootstrap.size + 1 ≤ S.bootstrap.size := by
  obtain ⟨entry, method, hembeds⟩ := h.embedsIn
  have habsent (k : Nat) (hk : k < g.bootstrap.size) : method k ≠ l := by
    rintro rfl
    have hget := Array.getElem?_eq_getElem hk
    obtain ⟨b', hb', hsame⟩ := hembeds.sameMethod k _ hget
    cases hb.symm.trans hb'
    have hfits := h.consistent.bootstrapFits
    rw [h.consistent.sameMethod_unique hsame hm,
      ← toNat_unit (n := k) (by omega), ← h.consistent.bootstrapIndexed, hnew] at hget
    cases hget
  have hl := (Array.getElem?_eq_some_iff.1 hb).choose
  exact hembeds.bootstrap_size_add_le (List.nodup_singleton l) (by simpa using ⟨hl, habsent⟩)

theorem Covered.enterBootstrap (h : Covered S g) {l : Nat} {b m : BootstrapMethod}
    (hb : S.bootstrap[l]? = some b) (hm : SameMethod S b g.source m)
    (hnew : g.bootstrapIndices[m]? = none) (hfit : g.bootstrap.size < 0x10000) :
    Covered S (g.enterBootstrap m) := by
  have hle := g.le_enterBootstrap m
  refine ⟨h.consistent.enterBootstrap hnew hfit, fun i hi => ?_, fun k m' hm' => ?_⟩
  · obtain ⟨k, hk⟩ := h.entries i hi
    exact ⟨k, hk.mono hle⟩
  · change (g.bootstrap.push m)[k]? = some m' at hm'
    rw [Array.getElem?_push] at hm'
    split at hm'
    · cases hm'
      exact ⟨l, b, hb, hm.mono hle⟩
    · obtain ⟨l', b', hb', hsame⟩ := h.methods k m' hm'
      exact ⟨l', b', hb', hsame.mono hle⟩

/-- A request for one entry or one bootstrap method was answered. -/
inductive Step (g g' : GrowingPool) : Prop where
  | entry {c : Constant} {i : UInt16} (h : Grow.add c g = .ok i g')
  | method {m : BootstrapMethod} {i : UInt16} (h : Grow.bootstrapMethod m g = .ok i g')

/-- The pool was filled by single requests, and after each of them it was a part of `S`. -/
def FilledFrom (S : ImportSource) : GrowingPool → Prop :=
  Relation.ReflTransGen (fun g g' => g.Step g' ∧ g'.source.EmbedsIn S) empty

/-- What holds of a pool all the time while it is filled from `S`. -/
structure Filling (S : ImportSource) (g : GrowingPool) : Prop where
  covered : Covered S g
  filled : FilledFrom S g

theorem filling_empty : Filling S empty := ⟨covered_empty, .refl⟩

theorem Filling.step {g' : GrowingPool} (h : Filling S g) (hstep : g.Step g')
    (hcovered : Covered S g') : Filling S g' :=
  ⟨hcovered, h.filled.tail ⟨hstep, hcovered.embedsIn⟩⟩

/-- The pool still has room for an entry of `S`. -/
theorem Filling.runs_add (h : Filling S g) (hS : S.pool.IsReadable) {k : UInt16} {d : Constant}
    (hd : Copies S k g.source d) :
    Runs source (Filling S) (fun e => e.isFull = false) (Grow.add d) g
      fun j g' => SameSymbol S k g'.source j := by
  have hcovered := h.covered
  refine Grow.runs_add h (fun key i hkey hi => ?_) (fun key hkey hnew hfit => ?_) (fun e he => ?_)
    fun key hkey hnew hfull => ?_
  · obtain ⟨c, hc, hu, hckey⟩ := (hcovered.consistent.indexed key i).1 hi
    obtain ⟨js, parts, hjs, hparts, hk⟩ := hd.denotes
    have hdr := (d.isReadable_head).1 (hk.isReadable hS)
    cases Constant.eq_of_encode_eq (hcovered.isReadable hS hc hu) hdr hckey hkey
    exact ⟨_, hk, ImportSource.denotes_iff.2 ⟨d, js, parts, hc, hu, hjs, hparts, rfl⟩⟩
  · obtain ⟨hcovered', hnext⟩ := hcovered.enter hd hkey hnew hfit
    have hstep := Grow.add_eq_ok.2 ⟨key, hkey, .inr ⟨hnew, hfit, rfl, rfl⟩⟩
    exact ⟨h.step (.entry hstep) hcovered', hnext⟩
  · exact Constant.isFull_of_encode he
  · have hroom := hcovered.room hS.isSpread hd hkey hnew
    have hsize := hS.1
    omega

/-- The table still has room for a bootstrap method of `S`. -/
theorem Filling.runs_bootstrapMethod (h : Filling S g) (hS : S.bootstrap.size ≤ 0x10000) {l : Nat}
    {b m : BootstrapMethod} (hb : S.bootstrap[l]? = some b) (hm : SameMethod S b g.source m) :
    Runs source (Filling S) (fun e => e.isFull = false) (Grow.bootstrapMethod m) g
      fun k g' => g'.bootstrap[k.toNat]? = some m := by
  have hcovered := h.covered
  refine Grow.runs_bootstrapMethod h (fun k hk => ?_) (fun hnew hfit => ?_) fun hnew hfull => ?_
  · exact (hcovered.consistent.bootstrapIndexed m k).1 hk
  · have hstep := Grow.bootstrapMethod_eq_ok.2 (.inr ⟨hnew, hfit, rfl, rfl⟩)
    exact ⟨h.step (.method hstep) (hcovered.enterBootstrap hb hm hnew hfit),
      getElem?_enterBootstrap hfit m⟩
  · have hroom := hcovered.bootstrap_room hb hm hnew
    omega

/-- Whatever is copied out of `S` has room, wherever nothing else was entered. -/
theorem copying_filling (hS : S.pool.IsReadable) (hb : S.bootstrap.size ≤ 0x10000) :
    Copying S (Filling S) (fun e => e.isFull = false) fun G i j => SameSymbol S i G j where
  mono _ _ _ _ hle h := h.mono hle
  entry i c d g hc hu hg hd := by
    obtain ⟨is, js, parts, his, hjs, hparts, hparts'⟩ := hd.denotes
    refine hg.runs_add hS ⟨?_, js, parts, hjs, hparts', ImportSource.denotes_iff.2
      ⟨c, is, parts, hc, hu, his, hparts, by rw [hd.head]⟩⟩
    rw [← d.isUnusable_head, hd.head, c.isUnusable_head, hu]
  method m b b' g hm hg hmethod harguments :=
    hg.runs_bootstrapMethod hb hm ⟨hmethod, harguments⟩
  malformed _ _ := rfl
  unexpected _ _ := rfl

end GrowingPool

end JvmClass
