import JvmClass.Proofs.Pool.Growth

/-!
# Imported entries

An import that succeeds finds an entry that stands for a symbol, and hands out an index that
stands for it in the growing pool (`importEntry_spec`). What it does to the pool depends on that
symbol alone, so entries of different pools that stand for the same are imported alike
(`importEntry_again`).
-/

namespace JvmClass

namespace Constant

/-- The entry with other references, and with another bootstrap method if it has one. -/
def relocated : Constant → (bootstrap : UInt16) → List UInt16 → Constant
  | classRef _, _, [i] => classRef i
  | stringRef _, _, [i] => stringRef i
  | fieldRef .., _, [i, j] => fieldRef i j
  | methodRef .., _, [i, j] => methodRef i j
  | interfaceMethodRef .., _, [i, j] => interfaceMethodRef i j
  | nameAndType .., _, [i, j] => nameAndType i j
  | methodHandle kind _, _, [i] => methodHandle kind i
  | methodType _, _, [i] => methodType i
  | dynamic .., m, [i] => dynamic m i
  | invokeDynamic .., m, [i] => invokeDynamic m i
  | moduleRef _, _, [i] => moduleRef i
  | packageRef _, _, [i] => packageRef i
  | c, _, _ => c

/-- Entries whose references are followed at once, as texts. -/
def isNaming : Constant → Bool
  | classRef _ | nameAndType .. | methodType _ | moduleRef _ | packageRef _ => true
  | _ => false

theorem relocated_spec {c : Constant} {is : List UInt16} (h : is.length = c.references.length)
    (m : UInt16) :
    (c.relocated m is).references = is ∧ (c.relocated m is).head = c.head ∧
      (c.relocated m is).bootstrap? = c.bootstrap?.map (fun _ => m) ∧
      (c.IsReadable → (c.relocated m is).IsReadable) := by
  match is with
  | [] => cases c <;> first | exact ⟨rfl, rfl, rfl, id⟩ | cases h
  | [i] => cases c <;> first | exact ⟨rfl, rfl, rfl, id⟩ | cases h
  | [i, j] => cases c <;> first | exact ⟨rfl, rfl, rfl, id⟩ | cases h
  | i :: j :: k :: is => cases c <;> simp [references] at h

/-- Entries that differ in their references only are relocated to the same entry. -/
theorem relocated_congr {c d : Constant} (h : c.head = d.head) (m : UInt16) {is : List UInt16}
    (hl : is.length = c.references.length) : c.relocated m is = d.relocated m is := by
  cases c <;> cases d <;> cases h <;> match is with
    | [] => first | rfl | cases hl
    | [i] => first | rfl | cases hl
    | [i, j] => first | rfl | cases hl
    | i :: j :: k :: is => simp [references] at hl

theorem isNaming_head (c : Constant) : c.head.isNaming = c.isNaming := by
  cases c <;> rfl

theorem isUnusable_head (c : Constant) : c.head.isUnusable = c.isUnusable := by
  cases c <;> rfl

theorem isSome_bootstrap?_head (c : Constant) : c.head.bootstrap?.isSome = c.bootstrap?.isSome := by
  cases c <;> rfl

theorem length_references_head (c : Constant) : c.head.references.length = c.references.length := by
  cases c <;> rfl

end Constant

namespace Grow

/-- A text of another pool. -/
def importText (S : ImportSource) (i : UInt16) : Grow UInt16 := do
  text (← ofExcept (S.pool.text i))

/-- How the entries that an entry refers to are imported. -/
def importReference (S : ImportSource) (budget : Nat) (naming : Bool) : UInt16 → Grow UInt16 :=
  if naming then importText S else importWithin S budget

theorem importText_eq_ok {S : ImportSource} {i j : UInt16} {g g' : GrowingPool} :
    importText S i g = .ok j g' ↔ ∃ s, S.pool.text i = .ok s ∧ text s g = .ok j g' := by
  unfold importText
  rw [bind_eq_ok]
  simp only [ofExcept_eq_ok]
  exact ⟨fun ⟨s, _, ⟨hs, rfl⟩, h⟩ => ⟨s, hs, h⟩, fun ⟨s, hs, h⟩ => ⟨s, g, ⟨hs, rfl⟩, h⟩⟩

end Grow

theorem forall₂_of_mapM_eq_ok {ε σ α β : Type} {f : α → EStateM ε σ β} {as : List α} {bs : List β}
    {s t : σ} (h : as.mapM f s = .ok bs t) :
    List.Forall₂ (fun a b => ∃ u v, f a u = .ok b v) as bs := by
  induction as generalizing bs s with
  | nil =>
    obtain ⟨rfl, rfl⟩ := pure_eq_ok.1 h
    exact .nil
  | cons a as ih =>
    rw [List.mapM_cons] at h
    obtain ⟨b, u, hb, h⟩ := bind_eq_ok.1 h
    obtain ⟨rest, v, hrest, h⟩ := bind_eq_ok.1 h
    obtain ⟨rfl, rfl⟩ := pure_eq_ok.1 h
    exact .cons ⟨s, u, hb⟩ (ih hrest)

theorem length_of_mapM_eq_ok {ε σ α β : Type} {f : α → EStateM ε σ β} {as : List α} {bs : List β}
    {s t : σ} (h : as.mapM f s = .ok bs t) : bs.length = as.length :=
  (forall₂_of_mapM_eq_ok h).length_eq.symm

theorem Pool.text_eq_ok {p : Pool} {i : UInt16} {s : String} :
    p.text i = .ok s ↔ p.get? i = some (.utf8 s) := by
  unfold text
  rw [exceptBind_eq_ok]
  simp only [get_eq_ok]
  constructor
  · rintro ⟨c, hc, h⟩
    cases c <;> cases h
    exact hc
  · intro h
    exact ⟨_, h, rfl⟩

namespace Grow

section Step

variable {S : ImportSource} {n : Nat} {i j : UInt16} {c : Constant} {g g' : GrowingPool}

theorem get?_of_importWithin (h : importWithin S (n + 1) i g = .ok j g') :
    ∃ c, S.pool.get? i = some c ∧ c.isUnusable = false := by
  rw [importWithin] at h
  obtain ⟨c, _, hc, h⟩ := bind_eq_ok.1 h
  refine ⟨c, Pool.get_eq_ok.1 (ofExcept_eq_ok.1 hc).1, ?_⟩
  cases c with
  | unusable => cases h
  | _ => rfl

/-- The import of an entry that is not dynamic: its references one by one, then the entry. -/
theorem importWithin_plain (hc : S.pool.get? i = some c) (hu : c.isUnusable = false)
    (hb : c.bootstrap? = none) :
    importWithin S (n + 1) i g = .ok j g' ↔
      (do add (c.relocated 0 (← c.references.mapM (importReference S n c.isNaming)))) g =
        .ok j g' := by
  rw [importWithin, bind_run (ofExcept_eq_ok.2 ⟨Pool.get_eq_ok.2 hc, rfl⟩)]
  cases c with
  | unusable => cases hu
  | dynamic | invokeDynamic => cases hb
  | nameAndType a b =>
    -- both texts are read before the first is entered, which shows on failure only
    simp only [Constant.references, Constant.isNaming, importReference, if_true, List.mapM_cons,
      List.mapM_nil, bind_eq_ok, pure_eq_ok, ofExcept_eq_ok, importText_eq_ok, nameAndType,
      existsAndEq, and_true, true_and, Constant.relocated]
    constructor
    · rintro ⟨s, hs, t, ht, x, g1, hx, y, g2, hy, h⟩
      exact ⟨g2, x, g1, y, ⟨⟨s, hs, hx⟩, t, ht, hy⟩, h⟩
    · rintro ⟨g2, x, g1, y, ⟨⟨s, hs, hx⟩, t, ht, hy⟩, h⟩
      exact ⟨s, hs, t, ht, x, g1, hx, y, g2, hy, h⟩
  | _ =>
    simp [Constant.references, Constant.relocated, importReference, Constant.isNaming, importText,
      text, integer, float, long, double, classRef, methodType, moduleRef, packageRef,
      methodHandle]

/-- The import of a dynamic entry: its bootstrap method first. -/
theorem importWithin_dynamic {m : UInt16} (hc : S.pool.get? i = some c)
    (hb : c.bootstrap? = some m) :
    importWithin S (n + 1) i g = .ok j g' ↔ ∃ b, S.bootstrap[m.toNat]? = some b ∧
      (do
        let handle ← importWithin S n b.method
        let arguments ← b.arguments.mapM (importWithin S n)
        let k ← bootstrapMethod ⟨handle, arguments⟩
        add (c.relocated k (← c.references.mapM (importWithin S n)))) g = .ok j g' := by
  rw [importWithin, bind_run (ofExcept_eq_ok.2 ⟨Pool.get_eq_ok.2 hc, rfl⟩)]
  cases c with
  | dynamic m' a | invokeDynamic m' a =>
    cases hb
    cases hm : S.bootstrap[m.toNat]? with
    | none => simp [hm, throw_ne_ok]
    | some b => simp [hm, Constant.references, Constant.relocated]
  | _ => cases hb

end Step

/-! ## Imports stand for the same -/

end Grow

/-- All entries of a pool can be read back, and what they stand for has the property `P`. -/
structure ImportSource.Supplies (S : ImportSource) (P : Symbol → Prop) : Prop where
  readable : ∀ i c, S.pool.get? i = some c → c.isUnusable = false → c.IsReadable
  symbols : ∀ i t, S.Denotes i t → P t

namespace Grow

/-- Where `f` succeeds on an entry, it only grows the pool, and hands out an index that stands for
the same. -/
def Imports (P : Symbol → Prop) (S : ImportSource) (depth : Nat) (f : UInt16 → Grow UInt16) :
    Prop :=
  ∀ i g j g', g.Inv P → f i g = .ok j g' → g.Grows P g' ∧
    ∃ t, S.symbol? depth i = some t ∧ g'.source.symbol? depth j = some t

section Faithful

variable {P : Symbol → Prop} {S : ImportSource} {depth n : Nat}

theorem Imports.mapM {f : UInt16 → Grow UInt16} (hf : Imports P S depth f) {is js : List UInt16}
    {g g' : GrowingPool} (hg : g.Inv P) (h : is.mapM f g = .ok js g') :
    g.Grows P g' ∧ ∃ ts, is.mapM (S.symbol? depth) = some ts ∧
      js.mapM (g'.source.symbol? depth) = some ts := by
  induction is generalizing js g with
  | nil =>
    obtain ⟨rfl, rfl⟩ := pure_eq_ok.1 h
    exact ⟨.refl hg, [], rfl, rfl⟩
  | cons i is ih =>
    rw [List.mapM_cons] at h
    obtain ⟨j, g1, hi, h⟩ := bind_eq_ok.1 h
    obtain ⟨js, g2, his, h⟩ := bind_eq_ok.1 h
    obtain ⟨rfl, rfl⟩ := pure_eq_ok.1 h
    obtain ⟨grows, t, ht, ht'⟩ := hf i g j g1 hg hi
    obtain ⟨grows', ts, hts, hts'⟩ := ih grows.inv his
    have hj := ImportSource.symbol?_mono grows'.le (Nat.le_refl depth) ht'
    exact ⟨grows.trans grows', t :: ts, mapM_eq_some_cons.2 ⟨t, ts, ht, hts, rfl⟩,
      mapM_eq_some_cons.2 ⟨t, ts, hj, hts', rfl⟩⟩

variable (hS : S.Supplies P)

include hS

theorem imports_importText (n : Nat) : Imports P S (n + 1) (importText S) := by
  intro i g j g' hg h
  obtain ⟨s, hs, h⟩ := importText_eq_ok.1 h
  have ht : S.symbol? (n + 1) i = some (.text s) :=
    ImportSource.symbol?_eq_text_iff.2 (Pool.text_eq_ok.1 hs)
  obtain ⟨grows, hj, -⟩ := text_spec hg (hS.symbols i _ ⟨n + 1, ht⟩) h
  exact ⟨grows, _, ht, ImportSource.symbol?_eq_text_iff.2 hj⟩

theorem imports_plain (ih : Imports P S (n + 1) (importWithin S n)) {i j : UInt16} {c : Constant}
    {g g' : GrowingPool} (hc : S.pool.get? i = some c) (hu : c.isUnusable = false)
    (hb : c.bootstrap? = none) (hg : g.Inv P) (h : importWithin S (n + 1) i g = .ok j g') :
    g.Grows P g' ∧
      ∃ t, S.symbol? (n + 2) i = some t ∧ g'.source.symbol? (n + 2) j = some t := by
  have hreference : Imports P S (n + 1) (importReference S n c.isNaming) := by
    unfold importReference
    split
    · exact imports_importText hS n
    · exact ih
  obtain ⟨js, g1, hm, hadd⟩ := bind_eq_ok.1 ((importWithin_plain hc hu hb).1 h)
  obtain ⟨grows, parts, hparts, hparts'⟩ := hreference.mapM hg hm
  have hlen : js.length = c.references.length :=
    (length_of_mapM_eq_some hparts').symm.trans (length_of_mapM_eq_some hparts)
  obtain ⟨hrefs, hhead, hboot, hread⟩ := Constant.relocated_spec hlen 0
  have ht : S.symbol? (n + 2) i = some (.node c.head parts) :=
    ImportSource.symbol?_succ_eq_some_iff.2 ⟨c, hc, ImportSource.symbolOf?_plain hu hb hparts⟩
  have hr := hread (hS.readable i c hc hu)
  have hs : g1.source.symbolOf? (g1.source.symbol? (n + 1)) (c.relocated 0 js) =
      some (.node c.head parts) := by
    rw [← hhead]
    refine ImportSource.symbolOf?_plain (Constant.isUnusable_of_isReadable hr) ?_ ?_
    · rw [hboot, hb, Option.map_none]
    · rw [hrefs, hparts']
  obtain ⟨grows', -, ht'⟩ := add_spec grows.inv hr hs (hS.symbols i _ ⟨_, ht⟩) hadd
  exact ⟨grows.trans grows', _, ht, ht'⟩

theorem imports_dynamic (ih : Imports P S (n + 1) (importWithin S n)) {i j m : UInt16}
    {c : Constant} {g g' : GrowingPool} (hc : S.pool.get? i = some c) (hu : c.isUnusable = false)
    (hb : c.bootstrap? = some m) (hg : g.Inv P) (h : importWithin S (n + 1) i g = .ok j g') :
    g.Grows P g' ∧
      ∃ t, S.symbol? (n + 2) i = some t ∧ g'.source.symbol? (n + 2) j = some t := by
  obtain ⟨b, hm, h⟩ := (importWithin_dynamic hc hb).1 h
  obtain ⟨handle, g1, h1, h⟩ := bind_eq_ok.1 h
  obtain ⟨arguments, g2, h2, h⟩ := bind_eq_ok.1 h
  obtain ⟨k, g3, h3, h⟩ := bind_eq_ok.1 h
  obtain ⟨js, g4, h4, hadd⟩ := bind_eq_ok.1 h
  obtain ⟨grows1, t1, ht1, hs1⟩ := ih _ _ _ _ hg h1
  obtain ⟨grows2, ts2, ht2, hs2⟩ := ih.mapM grows1.inv h2
  obtain ⟨inv3, le3, hk, hnew⟩ := bootstrapMethod_spec grows2.inv h3
  obtain ⟨grows4, ts4, ht4, hs4⟩ := ih.mapM inv3 h4
  have hlen : js.length = c.references.length :=
    (length_of_mapM_eq_some hs4).symm.trans (length_of_mapM_eq_some ht4)
  obtain ⟨hrefs, hhead, hboot, hread⟩ := Constant.relocated_spec hlen k
  have hr := hread (hS.readable i c hc hu)
  have ht : S.symbol? (n + 2) i = some (.node c.head (t1 :: ts2 ++ ts4)) := by
    refine ImportSource.symbol?_succ_eq_some_iff.2 ⟨c, hc, ImportSource.symbolOf?_eq_some_iff.2
      ⟨hu, b.method :: b.arguments ++ c.references, _, ?_, ?_, rfl⟩⟩
    · rw [ImportSource.references?, hb]
      exact Option.map_eq_some_iff.2 ⟨b, hm, rfl⟩
    · exact mapM_eq_some_append.2 ⟨_, _, mapM_eq_some_cons.2 ⟨_, _, ht1, ht2, rfl⟩, ht4, rfl⟩
  -- the bootstrap method keeps its place while the name and type are imported
  have le24 := le_trans le3 grows4.le
  have hs : g4.source.symbolOf? (g4.source.symbol? (n + 1)) (c.relocated k js) =
      some (.node c.head (t1 :: ts2 ++ ts4)) := by
    refine ImportSource.symbolOf?_eq_some_iff.2 ⟨Constant.isUnusable_of_isReadable hr,
      handle :: arguments ++ js, _, ?_, ?_, by rw [hhead]⟩
    · rw [ImportSource.references?, hboot, hb, hrefs]
      exact Option.map_eq_some_iff.2 ⟨_, ImportSource.bootstrap_mono grows4.le hk, rfl⟩
    · refine mapM_eq_some_append.2 ⟨_, _, mapM_eq_some_cons.2 ⟨_, _, ?_, ?_, rfl⟩, hs4, rfl⟩
      · exact ImportSource.symbol?_mono (le_trans grows2.le le24) (Nat.le_refl _) hs1
      · exact mapM_mono (fun a t => ImportSource.symbol?_mono le24 (Nat.le_refl _)) hs2
  obtain ⟨grows5, hj, ht'⟩ := add_spec grows4.inv hr hs (hS.symbols i _ ⟨_, ht⟩) hadd
  refine ⟨⟨grows5.inv, le_trans (le_trans (le_trans grows1.le grows2.le) le24) grows5.le,
    fun l h1 h2 => ?_⟩, _, ht, ht'⟩
  by_cases hl2 : l < g2.bootstrap.size
  · exact ((grows1.trans grows2).uses l h1 hl2).mono (le_trans le24 grows5.le)
  · by_cases hl3 : l < g3.bootstrap.size
    · exact ⟨j, _, k, hj, by rw [hboot, hb, Option.map_some], (hnew l (by omega) hl3).symm⟩
    · exact (grows4.trans grows5).uses l (by omega) h2

theorem imports_importWithin (n : Nat) : Imports P S (n + 1) (importWithin S n) := by
  induction n with
  | zero =>
    intro i g j g' hg h
    exact absurd h throw_ne_ok
  | succ n ih =>
    intro i g j g' hg h
    obtain ⟨c, hc, hu⟩ := get?_of_importWithin h
    cases hb : c.bootstrap? with
    | none => exact imports_plain hS ih hc hu hb hg h
    | some m => exact imports_dynamic hS ih hc hu hb hg h

end Faithful

/-! ## Imports of the same are alike -/

/-- Where `f` succeeds on an entry, `f'` does the same on an entry that stands for the same. -/
def Repeats (S G : ImportSource) (depth : Nat) (f f' : UInt16 → Grow UInt16) : Prop :=
  ∀ i j t g k g', S.symbol? depth i = some t → G.symbol? depth j = some t →
    f i g = .ok k g' → f' j g = .ok k g'

section Again

variable {S G : ImportSource} {depth n : Nat}

theorem Repeats.mapM {f f' : UInt16 → Grow UInt16} (hf : Repeats S G depth f f')
    {is js ks : List UInt16} {ts : List Symbol} {g g' : GrowingPool}
    (his : is.mapM (S.symbol? depth) = some ts) (hjs : js.mapM (G.symbol? depth) = some ts)
    (h : is.mapM f g = .ok ks g') : js.mapM f' g = .ok ks g' := by
  induction is generalizing js ks ts g with
  | nil =>
    obtain rfl := mapM_eq_some_nil.1 his
    cases js with
    | nil => exact h
    | cons j js =>
      obtain ⟨_, _, -, -, e⟩ := mapM_eq_some_cons.1 hjs
      cases e
  | cons i is ih =>
    obtain ⟨t, ts, hi, hrest, rfl⟩ := mapM_eq_some_cons.1 his
    cases js with
    | nil => cases mapM_eq_some_nil.1 hjs
    | cons j js =>
      obtain ⟨_, _, hj, hrest', e⟩ := mapM_eq_some_cons.1 hjs
      cases e
      rw [List.mapM_cons] at h ⊢
      obtain ⟨k, g1, hk, h⟩ := bind_eq_ok.1 h
      obtain ⟨ks, g2, hks, h⟩ := bind_eq_ok.1 h
      obtain ⟨rfl, rfl⟩ := pure_eq_ok.1 h
      rw [bind_run (hf i j t g k g1 hi hj hk), bind_run (ih hrest hrest' hks)]
      exact h

theorem repeats_importText (n : Nat) : Repeats S G (n + 1) (importText S) (importText G) := by
  intro i j t g k g' hi hj h
  obtain ⟨s, hs, h⟩ := importText_eq_ok.1 h
  have ht : S.symbol? (n + 1) i = some (.text s) :=
    ImportSource.symbol?_eq_text_iff.2 (Pool.text_eq_ok.1 hs)
  rw [hi] at ht
  cases ht
  exact importText_eq_ok.2 ⟨s, Pool.text_eq_ok.2 (ImportSource.symbol?_eq_text_iff.1 hj), h⟩

theorem repeats_plain (ih : Repeats S G (n + 1) (importWithin S n) (importWithin G n))
    {i j k : UInt16} {c d : Constant} {parts : List Symbol} {g g' : GrowingPool}
    (hc : S.pool.get? i = some c) (hd : G.pool.get? j = some d) (hu : c.isUnusable = false)
    (hhead : c.head = d.head) (hb : c.bootstrap? = none) (hb' : d.bootstrap? = none)
    (hparts : c.references.mapM (S.symbol? (n + 1)) = some parts)
    (hparts' : d.references.mapM (G.symbol? (n + 1)) = some parts)
    (h : importWithin S (n + 1) i g = .ok k g') : importWithin G (n + 1) j g = .ok k g' := by
  have hn : d.isNaming = c.isNaming := by rw [← d.isNaming_head, ← hhead, c.isNaming_head]
  have hu' : d.isUnusable = false := by rw [← d.isUnusable_head, ← hhead, c.isUnusable_head, hu]
  have hreference : Repeats S G (n + 1) (importReference S n c.isNaming)
      (importReference G n d.isNaming) := by
    rw [hn]
    unfold importReference
    split
    · exact repeats_importText n
    · exact ih
  obtain ⟨ks, g1, hm, hadd⟩ := bind_eq_ok.1 ((importWithin_plain hc hu hb).1 h)
  have hlen := length_of_mapM_eq_ok hm
  refine (importWithin_plain hd hu' hb').2 ?_
  rw [bind_run (hreference.mapM hparts hparts' hm), ← Constant.relocated_congr hhead 0 hlen]
  exact hadd

theorem repeats_dynamic (ih : Repeats S G (n + 1) (importWithin S n) (importWithin G n))
    {i j k m m' : UInt16} {c d : Constant} {is js : List UInt16} {parts : List Symbol}
    {g g' : GrowingPool} (hc : S.pool.get? i = some c) (hd : G.pool.get? j = some d)
    (hhead : c.head = d.head) (hb : c.bootstrap? = some m) (hb' : d.bootstrap? = some m')
    (his : S.references? c = some is) (hjs : G.references? d = some js)
    (hparts : is.mapM (S.symbol? (n + 1)) = some parts)
    (hparts' : js.mapM (G.symbol? (n + 1)) = some parts)
    (h : importWithin S (n + 1) i g = .ok k g') : importWithin G (n + 1) j g = .ok k g' := by
  obtain ⟨b, hm, h⟩ := (importWithin_dynamic hc hb).1 h
  rw [ImportSource.references?, hb] at his
  obtain ⟨_, e, rfl⟩ := Option.map_eq_some_iff.1 his
  cases hm.symm.trans e
  rw [ImportSource.references?, hb'] at hjs
  obtain ⟨b', hm', rfl⟩ := Option.map_eq_some_iff.1 hjs
  have hrefs : c.references.length = d.references.length := by
    rw [← c.length_references_head, hhead, d.length_references_head]
  -- the two lists of parts end alike, so they split alike
  obtain ⟨us, vs, hus, hvs, e⟩ := mapM_eq_some_append.1 hparts
  obtain ⟨us', vs', hus', hvs', e'⟩ := mapM_eq_some_append.1 hparts'
  have hvlen : vs.length = vs'.length := by
    rw [length_of_mapM_eq_some hvs, length_of_mapM_eq_some hvs', hrefs]
  obtain ⟨rfl, rfl⟩ := List.append_inj' (e.symm.trans e') hvlen
  obtain ⟨t, ts, ht, hts, rfl⟩ := mapM_eq_some_cons.1 hus
  obtain ⟨_, _, ht', hts', e⟩ := mapM_eq_some_cons.1 hus'
  cases e
  obtain ⟨handle, g1, h1, h⟩ := bind_eq_ok.1 h
  obtain ⟨arguments, g2, h2, h⟩ := bind_eq_ok.1 h
  obtain ⟨l, g3, h3, h⟩ := bind_eq_ok.1 h
  obtain ⟨ks, g4, h4, hadd⟩ := bind_eq_ok.1 h
  have hlen := length_of_mapM_eq_ok h4
  refine (importWithin_dynamic hd hb').2 ⟨b', hm', ?_⟩
  rw [bind_run (ih _ _ _ _ _ _ ht ht' h1), bind_run (ih.mapM hts hts' h2), bind_run h3,
    bind_run (ih.mapM hvs hvs' h4), ← Constant.relocated_congr hhead l hlen]
  exact hadd

theorem repeats_importWithin (n : Nat) :
    Repeats S G (n + 1) (importWithin S n) (importWithin G n) := by
  induction n with
  | zero =>
    intro i j t g k g' _ _ h
    exact absurd h throw_ne_ok
  | succ n ih =>
    intro i j t g k g' hi hj h
    obtain ⟨c, hc, hc'⟩ := ImportSource.symbol?_succ_eq_some_iff.1 hi
    obtain ⟨d, hd, hd'⟩ := ImportSource.symbol?_succ_eq_some_iff.1 hj
    obtain ⟨hu, is, parts, his, hparts, rfl⟩ := ImportSource.symbolOf?_eq_some_iff.1 hc'
    obtain ⟨-, js, _, hjs, hparts', e⟩ := ImportSource.symbolOf?_eq_some_iff.1 hd'
    obtain ⟨hhead, rfl⟩ := Symbol.node.inj e
    have hsome : d.bootstrap?.isSome = c.bootstrap?.isSome := by
      rw [← d.isSome_bootstrap?_head, ← hhead, c.isSome_bootstrap?_head]
    cases hb : c.bootstrap? with
    | none =>
      have hb' : d.bootstrap? = none := by simpa [hb] using hsome
      rw [ImportSource.references?, hb] at his
      rw [ImportSource.references?, hb'] at hjs
      cases his
      cases hjs
      exact repeats_plain ih hc hd hu hhead hb hb' hparts hparts' h
    | some m =>
      obtain ⟨m', hb'⟩ : ∃ m', d.bootstrap? = some m' :=
        Option.isSome_iff_exists.1 (by rw [hsome, hb, Option.isSome_some])
      exact repeats_dynamic ih hc hd hhead hb hb' his hjs hparts hparts' h

end Again

/-! ## Imports depend on the symbol -/

/-- Where `f` succeeds, the entry stands for something. -/
def Requires (S : ImportSource) (depth : Nat) (f : UInt16 → Grow UInt16) : Prop :=
  ∀ i g j g', f i g = .ok j g' → ∃ t, S.symbol? depth i = some t

section Requires

variable {S : ImportSource} {depth n : Nat}

theorem Requires.mapM {f : UInt16 → Grow UInt16} (hf : Requires S depth f) {is js : List UInt16}
    {g g' : GrowingPool} (h : is.mapM f g = .ok js g') :
    ∃ ts, is.mapM (S.symbol? depth) = some ts := by
  induction is generalizing js g g' with
  | nil => exact ⟨[], rfl⟩
  | cons i is ih =>
    rw [List.mapM_cons] at h
    obtain ⟨j, g1, hi, h⟩ := bind_eq_ok.1 h
    obtain ⟨js, g2, his, -⟩ := bind_eq_ok.1 h
    obtain ⟨t, ht⟩ := hf i g j g1 hi
    obtain ⟨ts, hts⟩ := ih his
    exact ⟨t :: ts, mapM_eq_some_cons.2 ⟨t, ts, ht, hts, rfl⟩⟩

theorem requires_importReference (ih : Requires S (n + 1) (importWithin S n)) (naming : Bool) :
    Requires S (n + 1) (importReference S n naming) := by
  cases naming with
  | false => exact ih
  | true =>
    intro i g j g' h
    obtain ⟨s, hs, -⟩ := importText_eq_ok.1 h
    exact ⟨.text s, ImportSource.symbol?_eq_text_iff.2 (Pool.text_eq_ok.1 hs)⟩

theorem requires_importWithin (n : Nat) : Requires S (n + 1) (importWithin S n) := by
  induction n with
  | zero =>
    intro i g j g' h
    exact absurd h throw_ne_ok
  | succ n ih =>
    intro i g j g' h
    obtain ⟨c, hc, hu⟩ := get?_of_importWithin h
    suffices ∃ is parts, S.references? c = some is ∧
        is.mapM (S.symbol? (n + 1)) = some parts by
      obtain ⟨is, parts, his, hparts⟩ := this
      exact ⟨_, ImportSource.symbol?_succ_eq_some_iff.2 ⟨c, hc,
        ImportSource.symbolOf?_eq_some_iff.2 ⟨hu, is, parts, his, hparts, rfl⟩⟩⟩
    cases hb : c.bootstrap? with
    | none =>
      obtain ⟨js, g1, hm, -⟩ := bind_eq_ok.1 ((importWithin_plain hc hu hb).1 h)
      obtain ⟨parts, hparts⟩ := (requires_importReference ih _).mapM hm
      exact ⟨_, parts, by rw [ImportSource.references?, hb], hparts⟩
    | some m =>
      obtain ⟨b, hm, h⟩ := (importWithin_dynamic hc hb).1 h
      obtain ⟨handle, g1, h1, h⟩ := bind_eq_ok.1 h
      obtain ⟨arguments, g2, h2, h⟩ := bind_eq_ok.1 h
      obtain ⟨k, g3, -, h⟩ := bind_eq_ok.1 h
      obtain ⟨js, g4, h4, -⟩ := bind_eq_ok.1 h
      obtain ⟨t, ht⟩ := ih _ _ _ _ h1
      obtain ⟨ts, hts⟩ := ih.mapM h2
      obtain ⟨us, hus⟩ := ih.mapM h4
      refine ⟨b.method :: b.arguments ++ c.references, t :: ts ++ us, ?_, ?_⟩
      · rw [ImportSource.references?, hb]
        exact Option.map_eq_some_iff.2 ⟨b, hm, rfl⟩
      · exact mapM_eq_some_append.2
          ⟨_, _, mapM_eq_some_cons.2 ⟨_, _, ht, hts, rfl⟩, hus, rfl⟩

end Requires

theorem importEntry_of_corresponds {S S' : ImportSource} {i j : UInt16} (h : Corresponds S i S' j)
    {g g' : GrowingPool} {k : UInt16} (hk : importEntry S i g = .ok k g') :
    importEntry S' j g = .ok k g' := by
  obtain ⟨t, ht⟩ := requires_importWithin _ i g k g' hk
  have ht' := ImportSource.symbol?_of_denotes ht ((h t).1 ⟨_, ht⟩)
  exact repeats_importWithin _ i j t g k g' ht ht' hk

/-! ## Imports into a pool that goes on growing -/

section Import

variable {P : Symbol → Prop} {S : ImportSource} (hS : S.Supplies P) {g g' : GrowingPool}
  (hg : g.Inv P) {i j : UInt16}

include hS hg

/-- An imported entry stands for the same in whatever the pool becomes, and importing it from
there at the same point is the same request. -/
theorem importEntry_spec (h : importEntry S i g = .ok j g') :
    g.Grows P g' ∧ ∀ G, g'.source ≤ G → SameSymbol S i G j ∧ importEntry G j g = .ok j g' := by
  obtain ⟨grows, t, ht, ht'⟩ := imports_importWithin hS _ i g j g' hg h
  refine ⟨grows, fun G hG => ?_⟩
  have hj := ImportSource.symbol?_mono hG (Nat.le_refl _) ht'
  exact ⟨⟨t, ⟨_, ht⟩, ⟨_, hj⟩⟩, repeats_importWithin _ i j t g j g' ht hj h⟩

theorem importOptional_spec (h : importOptional S i g = .ok j g') :
    g.Grows P g' ∧ ∀ G, g'.source ≤ G → SameOptional S i G j ∧ importOptional G j g = .ok j g' := by
  unfold importOptional at h
  split at h
  · rename_i hi
    obtain ⟨rfl, rfl⟩ := pure_eq_ok.1 h
    exact ⟨.refl hg, fun G _ => ⟨by rw [SameOptional, if_pos hi], rfl⟩⟩
  · rename_i hi
    obtain ⟨grows, hG⟩ := importEntry_spec hS hg h
    refine ⟨grows, fun G hle => ?_⟩
    obtain ⟨same, again⟩ := hG G hle
    refine ⟨by rwa [SameOptional, if_neg hi], ?_⟩
    rw [importOptional, if_neg, again]
    rintro rfl
    obtain ⟨t, -, depth, ht⟩ := same
    cases depth with
    | zero => cases ht
    | succ depth => cases ht

end Import

end Grow

end JvmClass
