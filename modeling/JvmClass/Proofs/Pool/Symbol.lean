import JvmClass.Pool.Import
import Mathlib.Data.List.Forall2
import Mathlib.Order.Defs.PartialOrder

/-!
# What an entry stands for

An entry is made of data and of references to other entries. `Symbol` is the entry with its
references followed: the data, and what the references stand for, the bootstrap method of a
dynamic entry included. Entries of two pools that stand for one symbol mean the same, wherever
they stand. References are followed to a given depth, so an entry that reaches itself stands for
nothing.
-/

namespace JvmClass

/-- An entry without its references, and what these stand for. The parts of a dynamic entry are
its bootstrap method, the arguments of that, and its name and type. -/
inductive Symbol where
  | node (head : Constant) (parts : List Symbol)

/-- What a text stands for. -/
def Symbol.text (s : String) : Symbol := .node (.utf8 s) []

namespace Constant

/-- The entry with all references set to zero: its kind, its text or its bits. -/
def head : Constant → Constant
  | classRef _ => classRef 0
  | stringRef _ => stringRef 0
  | fieldRef .. => fieldRef 0 0
  | methodRef .. => methodRef 0 0
  | interfaceMethodRef .. => interfaceMethodRef 0 0
  | nameAndType .. => nameAndType 0 0
  | methodHandle kind _ => methodHandle kind 0
  | methodType _ => methodType 0
  | dynamic .. => dynamic 0 0
  | invokeDynamic .. => invokeDynamic 0 0
  | moduleRef _ => moduleRef 0
  | packageRef _ => packageRef 0
  | c => c

/-- The entries an entry refers to. -/
def references : Constant → List UInt16
  | classRef i | stringRef i | methodHandle _ i | methodType i | moduleRef i | packageRef i => [i]
  | fieldRef i j | methodRef i j | interfaceMethodRef i j | nameAndType i j => [i, j]
  | dynamic _ i | invokeDynamic _ i => [i]
  | _ => []

/-- The bootstrap method of a dynamic entry. -/
def bootstrap? : Constant → Option UInt16
  | dynamic m _ | invokeDynamic m _ => some m
  | _ => none

end Constant

namespace ImportSource

/-- All that an entry refers to, also through its bootstrap method. -/
def references? (S : ImportSource) (c : Constant) : Option (List UInt16) :=
  match c.bootstrap? with
  | none => some c.references
  | some m => (S.bootstrap[m.toNat]?).map fun b => b.method :: b.arguments ++ c.references

/-- What an entry stands for, given what the entries it refers to stand for. -/
def symbolOf? (S : ImportSource) (part? : UInt16 → Option Symbol) (c : Constant) :
    Option Symbol :=
  if c.isUnusable then none
  else do
    let parts ← (← S.references? c).mapM part?
    return .node c.head parts

/-- What the entry at an index stands for, its references followed less than `depth` deep. -/
def symbol? (S : ImportSource) : (depth : Nat) → UInt16 → Option Symbol
  | 0, _ => none
  | depth + 1, i => (S.pool.get? i).bind (S.symbolOf? (S.symbol? depth))

/-- The entry at `i` stands for `t`. -/
def Denotes (S : ImportSource) (i : UInt16) (t : Symbol) : Prop :=
  ∃ depth, S.symbol? depth i = some t

end ImportSource

/-- The entries at `i` in one pool and at `j` in another stand for the same. -/
def SameSymbol (S : ImportSource) (i : UInt16) (S' : ImportSource) (j : UInt16) : Prop :=
  ∃ t, S.Denotes i t ∧ S'.Denotes j t

/-- An index that may be zero, for none. -/
def SameOptional (S : ImportSource) (i : UInt16) (S' : ImportSource) (j : UInt16) : Prop :=
  if i = 0 then j = 0 else SameSymbol S i S' j

/-- The entries at `i` in one pool and at `j` in another stand for the same, or neither stands for
anything. -/
def Corresponds (S : ImportSource) (i : UInt16) (S' : ImportSource) (j : UInt16) : Prop :=
  ∀ t, S.Denotes i t ↔ S'.Denotes j t

/-- Indices that may be zero, for none, agree if both are. -/
def CorrespondsOptional (S : ImportSource) (i : UInt16) (S' : ImportSource) (j : UInt16) : Prop :=
  (i = 0 ↔ j = 0) ∧ Corresponds S i S' j

/-! ## Optional results of lists -/

theorem mapM_eq_some_nil {α β : Type} {f : α → Option β} {bs : List β} :
    [].mapM f = some bs ↔ bs = [] := by
  simp [eq_comm]

theorem mapM_eq_some_cons {α β : Type} {f : α → Option β} {a : α} {as : List α} {bs : List β} :
    (a :: as).mapM f = some bs ↔
      ∃ b rest, f a = some b ∧ as.mapM f = some rest ∧ bs = b :: rest := by
  rw [List.mapM_cons]
  simp only [Option.bind_eq_bind, Option.bind_eq_some_iff, Option.pure_def, Option.some.injEq]
  grind

theorem mapM_mono {α β : Type} {f f' : α → Option β} (h : ∀ a b, f a = some b → f' a = some b)
    {as : List α} {bs : List β} (hs : as.mapM f = some bs) : as.mapM f' = some bs := by
  induction as generalizing bs with
  | nil => exact hs
  | cons a as ih =>
    obtain ⟨b, rest, hb, hr, rfl⟩ := mapM_eq_some_cons.1 hs
    exact mapM_eq_some_cons.2 ⟨b, rest, h a b hb, ih hr, rfl⟩

theorem length_of_mapM_eq_some {α β : Type} {f : α → Option β} {as : List α} {bs : List β}
    (h : as.mapM f = some bs) : bs.length = as.length := by
  induction as generalizing bs with
  | nil => rw [mapM_eq_some_nil.1 h, List.length_nil, List.length_nil]
  | cons a as ih =>
    obtain ⟨b, rest, -, hr, rfl⟩ := mapM_eq_some_cons.1 h
    rw [List.length_cons, ih hr, List.length_cons]

theorem mapM_eq_some_append {α β : Type} {f : α → Option β} {as as' : List α} {bs : List β} :
    (as ++ as').mapM f = some bs ↔
      ∃ cs ds, as.mapM f = some cs ∧ as'.mapM f = some ds ∧ bs = cs ++ ds := by
  rw [List.mapM_append]
  simp only [Option.bind_eq_bind, Option.bind_eq_some_iff, Option.pure_def, Option.some.injEq]
  grind

/-! ## Larger pools -/

/-- A pool whose first slots are those of another, with the same for bootstrap methods. -/
instance : Preorder ImportSource where
  le S G := S.pool.slots.toList <+: G.pool.slots.toList ∧ S.bootstrap.toList <+: G.bootstrap.toList
  le_refl S := ⟨List.prefix_rfl, List.prefix_rfl⟩
  le_trans S G H h h' := ⟨h.1.trans h'.1, h.2.trans h'.2⟩

theorem getElem?_of_le {α : Type} {as bs : List α} (h : as <+: bs) {k : Nat} {a : α}
    (ha : as[k]? = some a) : bs[k]? = some a := by
  obtain ⟨rest, rfl⟩ := h
  have hk : k < as.length := (List.getElem?_eq_some_iff.1 ha).choose
  rw [List.getElem?_append_left hk, ha]

namespace ImportSource

variable {S G : ImportSource}

theorem get?_mono (h : S ≤ G) {i : UInt16} {c : Constant} (hc : S.pool.get? i = some c) :
    G.pool.get? i = some c := by
  rw [Pool.get?_eq_some_iff] at hc ⊢
  exact ⟨hc.1, getElem?_of_le h.1 hc.2⟩

theorem bootstrap_mono (h : S ≤ G) {k : Nat} {m : BootstrapMethod}
    (hm : S.bootstrap[k]? = some m) : G.bootstrap[k]? = some m := by
  rw [← Array.getElem?_toList] at hm ⊢
  exact getElem?_of_le h.2 hm

theorem references?_mono (h : S ≤ G) {c : Constant} {is : List UInt16}
    (hc : S.references? c = some is) : G.references? c = some is := by
  unfold references? at hc ⊢
  split
  · simpa [*] using hc
  · rename_i m hm
    rw [hm] at hc
    obtain ⟨b, hb, rfl⟩ := Option.map_eq_some_iff.1 hc
    exact Option.map_eq_some_iff.2 ⟨b, bootstrap_mono h hb, rfl⟩

theorem symbolOf?_eq_some_iff {part? : UInt16 → Option Symbol} {c : Constant} {t : Symbol} :
    S.symbolOf? part? c = some t ↔ c.isUnusable = false ∧
      ∃ is parts, S.references? c = some is ∧ is.mapM part? = some parts ∧
        t = .node c.head parts := by
  unfold symbolOf?
  split
  · simp [*]
  · rename_i h
    simp only [Option.bind_eq_bind, Option.bind_eq_some_iff, Option.pure_def, Option.some.injEq]
    grind

theorem symbolOf?_plain {part? : UInt16 → Option Symbol} {c : Constant} {parts : List Symbol}
    (hu : c.isUnusable = false) (hb : c.bootstrap? = none)
    (hm : c.references.mapM part? = some parts) : S.symbolOf? part? c = some (.node c.head parts) :=
  symbolOf?_eq_some_iff.2 ⟨hu, c.references, parts, by rw [references?, hb], hm, rfl⟩

theorem symbol?_succ_eq_some_iff {depth : Nat} {i : UInt16} {t : Symbol} :
    S.symbol? (depth + 1) i = some t ↔
      ∃ c, S.pool.get? i = some c ∧ S.symbolOf? (S.symbol? depth) c = some t := by
  rw [symbol?, Option.bind_eq_some_iff]

theorem symbolOf?_mono (h : S ≤ G) {part? part?' : UInt16 → Option Symbol}
    (hp : ∀ i t, part? i = some t → part?' i = some t) {c : Constant} {t : Symbol}
    (hc : S.symbolOf? part? c = some t) : G.symbolOf? part?' c = some t := by
  obtain ⟨hu, is, parts, hi, hm, rfl⟩ := symbolOf?_eq_some_iff.1 hc
  exact symbolOf?_eq_some_iff.2 ⟨hu, is, parts, references?_mono h hi, mapM_mono hp hm, rfl⟩

theorem symbol?_eq_text_iff {depth : Nat} {i : UInt16} {s : String} :
    S.symbol? (depth + 1) i = some (.text s) ↔ S.pool.get? i = some (.utf8 s) := by
  rw [symbol?_succ_eq_some_iff]
  constructor
  · rintro ⟨c, hc, h⟩
    obtain ⟨-, -, parts, -, -, e⟩ := symbolOf?_eq_some_iff.1 h
    cases c <;> cases e
    exact hc
  · intro h
    exact ⟨_, h, symbolOf?_plain rfl rfl rfl⟩

/-- Neither a larger pool nor a greater depth changes what an entry stands for. -/
theorem symbol?_mono (h : S ≤ G) {depth depth' : Nat} (hd : depth ≤ depth') {i : UInt16}
    {t : Symbol} (ht : S.symbol? depth i = some t) : G.symbol? depth' i = some t := by
  induction depth generalizing depth' i t with
  | zero => cases ht
  | succ depth ih =>
    obtain ⟨c, hc, ht⟩ := symbol?_succ_eq_some_iff.1 ht
    obtain ⟨depth', rfl⟩ :=
      Nat.exists_eq_add_of_le' (Nat.le_trans (Nat.succ_le_succ depth.zero_le) hd)
    refine symbol?_succ_eq_some_iff.2 ⟨c, get?_mono h hc, symbolOf?_mono h (fun j u hu => ?_) ht⟩
    exact ih (Nat.le_of_succ_le_succ hd) hu

theorem Denotes.mono (h : S ≤ G) {i : UInt16} {t : Symbol} (ht : S.Denotes i t) :
    G.Denotes i t := by
  obtain ⟨depth, ht⟩ := ht
  exact ⟨depth, symbol?_mono h (Nat.le_refl depth) ht⟩

theorem Denotes.unique {i : UInt16} {t t' : Symbol} (ht : S.Denotes i t) (ht' : S.Denotes i t') :
    t = t' := by
  obtain ⟨depth, ht⟩ := ht
  obtain ⟨depth', ht'⟩ := ht'
  have h := symbol?_mono (le_refl S) (Nat.le_max_left depth depth') ht
  rw [symbol?_mono (le_refl S) (Nat.le_max_right depth depth') ht'] at h
  exact (Option.some.inj h).symm

theorem exists_mapM_symbol? {is : List UInt16} {ts : List Symbol}
    (h : List.Forall₂ S.Denotes is ts) : ∃ depth, is.mapM (S.symbol? depth) = some ts := by
  induction h with
  | nil => exact ⟨0, rfl⟩
  | @cons i t is ts hi his ih =>
    obtain ⟨d, hi⟩ := hi
    obtain ⟨depth, hts⟩ := ih
    refine ⟨max d depth, mapM_eq_some_cons.2 ⟨t, ts, ?_, ?_, rfl⟩⟩
    · exact symbol?_mono (le_refl S) (Nat.le_max_left d depth) hi
    · exact mapM_mono (fun j u => symbol?_mono (le_refl S) (Nat.le_max_right d depth))
        hts

/-- An entry that stands for something, with what its references stand for. -/
theorem denotes_iff {i : UInt16} {t : Symbol} :
    S.Denotes i t ↔ ∃ c is parts, S.pool.get? i = some c ∧ c.isUnusable = false ∧
      S.references? c = some is ∧ List.Forall₂ S.Denotes is parts ∧ t = .node c.head parts := by
  constructor
  · rintro ⟨depth, h⟩
    cases depth with
    | zero => cases h
    | succ depth =>
      obtain ⟨c, hc, h⟩ := symbol?_succ_eq_some_iff.1 h
      obtain ⟨hu, is, parts, his, hparts, rfl⟩ := symbolOf?_eq_some_iff.1 h
      refine ⟨c, is, parts, hc, hu, his, ?_, rfl⟩
      clear his h ‹S.symbol? _ _ = _›
      induction is generalizing parts with
      | nil =>
        cases mapM_eq_some_nil.1 hparts
        exact .nil
      | cons i is ih =>
        obtain ⟨part, rest, hi, hrest, rfl⟩ := mapM_eq_some_cons.1 hparts
        exact .cons ⟨depth, hi⟩ (ih rest hrest)
  · rintro ⟨c, is, parts, hc, hu, his, hparts, rfl⟩
    obtain ⟨depth, hm⟩ := exists_mapM_symbol? hparts
    exact ⟨depth + 1, symbol?_succ_eq_some_iff.2 ⟨c, hc,
      symbolOf?_eq_some_iff.2 ⟨hu, is, parts, his, hm, rfl⟩⟩⟩

theorem mapM_symbol?_of_denotes {depth : Nat}
    (h : ∀ i j t, S.symbol? depth i = some t → G.Denotes j t → G.symbol? depth j = some t)
    {is js : List UInt16} {ts : List Symbol} (his : is.mapM (S.symbol? depth) = some ts)
    (hjs : List.Forall₂ G.Denotes js ts) : js.mapM (G.symbol? depth) = some ts := by
  induction hjs generalizing is with
  | nil => rfl
  | cons hj _ ih =>
    cases is with
    | nil => cases mapM_eq_some_nil.1 his
    | cons i is =>
      obtain ⟨_, _, hi, hrest, e⟩ := mapM_eq_some_cons.1 his
      cases e
      exact mapM_eq_some_cons.2 ⟨_, _, h _ _ _ hi hj, ih hrest, rfl⟩

/-- The depth to which references have to be followed depends on the symbol only. -/
theorem symbol?_of_denotes {depth : Nat} {i j : UInt16} {t : Symbol}
    (hi : S.symbol? depth i = some t) (hj : G.Denotes j t) : G.symbol? depth j = some t := by
  induction depth generalizing i j t with
  | zero => cases hi
  | succ depth ih =>
    obtain ⟨c, -, hc⟩ := symbol?_succ_eq_some_iff.1 hi
    obtain ⟨-, is, parts, -, hparts, rfl⟩ := symbolOf?_eq_some_iff.1 hc
    obtain ⟨d, js, _, hd, hu, hjs, hall, e⟩ := denotes_iff.1 hj
    obtain ⟨hhead, rfl⟩ := Symbol.node.inj e
    have hparts' := mapM_symbol?_of_denotes (fun _ _ _ => ih) hparts hall
    exact symbol?_succ_eq_some_iff.2 ⟨d, hd,
      symbolOf?_eq_some_iff.2 ⟨hu, js, parts, hjs, hparts', by rw [hhead]⟩⟩

theorem denotes_text_iff {i : UInt16} {s : String} :
    S.Denotes i (.text s) ↔ S.pool.get? i = some (.utf8 s) := by
  constructor
  · rintro ⟨depth, h⟩
    cases depth with
    | zero => cases h
    | succ depth => exact symbol?_eq_text_iff.1 h
  · intro h
    exact ⟨1, symbol?_eq_text_iff.2 h⟩

end ImportSource

theorem SameSymbol.text {S G : ImportSource} {i j : UInt16} (h : SameSymbol S i G j) {s : String}
    (hi : S.pool.get? i = some (.utf8 s)) : G.pool.get? j = some (.utf8 s) := by
  obtain ⟨t, ht, ht'⟩ := h
  rw [ImportSource.Denotes.unique ht (ImportSource.denotes_text_iff.2 hi)] at ht'
  exact ImportSource.denotes_text_iff.1 ht'

end JvmClass
