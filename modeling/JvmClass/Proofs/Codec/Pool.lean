import JvmClass.Pool.Binary
import JvmClass.Proofs.Codec.Reads
import JvmClass.Proofs.Codec.Text

/-!
# Spellings of constants and pools

Every entry but a text has one spelling. A text is read off any bytes that `ofTextBytes?` takes to
it, and written in modified UTF-8, so `Spells` keeps the bytes of the texts beside the entry. A
pool is read as its entries, each with the second slot it may need (`Pool.spread`).
-/

namespace JvmClass

open Reader

namespace Constant

/-- The modified UTF-8 form of a text entry. -/
def textForm? : Constant → Option Bytes
  | utf8 s => some (Text.encode s)
  | utf8Unpaired us => some (Text.encodeUnits us)
  | _ => none

/-- Entries that reading can yield: text is kept by its units only where it has to be, and no
second slot is an entry of its own. -/
def IsReadable : Constant → Prop
  | utf8Unpaired us => Text.ofUnits? us = none
  | unusable => False
  | _ => True

/-- `used` is read as `c`, and `texts` are the bytes of its text if it is one. -/
def Spells (c : Constant) (texts : List Bytes) (used : Bytes) : Prop :=
  (∃ t, t.length < 0x10000 ∧ ofTextBytes? t = some c ∧ texts = [t] ∧
      used = 1 :: (Bytes.ofCount t.length ++ t)) ∨
    c.textForm? = none ∧ c.IsReadable ∧ texts = [] ∧ c.encode = .ok used

theorem textForm?_of_ofTextBytes? {t : Bytes} {c : Constant} (h : ofTextBytes? t = some c) :
    ∃ u, c.textForm? = some u ∧ c.IsReadable := by
  rcases ofTextBytes?_eq_some_iff.1 h with ⟨s, rfl, -⟩ | ⟨us, rfl, hn, -⟩
  · exact ⟨_, rfl, trivial⟩
  · exact ⟨_, rfl, hn⟩

theorem ofTextBytes?_textForm {c : Constant} {u : Bytes} (h : c.textForm? = some u)
    (hr : c.IsReadable) : ofTextBytes? u = some c := by
  rw [ofTextBytes?_eq_some_iff]
  cases c with
  | utf8 s => exact .inl ⟨s, rfl, .inl (Option.some.inj h).symm⟩
  | utf8Unpaired us => exact .inr ⟨us, rfl, hr, (Option.some.inj h).symm⟩
  | _ => cases h

theorem encode_text {c : Constant} {u : Bytes} (h : c.textForm? = some u) :
    c.encode = encodeText u := by
  cases c with
  | utf8 s => rw [← Option.some.inj h]; rfl
  | utf8Unpaired us => rw [← Option.some.inj h]; rfl
  | _ => cases h

theorem Spells.isReadable {c : Constant} {texts : List Bytes} {used : Bytes}
    (h : c.Spells texts used) : c.IsReadable := by
  rcases h with ⟨t, -, ht, -⟩ | ⟨-, hr, -⟩
  · exact (textForm?_of_ofTextBytes? ht).choose_spec.2
  · exact hr

/-- What is written is a spelling. -/
theorem spells_of_encode {c : Constant} {used : Bytes} (hr : c.IsReadable)
    (h : c.encode = .ok used) : ∃ texts, c.Spells texts used := by
  cases ht : c.textForm? with
  | none => exact ⟨[], .inr ⟨ht, hr, rfl, h⟩⟩
  | some u =>
    rw [encode_text ht, encodeText] at h
    split at h
    · rename_i hu
      cases h
      exact ⟨[u], .inl ⟨u, hu, ofTextBytes?_textForm ht hr, rfl, rfl⟩⟩
    · cases h

theorem sound_plain {body : Reader Constant} {spell : Constant → Bytes → Prop} {tag : UInt8}
    {n : Nat} (hn : tag.toNat = n) (h : Reads body spell)
    (hs : ∀ c v, spell c v →
      c.textForm? = none ∧ c.IsReadable ∧ c.encode = .ok (UInt8.ofNat n :: v)) :
    Sound body fun c v => ∃ texts, c.Spells texts ([tag] ++ v) := by
  refine h.sound.mono fun c v hc => ?_
  obtain ⟨h1, h2, h3⟩ := hs c v hc
  rw [byte_eq hn.symm] at h3
  exact ⟨[], .inr ⟨h1, h2, rfl, h3⟩⟩

/-- An entry of one item behind its tag. -/
theorem sound_operand {α : Type} {r : Reader α} {enc : α → Bytes} {tag : UInt8} {n : Nat}
    (hn : tag.toNat = n) (h : Reads r fun a used => used = enc a) (entry : α → Constant)
    (hs : ∀ a, (entry a).textForm? = none ∧ (entry a).IsReadable ∧
      (entry a).encode = .ok (UInt8.ofNat n :: enc a)) :
    Sound (do return entry (← r)) fun c v => ∃ texts, c.Spells texts ([tag] ++ v) := by
  refine sound_plain hn (h.map entry) ?_
  rintro _ _ ⟨a, rfl, rfl⟩
  exact hs a

theorem reads_pair (entry : UInt16 → UInt16 → Constant) :
    Reads (do return entry (← u16) (← u16)) fun c used =>
      ∃ a b, c = entry a b ∧ used = Bytes.ofU16 a ++ Bytes.ofU16 b := by
  refine (reads_u16.bind fun a _ _ => reads_u16.map (entry a)).congr fun c used => ?_
  constructor
  · rintro ⟨a, _, _, rfl, ⟨b, rfl, rfl⟩, rfl⟩
    exact ⟨a, b, rfl, rfl⟩
  · rintro ⟨a, b, rfl, rfl⟩
    exact ⟨a, _, _, rfl, ⟨b, rfl, rfl⟩, rfl⟩

/-- An entry of two indices behind its tag. -/
theorem sound_pair {tag : UInt8} {n : Nat} (hn : tag.toNat = n)
    (entry : UInt16 → UInt16 → Constant)
    (hs : ∀ a b, (entry a b).textForm? = none ∧ (entry a b).IsReadable ∧
      (entry a b).encode = .ok (UInt8.ofNat n :: (Bytes.ofU16 a ++ Bytes.ofU16 b))) :
    Sound (do return entry (← u16) (← u16)) fun c v =>
      ∃ texts, c.Spells texts ([tag] ++ v) := by
  refine sound_plain hn (reads_pair entry) ?_
  rintro _ _ ⟨a, b, rfl, rfl⟩
  exact hs a b

theorem reads_handle :
    Reads (do return methodHandle (← u8) (← u16)) fun c used =>
      ∃ a b, c = methodHandle a b ∧ used = a :: Bytes.ofU16 b := by
  refine (reads_u8.bind fun a _ _ => reads_u16.map (methodHandle a)).congr fun c used => ?_
  constructor
  · rintro ⟨a, _, _, rfl, ⟨b, rfl, rfl⟩, rfl⟩
    exact ⟨a, b, rfl, rfl⟩
  · rintro ⟨a, b, rfl, rfl⟩
    exact ⟨a, _, _, rfl, ⟨b, rfl, rfl⟩, rfl⟩

theorem reads_text (index : UInt16) :
    Reads (do
      let length ← u16
      let bytes ← take length.toNat
      match ofTextBytes? bytes with
      | some c => return c
      | none => throw (.malformedConstant index .invalidText)) fun c used =>
        ∃ t, t.length < 0x10000 ∧ ofTextBytes? t = some c ∧ used = Bytes.ofCount t.length ++ t := by
  have h (t : Bytes) : Reads (match ofTextBytes? t with
      | some c => return c
      | none => throw (.malformedConstant index .invalidText))
      fun c used => ofTextBytes? t = some c ∧ used = [] := by
    cases ofTextBytes? t with
    | some c => exact (reads_pure c).congr fun a used => by simp [eq_comm]
    | none => exact (reads_throw _).congr fun a used => by simp
  refine (reads_u16.bind fun n _ _ => (reads_take n.toNat).bind fun t _ _ => h t).congr
    fun c used => ?_
  constructor
  · rintro ⟨n, _, _, rfl, ⟨t, _, _, ⟨rfl, ht⟩, ⟨hc, rfl⟩, rfl⟩, rfl⟩
    refine ⟨_, ht ▸ n.toNat_lt, hc, ?_⟩
    rw [Bytes.ofCount, ht, UInt16.ofNat_toNat, List.append_nil]
  · rintro ⟨t, ht, hc, rfl⟩
    refine ⟨UInt16.ofNat t.length, _, _, rfl, ⟨t, _, _, ⟨rfl, ?_⟩, ⟨hc, rfl⟩, rfl⟩, by simp; rfl⟩
    rw [toNat_unit ht]

theorem reads_read (index : UInt16) :
    Reads (Constant.read index) fun c used => ∃ texts, c.Spells texts used := by
  apply Reads.intro
  · refine reads_u8.sound.bind fun tag u hu => ?_
    subst hu
    split
    · rename_i hn
      rw [← byte_eq hn.symm]
      refine (reads_text index).sound.mono ?_
      rintro c _ ⟨t, ht, hc, rfl⟩
      exact ⟨[t], .inl ⟨t, ht, hc, rfl, rfl⟩⟩
    · exact sound_operand (by assumption) reads_i32 integer fun _ => ⟨rfl, trivial, rfl⟩
    · exact sound_operand (by assumption) reads_u32 float fun _ => ⟨rfl, trivial, rfl⟩
    · exact sound_operand (by assumption) reads_i64 long fun _ => ⟨rfl, trivial, rfl⟩
    · exact sound_operand (by assumption) reads_u64 double fun _ => ⟨rfl, trivial, rfl⟩
    · exact sound_operand (by assumption) reads_u16 classRef fun _ => ⟨rfl, trivial, rfl⟩
    · exact sound_operand (by assumption) reads_u16 stringRef fun _ => ⟨rfl, trivial, rfl⟩
    · exact sound_pair (by assumption) fieldRef fun _ _ => ⟨rfl, trivial, rfl⟩
    · exact sound_pair (by assumption) methodRef fun _ _ => ⟨rfl, trivial, rfl⟩
    · exact sound_pair (by assumption) interfaceMethodRef fun _ _ => ⟨rfl, trivial, rfl⟩
    · exact sound_pair (by assumption) nameAndType fun _ _ => ⟨rfl, trivial, rfl⟩
    · refine sound_plain (by assumption) reads_handle ?_
      rintro _ _ ⟨a, b, rfl, rfl⟩
      exact ⟨rfl, trivial, rfl⟩
    · exact sound_operand (by assumption) reads_u16 methodType fun _ => ⟨rfl, trivial, rfl⟩
    · exact sound_pair (by assumption) dynamic fun _ _ => ⟨rfl, trivial, rfl⟩
    · exact sound_pair (by assumption) invokeDynamic fun _ _ => ⟨rfl, trivial, rfl⟩
    · exact sound_operand (by assumption) reads_u16 moduleRef fun _ => ⟨rfl, trivial, rfl⟩
    · exact sound_operand (by assumption) reads_u16 packageRef fun _ => ⟨rfl, trivial, rfl⟩
    · exact .throw _
  · intro c used rest offset ⟨texts, hs⟩
    rcases hs with ⟨t, ht, hc, -, rfl⟩ | ⟨hn, hr, -, he⟩
    · exact run_tagged (reads_text index) ⟨t, ht, hc, rfl⟩ rest offset
    · cases c with
      | utf8 | utf8Unpaired => cases hn
      | unusable => exact hr.elim
      | integer i => cases he; exact run_tagged (reads_i32.map integer) ⟨i, rfl, rfl⟩ rest offset
      | float b => cases he; exact run_tagged (reads_u32.map float) ⟨b, rfl, rfl⟩ rest offset
      | long i => cases he; exact run_tagged (reads_i64.map long) ⟨i, rfl, rfl⟩ rest offset
      | double b => cases he; exact run_tagged (reads_u64.map double) ⟨b, rfl, rfl⟩ rest offset
      | classRef n => cases he; exact run_tagged (reads_u16.map classRef) ⟨n, rfl, rfl⟩ rest offset
      | stringRef n =>
        cases he; exact run_tagged (reads_u16.map stringRef) ⟨n, rfl, rfl⟩ rest offset
      | methodType n =>
        cases he; exact run_tagged (reads_u16.map methodType) ⟨n, rfl, rfl⟩ rest offset
      | moduleRef n =>
        cases he; exact run_tagged (reads_u16.map moduleRef) ⟨n, rfl, rfl⟩ rest offset
      | packageRef n =>
        cases he; exact run_tagged (reads_u16.map packageRef) ⟨n, rfl, rfl⟩ rest offset
      | fieldRef a b =>
        cases he; exact run_tagged (reads_pair fieldRef) ⟨a, b, rfl, rfl⟩ rest offset
      | methodRef a b =>
        cases he; exact run_tagged (reads_pair methodRef) ⟨a, b, rfl, rfl⟩ rest offset
      | interfaceMethodRef a b =>
        cases he; exact run_tagged (reads_pair interfaceMethodRef) ⟨a, b, rfl, rfl⟩ rest offset
      | nameAndType a b =>
        cases he; exact run_tagged (reads_pair nameAndType) ⟨a, b, rfl, rfl⟩ rest offset
      | dynamic a b => cases he; exact run_tagged (reads_pair dynamic) ⟨a, b, rfl, rfl⟩ rest offset
      | invokeDynamic a b =>
        cases he; exact run_tagged (reads_pair invokeDynamic) ⟨a, b, rfl, rfl⟩ rest offset
      | methodHandle a b => cases he; exact run_tagged reads_handle ⟨a, b, rfl, rfl⟩ rest offset

end Constant

namespace Pool

/-- Entries with the second slots they need. -/
def spread (entries : List Constant) : List Constant :=
  entries.flatMap fun c => if c.slots = 2 then [c, .unusable] else [c]

/-- `used` is read as `p`, and `texts` are the bytes of its texts. -/
def Spells (p : Pool) (texts : List Bytes) (used : Bytes) : Prop :=
  ∃ entries v, p.slots.toList = spread entries ∧ GathersAll Constant.Spells entries texts v ∧
    p.size < 0xFFFF ∧ used = Bytes.ofU16 p.count ++ v

theorem slots_append (p : Pool) (c : Constant) :
    (p.append c).slots.toList = p.slots.toList ++ spread [c] := by
  unfold append spread
  split <;> simp [push, *]

theorem spread_cons (c : Constant) (entries : List Constant) :
    spread (c :: entries) = spread [c] ++ spread entries := by
  simp [spread]

theorem length_spread_singleton (c : Constant) : (spread [c]).length = c.slots := by
  cases c <;> rfl

/-- Second slots stand right behind the entries that take two. -/
theorem spread_second {entries : List Constant}
    (h : ∀ e ∈ entries, e.isUnusable = false) :
    (spread entries)[0]? ≠ some .unusable ∧
      ∀ k, (spread entries)[k + 1]? = some .unusable ↔
        ∃ e, (spread entries)[k]? = some e ∧ e.slots = 2 := by
  induction entries with
  | nil => simp [spread]
  | cons c cs ih =>
    obtain ⟨hc, hcs⟩ := List.forall_mem_cons.1 h
    obtain ⟨hfirst, hsecond⟩ := ih hcs
    have hne : c ≠ .unusable := by
      rintro rfl
      cases hc
    rw [spread_cons]
    by_cases h2 : c.slots = 2
    · have hone : spread [c] = [c, .unusable] := by simp [spread, h2]
      rw [hone]
      refine ⟨by simpa using hne, fun k => ?_⟩
      cases k with
      | zero => simp [h2]
      | succ k =>
        cases k with
        | zero => simpa [Constant.slots] using hfirst
        | succ k => simpa using hsecond k
    · have hone : spread [c] = [c] := by simp [spread, h2]
      rw [hone]
      refine ⟨by simpa using hne, fun k => ?_⟩
      cases k with
      | zero => simpa [h2] using hfirst
      | succ k => simpa using hsecond k

theorem slots_pos (c : Constant) : 0 < c.slots := by
  cases c <;> exact Nat.zero_lt_succ _

/-- What the pool `p` becomes when the entries spelled by `used` are read behind it. -/
def Extends (p : Pool) (total : Nat) (q : Pool) (used : Bytes) : Prop :=
  q.size = total ∧ ∃ entries texts, q.slots.toList = p.slots.toList ++ spread entries ∧
    GathersAll Constant.Spells entries texts used

theorem extends_full {p q : Pool} {used : Bytes} :
    Extends p p.size q used ↔ q = p ∧ used = [] := by
  constructor
  · rintro ⟨hq, entries, texts, he, hs⟩
    cases entries with
    | nil => exact ⟨congrArg Pool.mk (Array.toList_inj.1 (by simpa [spread] using he)), hs.2⟩
    | cons c cs =>
      have hl := congrArg List.length he
      have hc := slots_pos c
      rw [spread_cons, List.length_append, List.length_append, length_spread_singleton,
        Array.length_toList, Array.length_toList] at hl
      unfold size at hq
      omega
  · rintro ⟨rfl, rfl⟩
    exact ⟨rfl, [], [], by simp [spread], rfl, rfl⟩

theorem extends_cons {p q : Pool} {total : Nat} {used : Bytes} (h : p.size < total) :
    Extends p total q used ↔ ∃ c u v, (∃ texts, c.Spells texts u) ∧
      (p.size + c.slots ≤ total ∧ Extends (p.append c) total q v) ∧ used = u ++ v := by
  constructor
  · rintro ⟨hq, entries, texts, he, hs⟩
    cases entries with
    | nil =>
      have hl := congrArg List.length he
      simp only [spread, List.flatMap_nil, List.append_nil, Array.length_toList] at hl
      unfold size at h hq
      omega
    | cons c cs =>
      obtain ⟨ps, qs, u, v, hu, hv, rfl, rfl⟩ := hs
      have hl := congrArg List.length he
      rw [spread_cons, List.length_append, List.length_append, length_spread_singleton,
        Array.length_toList, Array.length_toList] at hl
      refine ⟨c, u, v, ⟨ps, hu⟩, ⟨?_, hq, cs, qs, ?_, hv⟩, rfl⟩
      · unfold size at hq ⊢
        omega
      · rw [he, slots_append, spread_cons, List.append_assoc]
  · rintro ⟨c, u, v, ⟨ps, hu⟩, ⟨-, hq, cs, qs, he, hv⟩, rfl⟩
    refine ⟨hq, c :: cs, ps ++ qs, ?_, ps, qs, u, v, hu, hv, rfl, rfl⟩
    rw [he, slots_append, spread_cons c cs, List.append_assoc]

theorem reads_readSlots (total budget : Nat) (p : Pool) (h1 : p.size ≤ total)
    (h2 : total ≤ p.size + budget) : Reads (readSlots total budget p) (Extends p total) := by
  have full (hp : p.size = total) : Reads (pure p : Reader Pool) (Extends p total) := by
    subst hp
    exact (reads_pure p).congr fun q used => extends_full.symm
  induction budget generalizing p with
  | zero => exact full (by omega)
  | succ budget ih =>
    unfold readSlots
    split
    · rename_i hp
      refine ((Constant.reads_read _).bind fun c u hu => ?_).congr fun q used =>
        (extends_cons hp).symm
      have hs := size_append p c
      have hc := slots_pos c
      split
      · rename_i hfit
        refine (ih (p.append c) (by omega) (by omega) fun he => ?_).congr fun q v => ?_
        · rw [← he]
          exact (reads_pure _).congr fun q used => extends_full.symm
        · exact ⟨fun h => ⟨hfit, h⟩, fun h => h.2⟩
      · rename_i hfit
        exact (reads_throw _).congr fun q v => ⟨False.elim, fun h => hfit h.1⟩
    · exact full (by omega)

/-- No entry takes fewer than three bytes for a slot. -/
theorem length_ge_of_spells {c : Constant} {texts : List Bytes} {u : Bytes}
    (h : c.Spells texts u) : c.slots * 3 ≤ u.length := by
  rcases h with ⟨t, -, ht, -, rfl⟩ | ⟨ht, hr, -, he⟩
  · rcases Constant.ofTextBytes?_eq_some_iff.1 ht with ⟨s, rfl, -⟩ | ⟨us, rfl, -⟩ <;>
      simp [Constant.slots, Bytes.ofCount]
  · cases c with
    | utf8 | utf8Unpaired => cases ht
    | unusable => exact hr.elim
    | _ =>
      cases he
      simp [Constant.slots]

theorem length_ge_of_gathersAll {entries : List Constant} {texts : List Bytes} {v : Bytes}
    (h : GathersAll Constant.Spells entries texts v) : (spread entries).length * 3 ≤ v.length := by
  induction entries generalizing texts v with
  | nil => simp [spread]
  | cons c cs ih =>
    obtain ⟨ps, qs, u, v, hu, hv, rfl, rfl⟩ := h
    have h1 := length_ge_of_spells hu
    have h2 := ih hv
    rw [spread_cons, List.length_append, length_spread_singleton, List.length_append]
    omega

theorem reads_read : Reads Pool.read fun p used => ∃ texts, p.Spells texts used := by
  have hneed (n : Nat) (q : Pool) (u : Bytes) (h : Extends .empty n q u) : n * 3 ≤ u.length := by
    obtain ⟨hq, entries, texts, he, hs⟩ := h
    have hl := length_ge_of_gathersAll hs
    have hn := congrArg List.length he
    simp only [empty, List.nil_append, Array.length_toList] at hn
    unfold size at hq
    omega
  unfold Pool.read
  refine (reads_u16.bind fun n _ _ => Reads.guard fun hn =>
    (reads_readSlots (n.toNat - 1) (n.toNat - 1) .empty (Nat.zero_le _) (by simp)).need
      (hneed _)).congr fun p used => ?_
  constructor
  · rintro ⟨n, _, v, rfl, ⟨hn, hp, entries, texts, he, hs⟩, rfl⟩
    have hpos : n.toNat ≠ 0 := fun h => hn (UInt16.toNat_inj.1 h)
    have hlt := n.toNat_lt
    refine ⟨texts, entries, v, by simpa [empty] using he, hs, by omega, ?_⟩
    rw [count, show p.size + 1 = n.toNat by omega, UInt16.ofNat_toNat]
  · rintro ⟨texts, entries, v, he, hs, hp, rfl⟩
    have hn : p.count.toNat = p.size + 1 := toNat_unit (by omega)
    refine ⟨p.count, _, v, rfl, ⟨fun h => ?_, ?_, entries, texts, ?_, hs⟩, rfl⟩
    · rw [h] at hn
      cases hn
    · rw [hn, Nat.add_sub_cancel]
    · simpa [empty] using he

/-! ## Writing -/

/-- Pools that reading can yield. -/
def IsReadable (p : Pool) : Prop :=
  p.size < 0xFFFF ∧
    ∃ entries, p.slots.toList = spread entries ∧ ∀ c ∈ entries, c.IsReadable

theorem concatM_spread (entries : List Constant) :
    concatM Constant.encode (spread entries) = concatM Constant.encode entries := by
  have one (c : Constant) : concatM Constant.encode (spread [c]) = c.encode := by
    cases c <;> simp [spread, Constant.slots, concatM_cons, concatM_nil, Constant.encode, bind,
      Except.bind, pure, Except.pure] <;> cases Constant.encodeText _ <;> simp
  induction entries with
  | nil => rfl
  | cons c cs ih => rw [spread_cons, concatM_append, one, ih, concatM_cons]

theorem encode_eq {p : Pool} {entries : List Constant} (h : p.slots.toList = spread entries) :
    p.encode = (do return Bytes.ofU16 p.count ++ (← concatM Constant.encode entries)) := by
  unfold encode pieces
  rw [concatM_cons, concatM_id_map, h, concatM_spread]
  rfl

theorem encode_eq_ok_iff {p : Pool} {entries : List Constant} {out : Bytes}
    (h : p.slots.toList = spread entries) :
    p.encode = .ok out ↔
      ∃ v, concatM Constant.encode entries = .ok v ∧ out = Bytes.ofU16 p.count ++ v := by
  rw [encode_eq h, exceptBind_eq_ok]
  constructor
  · rintro ⟨v, hv, ho⟩
    exact ⟨v, hv, (Except.ok.inj ho).symm⟩
  · rintro ⟨v, hv, rfl⟩
    exact ⟨v, hv, rfl⟩

theorem Spells.isReadable {p : Pool} {texts : List Bytes} {used : Bytes} (h : p.Spells texts used) :
    p.IsReadable := by
  obtain ⟨entries, v, he, hs, hp, -⟩ := h
  refine ⟨hp, entries, he, ?_⟩
  clear he
  induction entries generalizing texts v with
  | nil => simp
  | cons c cs ih =>
    obtain ⟨ps, qs, u, v, hu, hv, -, -⟩ := hs
    exact List.forall_mem_cons.2 ⟨hu.isReadable, ih v hv⟩

/-- What is written is a spelling. -/
theorem spells_of_encode {p : Pool} {out : Bytes} (h : p.IsReadable) (he : p.encode = .ok out) :
    ∃ texts, p.Spells texts out := by
  obtain ⟨hp, entries, hs, hr⟩ := h
  obtain ⟨v, hv, rfl⟩ := (encode_eq_ok_iff hs).1 he
  have hall := spellsAll_concatM.2 ⟨hr, hv⟩
  obtain ⟨texts, hg⟩ := exists_gathersAll_iff.2
    (hall.mono fun c _ u _ hc => Constant.spells_of_encode hc.1 hc.2)
  exact ⟨texts, entries, v, hs, hg, hp, rfl⟩

/-- Every text of a pool has a modified UTF-8 form that fits. -/
def TextsFit (p : Pool) : Prop :=
  ∀ c ∈ p.slots.toList, ∀ form, c.textForm? = some form → form.length < 0x10000

theorem encode_eq_error {c : Constant} {e : Error} (h : c.encode = .error e) :
    ∃ form, c.textForm? = some form ∧ ¬form.length < 0x10000 ∧ e = .textTooLong form.length := by
  cases ht : c.textForm? with
  | none => cases c <;> first | cases h | cases ht
  | some form =>
    rw [Constant.encode_text ht, Constant.encodeText] at h
    split at h
    · cases h
    · rename_i hl
      cases h
      exact ⟨form, rfl, hl, rfl⟩

theorem exists_of_encode_error {p : Pool} {e : Error} (h : p.encode = .error e) :
    ∃ c ∈ p.slots.toList, ∃ form, c.textForm? = some form ∧ ¬form.length < 0x10000 ∧
      e = .textTooLong form.length := by
  unfold encode pieces at h
  obtain ⟨x, hx, he⟩ := concatM_eq_error h
  rcases List.mem_cons.1 hx with rfl | hx
  · cases he
  · obtain ⟨c, hc, rfl⟩ := List.mem_map.1 hx
    exact ⟨c, hc, encode_eq_error he⟩

theorem encode_error {p : Pool} {e : Error} (h : p.encode = .error e) :
    ¬p.TextsFit ∧ ∃ n, e = .textTooLong n := by
  obtain ⟨c, hc, form, hf, hl, rfl⟩ := exists_of_encode_error h
  exact ⟨fun hfit => hl (hfit c hc form hf), _, rfl⟩

/-- Only text can keep a pool from being written. -/
theorem encode_ok_iff {p : Pool} : (∃ out, p.encode = .ok out) ↔ p.TextsFit := by
  constructor
  · rintro ⟨out, h⟩ c hc form hf
    unfold encode pieces at h
    obtain ⟨u, hu⟩ := concatM_eq_ok h c.encode (List.mem_cons_of_mem _ (List.mem_map_of_mem hc))
    rw [id, Constant.encode_text hf, Constant.encodeText] at hu
    split at hu
    · assumption
    · cases hu
  · intro hfit
    cases h : p.encode with
    | ok out => exact ⟨out, rfl⟩
    | error e => exact absurd hfit (encode_error h).1

/-- Text that is stored the way it is written. -/
def Reencodes (t : Bytes) : Prop :=
  ∃ c, Constant.ofTextBytes? t = some c ∧ c.textForm? = some t

/-- Only text in plain UTF-8 with a zero byte or a character beyond the basic plane is written
otherwise than it was stored. -/
theorem reencodes_iff {t : Bytes} {c : Constant} (h : Constant.ofTextBytes? t = some c) :
    Reencodes t ↔
      ¬((String.fromUTF8? t.toByteArray).isSome = true ∧ ∃ b ∈ t, Text.IsForeign b) := by
  have unit {us : List UInt16} (e : t = Text.encodeUnits us) : ¬∃ b ∈ t, Text.IsForeign b := by
    rintro ⟨b, hb, hf⟩
    rw [e] at hb
    obtain ⟨u, -, hu⟩ := List.mem_flatMap.1 hb
    exact Text.not_isForeign_of_mem_encodeUnit hu hf
  rcases Constant.ofTextBytes?_eq_some_iff.1 h with ⟨s, rfl, rfl | rfl⟩ | ⟨us, rfl, -, rfl⟩
  · exact iff_of_true ⟨_, h, rfl⟩ fun ⟨_, hf⟩ => unit rfl hf
  · rw [Text.fromUTF8?_utf8, Text.exists_isForeign_utf8_iff]
    have hplain := Text.encode_eq_utf8_iff s
    constructor
    · rintro ⟨c, hc, ht⟩ ⟨-, x, hx, hn⟩
      rw [h] at hc
      cases hc
      exact hn (hplain.1 (Option.some.inj ht) x hx)
    · intro hn
      refine ⟨_, h, congrArg some (hplain.2 fun x hx => ?_)⟩
      exact Decidable.not_not.1 fun hp => hn ⟨rfl, x, hx, hp⟩
  · exact iff_of_true ⟨_, h, rfl⟩ fun ⟨_, hf⟩ => unit rfl hf

theorem GathersAll.ofTextBytes? {entries : List Constant} {texts : List Bytes} {v : Bytes}
    (h : GathersAll Constant.Spells entries texts v) :
    ∀ t ∈ texts, ∃ c, Constant.ofTextBytes? t = some c := by
  induction entries generalizing texts v with
  | nil =>
    obtain ⟨rfl, -⟩ := h
    simp
  | cons c cs ih =>
    obtain ⟨ps, qs, u, v, hu, hv, rfl, rfl⟩ := h
    refine List.forall_mem_append.2 ⟨?_, ih hv⟩
    rcases hu with ⟨t, -, ht, rfl, -⟩ | ⟨-, -, rfl, -⟩
    · exact List.forall_mem_singleton.2 ⟨c, ht⟩
    · simp

theorem Spells.ofTextBytes? {p : Pool} {texts : List Bytes} {used : Bytes}
    (h : p.Spells texts used) : ∀ t ∈ texts, ∃ c, Constant.ofTextBytes? t = some c := by
  obtain ⟨entries, v, -, hs, -, -⟩ := h
  exact GathersAll.ofTextBytes? hs

theorem encode_entry_eq_iff {c : Constant} {texts : List Bytes} {u : Bytes}
    (h : c.Spells texts u) : c.encode = .ok u ↔ ∀ t ∈ texts, Reencodes t := by
  rcases h with ⟨t, ht, hc, rfl, rfl⟩ | ⟨-, -, rfl, he⟩
  · obtain ⟨form, hform, -⟩ := Constant.textForm?_of_ofTextBytes? hc
    rw [Constant.encode_text hform, Constant.encodeText, List.forall_mem_singleton]
    constructor
    · intro h
      split at h
      · rename_i hl
        have e := (List.cons.inj (Except.ok.inj h)).2
        have e' := (List.append_inj e rfl).2
        exact ⟨c, hc, by rw [hform, e']⟩
      · cases h
    · rintro ⟨d, hd, hf⟩
      rw [hc] at hd
      cases hd
      rw [hf] at hform
      cases hform
      rw [if_pos ht]
  · exact ⟨fun _ => by simp, fun _ => he⟩

theorem concatM_entries_eq_iff {entries : List Constant} {texts : List Bytes} {v : Bytes}
    (h : GathersAll Constant.Spells entries texts v) :
    concatM Constant.encode entries = .ok v ↔ ∀ t ∈ texts, Reencodes t := by
  induction entries generalizing texts v with
  | nil =>
    obtain ⟨rfl, rfl⟩ := h
    exact ⟨fun _ => by simp, fun _ => rfl⟩
  | cons c cs ih =>
    obtain ⟨ps, qs, u, v, hu, hv, rfl, rfl⟩ := h
    rw [concatM_cons, append_eq_ok, List.forall_mem_append, ← encode_entry_eq_iff hu, ← ih hv]
    constructor
    · rintro ⟨u', v', hu', hv', e⟩
      -- no spelling is the beginning of another, so the entry ends at the same byte
      have hs := Constant.spells_of_encode hu.isReadable hu'
      obtain ⟨-, rfl, rfl⟩ := (Constant.reads_read 0).split ⟨ps, hu⟩ hs e
      exact ⟨hu', hv'⟩
    · rintro ⟨hu', hv'⟩
      exact ⟨u, v, hu', hv', rfl⟩

/-- A pool is written as it was stored exactly if all its texts are. -/
theorem encode_eq_iff {p : Pool} {texts : List Bytes} {used : Bytes} (h : p.Spells texts used) :
    p.encode = .ok used ↔ ∀ t ∈ texts, Reencodes t := by
  obtain ⟨entries, v, he, hs, -, rfl⟩ := h
  rw [encode_eq_ok_iff he, ← concatM_entries_eq_iff hs]
  constructor
  · rintro ⟨w, hw, e⟩
    rwa [List.append_cancel_left e]
  · intro hv
    exact ⟨v, hv, rfl⟩

end Pool

end JvmClass
