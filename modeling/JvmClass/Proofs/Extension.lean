import JvmClass.Proofs.RoundTrip

/-!
# Bytes behind what is read

A reader in the middle of a file must not care about what follows. `Stable r`: more bytes at the
end change neither a value that `r` has returned nor a failure, unless the failure was that bytes
are missing. Readers that take the rest of their input are not stable; they only ever run on a
payload of their own, and its bytes are the same however the file goes on.

`Agree n r s` says that two readers do the same on at most `n` bytes. It relates the depths that
inputs of different lengths are read with. The main statement, `ClassFile.read_append`, follows
from the two.
-/

namespace JvmClass

/-- The cursor with more bytes at the end. -/
def Cursor.extend (c : Cursor) (extra : Bytes) : Cursor :=
  { c with bytes := c.bytes ++ extra }

namespace Reader

variable {α β : Type}

/-- More bytes at the end change neither what `r` returns nor how it fails, unless bytes are
missing. -/
structure Stable (r : Reader α) : Prop where
  advance : ∀ {c a c'}, r c = .ok a c' →
    ∃ used, c.bytes = used ++ c'.bytes ∧ c'.offset = c.offset + used.length
  ok : ∀ {c a c'}, r c = .ok a c' → ∀ extra, r (c.extend extra) = .ok a (c'.extend extra)
  error : ∀ {c e c'}, r c = .error e c' → (∀ o, e ≠ .truncated o) →
    ∀ extra, ∃ d, r (c.extend extra) = .error e d

namespace Stable

/-! ## Single items -/

/-- A reader that takes some bytes off the front, whatever stands behind them, or finds too few. -/
theorem of_front {r : Reader α}
    (h : ∀ c, (∃ o d, r c = .error (.truncated o) d) ∨
      ∃ a used rest, c.bytes = used ++ rest ∧ ∀ rest, r { c with bytes := used ++ rest } =
        .ok a { c with bytes := rest, offset := c.offset + used.length }) : Stable r := by
  constructor
  · intro c a c' hr
    rcases h c with ⟨o, d, he⟩ | ⟨b, used, rest, hb, hrun⟩
    · cases he.symm.trans hr
    · have hc := hrun rest
      rw [← hb] at hc
      cases hc.symm.trans hr
      exact ⟨used, hb, rfl⟩
  · intro c a c' hr extra
    rcases h c with ⟨o, d, he⟩ | ⟨b, used, rest, hb, hrun⟩
    · cases he.symm.trans hr
    · have hc := hrun rest
      rw [← hb] at hc
      cases hc.symm.trans hr
      rw [Cursor.extend, hb, List.append_assoc]
      exact hrun (rest ++ extra)
  · intro c e c' hr hne
    rcases h c with ⟨o, d, he⟩ | ⟨b, used, rest, hb, hrun⟩
    · cases he.symm.trans hr
      exact absurd rfl (hne o)
    · have hc := hrun rest
      rw [← hb] at hc
      cases hc.symm.trans hr

theorem u8 : Stable Reader.u8 := by
  refine of_front fun ⟨bytes, offset, log⟩ => ?_
  unfold Reader.u8
  split
  · rename_i a rest hb
    exact .inr ⟨a, [a], rest, hb, fun _ => rfl⟩
  · exact .inl ⟨_, _, rfl⟩

theorem u16 : Stable Reader.u16 := by
  refine of_front fun ⟨bytes, offset, log⟩ => ?_
  unfold Reader.u16
  split
  · rename_i a b rest hb
    exact .inr ⟨_, [a, b], rest, hb, fun _ => rfl⟩
  · exact .inl ⟨_, _, rfl⟩

theorem u32 : Stable Reader.u32 := by
  refine of_front fun ⟨bytes, offset, log⟩ => ?_
  unfold Reader.u32
  split
  · rename_i a b d e rest hb
    exact .inr ⟨_, [a, b, d, e], rest, hb, fun _ => rfl⟩
  · exact .inl ⟨_, _, rfl⟩

theorem u64 : Stable Reader.u64 := by
  refine of_front fun ⟨bytes, offset, log⟩ => ?_
  unfold Reader.u64
  split
  · rename_i a b d e f g h i rest hb
    exact .inr ⟨_, [a, b, d, e, f, g, h, i], rest, hb, fun _ => rfl⟩
  · exact .inl ⟨_, _, rfl⟩

theorem take (n : Nat) : Stable (Reader.take n) := by
  refine of_front fun ⟨bytes, offset, log⟩ => ?_
  unfold Reader.take
  simp only [Bytes.atLeast_iff, List.splitAt_eq]
  by_cases hn : n ≤ bytes.length
  · have hl : (bytes.take n).length = n := List.length_take_of_le hn
    refine .inr ⟨bytes.take n, bytes.take n, bytes.drop n, by simp, fun rest => ?_⟩
    rw [if_pos (by simp; omega), List.take_left' hl, List.drop_left' hl, hl]
  · exact .inl ⟨offset, _, if_neg hn⟩

/-- To ask for bytes is stable although it looks at bytes that are not read: more of them never
make it fail. -/
theorem need (n : Nat) : Stable (Reader.need n) := by
  constructor
  · intro c a c' h
    unfold Reader.need at h
    split at h <;> cases h
    exact ⟨[], rfl, rfl⟩
  · intro c a c' h extra
    unfold Reader.need at h ⊢
    simp only [Bytes.atLeast_iff] at h ⊢
    split at h
    · cases h
      refine if_pos ?_
      simp only [Cursor.extend, List.length_append]
      omega
    · cases h
  · intro c e c' h hne
    unfold Reader.need at h
    split at h <;> cases h
    exact absurd rfl (hne _)

/-- A reader that takes no bytes and does the same in front of any. -/
theorem of_blind {r : Reader α}
    (h : ∀ offset log, (∃ a log', ∀ bytes, r ⟨bytes, offset, log⟩ = .ok a ⟨bytes, offset, log'⟩) ∨
      ∃ e, ∀ bytes, ∃ d, r ⟨bytes, offset, log⟩ = .error e d) : Stable r := by
  constructor
  · intro ⟨bytes, offset, log⟩ a c' hr
    rcases h offset log with ⟨b, log', hrun⟩ | ⟨e, hrun⟩
    · cases (hrun bytes).symm.trans hr
      exact ⟨[], rfl, rfl⟩
    · obtain ⟨d, he⟩ := hrun bytes
      cases he.symm.trans hr
  · intro ⟨bytes, offset, log⟩ a c' hr extra
    rcases h offset log with ⟨b, log', hrun⟩ | ⟨e, hrun⟩
    · cases (hrun bytes).symm.trans hr
      exact hrun (bytes ++ extra)
    · obtain ⟨d, he⟩ := hrun bytes
      cases he.symm.trans hr
  · intro ⟨bytes, offset, log⟩ e c' hr _ extra
    rcases h offset log with ⟨b, log', hrun⟩ | ⟨e', hrun⟩
    · cases (hrun bytes).symm.trans hr
    · obtain ⟨d, he⟩ := hrun bytes
      cases he.symm.trans hr
      exact hrun (bytes ++ extra)

theorem pure (a : α) : Stable (Pure.pure a : Reader α) :=
  of_blind fun _ log => .inl ⟨a, log, fun _ => rfl⟩

theorem throw (e : Error) : Stable (MonadExcept.throw e : Reader α) :=
  of_blind fun _ _ => .inr ⟨e, fun _ => ⟨_, rfl⟩⟩

theorem ofExcept (x : Except Error α) : Stable (MonadExcept.ofExcept x : Reader α) := by
  cases x with
  | ok a => exact pure a
  | error e => exact throw e

theorem recordTexts (p : Pool) (event : String → String → Event) (first second : UInt16) :
    Stable (recordTexts p event first second) := by
  refine of_blind fun offset log => ?_
  unfold JvmClass.recordTexts
  by_cases hlog : log.isOn
  · simp only [if_pos hlog]
    cases p.textLossy first with
    | error e => exact .inr ⟨e, fun _ => ⟨_, rfl⟩⟩
    | ok a =>
      cases p.textLossy second with
      | error e => exact .inr ⟨e, fun _ => ⟨_, rfl⟩⟩
      | ok b => exact .inl ⟨(), log.record (event a b), fun _ => rfl⟩
  · exact .inl ⟨(), log, fun _ => if_neg hlog⟩

/-- A reader on a payload of its own sees none of the bytes that follow, so it need not be
stable itself. -/
theorem within (payload : Bytes) (start : Nat) (g : Error → Error) (r : Reader α) :
    Stable (mapError g (Reader.within payload start r)) := by
  refine of_blind fun offset log => ?_
  unfold mapError Reader.within
  dsimp only
  cases r ⟨payload, start, log⟩ with
  | ok a c => exact .inl ⟨_, _, fun _ => rfl⟩
  | error e c => exact .inr ⟨_, fun _ => ⟨_, rfl⟩⟩

/-! ## Readers in sequence -/

variable {r s : Reader α} {f : α → Reader β}

/-- An error in front is kept, and so is one behind if it is there on its own. -/
theorem error_bind (hr : Stable r)
    (hf : ∀ a c e c', f a c = .error e c' → (∀ o, e ≠ .truncated o) →
      ∀ extra, ∃ d, f a (c.extend extra) = .error e d)
    {c : Cursor} {e : Error} {c' : Cursor} (h : (r >>= f) c = .error e c')
    (hne : ∀ o, e ≠ .truncated o) (extra : Bytes) :
    ∃ d, (r >>= f) (c.extend extra) = .error e d := by
  rcases bind_eq_error.1 h with h1 | ⟨a, d, h1, h2⟩
  · obtain ⟨d, h'⟩ := hr.error h1 hne extra
    exact ⟨d, bind_eq_error.2 (.inl h')⟩
  · obtain ⟨d', h'⟩ := hf a _ _ _ h2 hne extra
    exact ⟨d', bind_eq_error.2 (.inr ⟨a, _, hr.ok h1 extra, h'⟩)⟩

theorem bind (hr : Stable r) (hf : ∀ a, Stable (f a)) : Stable (r >>= f) := by
  constructor
  · intro c b c' h
    obtain ⟨a, d, h1, h2⟩ := bind_eq_ok.1 h
    obtain ⟨u, hu, ho⟩ := hr.advance h1
    obtain ⟨v, hv, ho'⟩ := (hf a).advance h2
    refine ⟨u ++ v, by rw [hu, hv, List.append_assoc], ?_⟩
    rw [ho', ho, List.length_append, Nat.add_assoc]
  · intro c b c' h extra
    obtain ⟨a, d, h1, h2⟩ := bind_eq_ok.1 h
    rw [bind_run (hr.ok h1 extra)]
    exact (hf a).ok h2 extra
  · exact hr.error_bind fun a _ _ _ => (hf a).error

theorem map (hr : Stable r) (g : α → β) : Stable (g <$> r) := by
  rw [map_eq_pure_bind]
  exact hr.bind fun a => pure (g a)

theorem ite {p : Prop} [Decidable p] (hr : Stable r) (hs : Stable s) :
    Stable (if p then r else s) := by
  split
  · exact hr
  · exact hs

theorem offset {f : Nat → Reader β} (hf : ∀ n, Stable (f n)) : Stable (Reader.offset >>= f) where
  advance {c _ _} h := (hf c.offset).advance h
  ok {c _ _} h := (hf c.offset).ok h
  error {c _ _} h := (hf c.offset).error h

theorem timesAfter (hr : Stable r) (n : Nat) (items : List α) :
    Stable (Reader.timesAfter r n items) := by
  induction n generalizing items with
  | zero => exact pure _
  | succ n ih => exact hr.bind fun a => ih (a :: items)

theorem table (hr : Stable r) (size : Nat) : Stable (Reader.table size r) :=
  u16.bind fun n => (need _).bind fun _ => hr.timesAfter n.toNat []

end Stable

/-! ## Readers that agree on short inputs -/

/-- The two readers do the same on at most `n` bytes. -/
def Agree (n : Nat) (r s : Reader α) : Prop :=
  ∀ c : Cursor, c.bytes.length ≤ n → r c = s c

namespace Agree

variable {n : Nat} {r s : Reader α} {f g : α → Reader β}

theorem bind (h : Agree n r s) (hr : Stable r) (hf : ∀ a, Agree n (f a) (g a)) :
    Agree n (r >>= f) (s >>= g) := by
  intro c hc
  show EStateM.bind r f c = EStateM.bind s g c
  unfold EStateM.bind
  rw [← h c hc]
  cases he : r c with
  | error e c' => rfl
  | ok a c' =>
    obtain ⟨used, hb, -⟩ := hr.advance he
    refine hf a c' ?_
    rw [hb, List.length_append] at hc
    omega

theorem behind (hr : Stable r) (hf : ∀ a, Agree n (f a) (g a)) : Agree n (r >>= f) (r >>= g) :=
  bind (fun _ _ => rfl) hr hf

theorem offset {f g : Nat → Reader β} (hf : ∀ o, Agree n (f o) (g o)) :
    Agree n (Reader.offset >>= f) (Reader.offset >>= g) :=
  fun c hc => hf c.offset c hc

/-- Less is left behind a word. -/
theorem behind_u16 {f g : UInt16 → Reader β} (hf : ∀ w, Agree n (f w) (g w)) :
    Agree (n + 1) (u16 >>= f) (u16 >>= g) := by
  intro ⟨bytes, offset, log⟩ hc
  match bytes, hc with
  | [], _ => rfl
  | [_], _ => rfl
  | a :: b :: rest, hc =>
    refine hf (Bytes.u16 a b) ⟨rest, offset + 2, log⟩ ?_
    simp only [List.length_cons] at hc
    simp only
    omega

/-- What is taken is not longer than what was there. -/
theorem behind_take {k : Nat} {f g : Bytes → Reader β}
    (hf : ∀ payload : Bytes, payload.length ≤ n → Agree n (f payload) (g payload)) :
    Agree n (take k >>= f) (take k >>= g) := by
  intro c hc
  by_cases hk : k ≤ c.bytes.length
  · have run : take k c =
        .ok (c.bytes.take k) { c with bytes := c.bytes.drop k, offset := c.offset + k } := by
      unfold take
      rw [if_pos (Bytes.atLeast_iff.2 hk), List.splitAt_eq]
    rw [bind_run run, bind_run run]
    refine hf _ ?_ _ ?_
    · rw [List.length_take]
      omega
    · simp only [List.length_drop]
      omega
  · have run : take k c = .error (.truncated c.offset) c := by
      unfold take
      rw [if_neg (by rwa [Bytes.atLeast_iff])]
      rfl
    show EStateM.bind _ _ _ = EStateM.bind _ _ _
    unfold EStateM.bind
    rw [run]

theorem within {payload : Bytes} (h : Agree n r s) (hp : payload.length ≤ n) (start : Nat) :
    Reader.within payload start r = Reader.within payload start s := by
  funext c
  unfold Reader.within
  rw [h ⟨payload, start, c.log⟩ hp]

theorem map (h : Agree n r s) (hr : Stable r) (k : α → β) :
    Agree n (do return k (← r)) (do return k (← s)) :=
  h.bind hr fun _ _ _ => rfl

theorem ite {q : Prop} [Decidable q] {r' s' : Reader α} (h : Agree n r s) (h' : Agree n r' s') :
    Agree n (if q then r else r') (if q then s else s') := by
  split
  · exact h
  · exact h'

theorem timesAfter (h : Agree n r s) (hr : Stable r) (k : Nat) (items : List α) :
    Agree n (Reader.timesAfter r k items) (Reader.timesAfter s k items) := by
  induction k generalizing items with
  | zero => exact fun _ _ => rfl
  | succ k ih => exact h.bind hr fun a => ih (a :: items)

theorem table (h : Agree n r s) (hr : Stable r) (size : Nat) :
    Agree n (Reader.table size r) (Reader.table size s) :=
  behind .u16 fun k => behind (.need _) fun _ => h.timesAfter hr k.toNat []

end Agree

end Reader

open Reader

/-! ## Pools -/

theorem Constant.stable_read (index : UInt16) : Stable (Constant.read index) := by
  have u16s {α : Type} (g : UInt16 → UInt16 → α) :
      Stable (do return g (← u16) (← u16)) :=
    Stable.u16.bind fun _ => Stable.u16.bind fun _ => .pure _
  refine Stable.u8.bind fun tag => ?_
  split
  case h_1 =>
    refine Stable.u16.bind fun length => (Stable.take _).bind fun bytes => ?_
    split
    · exact .pure _
    · exact .throw _
  all_goals
    first
    | exact u16s _
    | exact Stable.u16.bind fun _ => .pure _
    | exact Stable.u32.bind fun _ => .pure _
    | exact Stable.u64.bind fun _ => .pure _
    | exact (Stable.u32.map _).bind fun _ => .pure _
    | exact (Stable.u64.map _).bind fun _ => .pure _
    | exact Stable.u8.bind fun _ => Stable.u16.bind fun _ => .pure _
    | exact .throw _

theorem Pool.stable_readSlots (total budget : Nat) (p : Pool) :
    Stable (readSlots total budget p) := by
  induction budget generalizing p with
  | zero => exact .pure p
  | succ budget ih =>
    unfold readSlots
    exact .ite ((Constant.stable_read _).bind fun c => .ite (ih _) (.throw _)) (.pure p)

theorem Pool.stable_read : Stable Pool.read := by
  have slots (count : UInt16) : Stable (do
      need ((count.toNat - 1) * 3)
      readSlots (count.toNat - 1) (count.toNat - 1) .empty) :=
    (Stable.need _).bind fun _ => stable_readSlots _ _ _
  exact Stable.u16.bind fun count => .ite ((Stable.throw _).bind fun _ => slots count) (slots count)

/-! ## Attributes and members -/

/-- Only the payload of an attribute can hold readers that are not stable, and it is cut out
first. -/
theorem Attribute.stable_read (p : Pool) (depth : Nat) : Stable (Attribute.read p depth) := by
  cases depth with
  | zero => exact .of_front fun _ => .inl ⟨_, _, rfl⟩
  | succ depth =>
    refine Stable.u16.bind fun index => ?_
    refine Stable.u32.bind fun length => .offset fun _ => ?_
    refine (Stable.take _).bind fun payload => ?_
    refine (Stable.ofExcept _).bind fun name => ?_
    exact (Stable.within _ _ _ _).bind fun _ => .ite (.pure _) (.throw _)

theorem Member.stable_read (p : Pool) (depth : Nat) (event : String → String → Event) :
    Stable (Member.read p depth event) :=
  Stable.u16.bind fun _ => Stable.u16.bind fun _ => Stable.u16.bind fun _ =>
    ((Attribute.stable_read p depth).table 6).bind fun _ =>
    (Stable.recordTexts p event _ _).bind fun _ => .pure _

theorem Handler.stable_read : Stable Handler.read :=
  Stable.u16.bind fun _ => Stable.u16.bind fun _ => Stable.u16.bind fun _ => Stable.u16.bind
    fun _ => .pure _

theorem Component.stable_readWith {inner : Reader Attribute} (h : Stable inner) :
    Stable (Component.readWith inner) :=
  Stable.u16.bind fun _ => Stable.u16.bind fun _ => (h.table 6).bind fun _ => .pure _

theorem CodeBody.stable_readWith (p : Pool) {inner : Reader Attribute} (h : Stable inner) :
    Stable (CodeBody.readWith p inner) :=
  Stable.u16.bind fun _ => Stable.u16.bind fun _ => Stable.u32.bind fun _ =>
    (Stable.take _).bind fun _ => (Stable.ofExcept _).bind fun _ =>
    (Handler.stable_read.table 8).bind fun _ => (h.table 6).bind fun _ => .pure _

theorem Component.agree_readWith {n : Nat} {inner inner' : Reader Attribute}
    (h : Agree n inner inner') (hi : Stable inner) :
    Agree n (Component.readWith inner) (Component.readWith inner') :=
  .behind .u16 fun _ => .behind .u16 fun _ => (h.table hi 6).map (hi.table 6) _

theorem CodeBody.agree_readWith (p : Pool) {n : Nat} {inner inner' : Reader Attribute}
    (h : Agree n inner inner') (hi : Stable inner) :
    Agree n (CodeBody.readWith p inner) (CodeBody.readWith p inner') :=
  .behind .u16 fun _ => .behind .u16 fun _ => .behind .u32 fun _ => .behind (.take _) fun _ =>
    .behind (.ofExcept _) fun _ => .behind (Handler.stable_read.table 8) fun _ =>
    (h.table hi 6).map (hi.table 6) _

theorem Payload.agree_readWith (p : Pool) (name : String) {n : Nat}
    {inner inner' : Reader Attribute} (h : Agree n inner inner') (hi : Stable inner) :
    Agree n (Payload.readWith p inner name) (Payload.readWith p inner' name) := by
  unfold Payload.readWith
  split
  case h_1 => exact (CodeBody.agree_readWith p h hi).map (CodeBody.stable_readWith p hi) _
  case h_24 =>
    exact ((Component.agree_readWith h hi).table (Component.stable_readWith hi) 6).map
      ((Component.stable_readWith hi).table 6) _
  all_goals exact fun _ _ => rfl

/-- A depth of all bytes left is as good as any larger one: the payload of an attribute is shorter
than the attribute. -/
theorem Attribute.agree_read (p : Pool) {n depth depth' : Nat} (h : n ≤ depth) (h' : n ≤ depth') :
    Agree n (Attribute.read p depth) (Attribute.read p depth') := by
  induction n generalizing depth depth' with
  | zero =>
    have empty (depth offset : Nat) (log : Log) : Attribute.read p depth ⟨[], offset, log⟩ =
        .error (.truncated offset) ⟨[], offset, log⟩ := by
      cases depth <;> rfl
    rintro ⟨bytes, offset, log⟩ hc
    obtain rfl : bytes = [] := List.eq_nil_of_length_eq_zero (Nat.le_zero.1 hc)
    rw [empty, empty]
  | succ n ih =>
    obtain ⟨depth, rfl⟩ := Nat.exists_eq_succ_of_ne_zero (Nat.ne_zero_of_lt h)
    obtain ⟨depth', rfl⟩ := Nat.exists_eq_succ_of_ne_zero (Nat.ne_zero_of_lt h')
    have inner : Agree n (Attribute.read p depth) (Attribute.read p depth') :=
      ih (Nat.le_of_succ_le_succ h) (Nat.le_of_succ_le_succ h')
    unfold Attribute.read
    refine .behind_u16 fun nameIndex => .behind .u32 fun length => .offset fun start =>
      .behind_take fun payload hp => .behind (.ofExcept _) fun name => ?_
    rw [(Payload.agree_readWith p name inner (stable_read p depth)).within hp start]
    exact fun _ _ => rfl

theorem Member.agree_read (p : Pool) {n depth depth' : Nat} (h : n ≤ depth) (h' : n ≤ depth')
    (event : String → String → Event) :
    Agree n (Member.read p depth event) (Member.read p depth' event) :=
  .behind .u16 fun _ => .behind .u16 fun _ => .behind .u16 fun _ =>
    ((Attribute.agree_read p h h').table (Attribute.stable_read p depth) 6).bind
      ((Attribute.stable_read p depth).table 6) fun _ _ _ => rfl

namespace ClassFile

/-! ## Classes -/

theorem stable_readHeader : Stable readHeader := by
  have version (minor major : UInt16) : Stable (do
      if major < minMajor || maxMajor < major then throw (.unsupportedVersion major minor)
      return (minor, major) : Reader (UInt16 × UInt16)) :=
    .ite ((Stable.throw _).bind fun _ => .pure _) (.pure _)
  have versions : Stable (do
      let minor ← u16
      let major ← u16
      if major < minMajor || maxMajor < major then throw (.unsupportedVersion major minor)
      return (minor, major) : Reader (UInt16 × UInt16)) :=
    Stable.u16.bind fun minor => Stable.u16.bind fun major => version minor major
  exact Stable.u32.bind fun found => .ite ((Stable.throw _).bind fun _ => versions) versions

/-- A reader of whole files: more bytes at the end turn success into the error that they are
there, and change no other error but missing bytes. -/
structure Closed {α : Type} (r : Reader α) : Prop where
  ok : ∀ {c a c'}, r c = .ok a c' → ∀ extra ≠ [],
    ∃ d, r (c.extend extra) = .error (.trailingData (c.offset + c.bytes.length)) d
  error : ∀ {c e c'}, r c = .error e c' → (∀ o, e ≠ .truncated o) →
    ∀ extra, ∃ d, r (c.extend extra) = .error e d

theorem closed_end {α : Type} (a : α) (e : Event) :
    Closed (do readEnd; Reader.record e; return a) := by
  constructor
  · rintro ⟨bytes, offset, log⟩ b c' h extra hx
    cases bytes with
    | cons x xs => cases h
    | nil =>
      cases extra with
      | nil => exact absurd rfl hx
      | cons x xs => exact ⟨_, rfl⟩
  · rintro ⟨bytes, offset, log⟩ e c' h - extra
    cases bytes with
    | nil => cases h
    | cons x xs =>
      cases h
      exact ⟨_, rfl⟩

theorem Closed.behind {α β : Type} {r : Reader α} {f : α → Reader β} (hr : Stable r)
    (hf : ∀ a, Closed (f a)) : Closed (r >>= f) := by
  constructor
  · intro c b c' h extra hx
    obtain ⟨a, d, h1, h2⟩ := bind_eq_ok.1 h
    obtain ⟨used, hb, ho⟩ := hr.advance h1
    obtain ⟨d', h'⟩ := (hf a).ok h2 extra hx
    refine ⟨d', ?_⟩
    rw [bind_run (hr.ok h1 extra), h', hb, ho, List.length_append, Nat.add_assoc]
  · exact hr.error_bind fun a _ _ _ => (hf a).error

theorem Closed.ite {α : Type} {q : Prop} [Decidable q] {r s : Reader α} (hr : Closed r)
    (hs : Closed s) : Closed (if q then r else s) := by
  split
  · exact hr
  · exact hs

theorem closed_reader (depth : Nat) : Closed (reader depth) := by
  unfold reader
  refine .behind stable_readHeader fun version => .behind Pool.stable_read fun pool =>
    .behind (.ofExcept _) fun _ => .behind .u16 fun access => .behind .u16 fun thisClass =>
    .behind (.ofExcept _) fun name => .behind .u16 fun superClass => ?_
  have member (event : String → String → Event) := (Member.stable_read pool depth event).table 8
  have attributes := (Attribute.stable_read pool depth).table 6
  have tables := Closed.behind (Stable.u16.table 2) fun interfaces =>
    .behind (member .field) fun fields => .behind (member .method) fun methods =>
    .behind attributes fun attributes => .behind (.ofExcept (pool.validateBootstrap
      ((Attribute.bootstrapMethods? attributes).getD []))) fun _ =>
    closed_end (ClassFile.mk version.1 version.2 pool ⟨access⟩ thisClass superClass interfaces
      fields methods attributes) (.parsed name version.2 version.1 pool.size fields.length
      methods.length)
  exact .ite (.behind (.ofExcept _) fun _ => tables) tables

theorem agree_reader {n depth depth' : Nat} (h : n ≤ depth) (h' : n ≤ depth') :
    Agree n (reader depth) (reader depth') := by
  unfold reader
  refine .behind stable_readHeader fun version => .behind Pool.stable_read fun pool =>
    .behind (.ofExcept _) fun _ => .behind .u16 fun access => .behind .u16 fun thisClass =>
    .behind (.ofExcept _) fun name => .behind .u16 fun superClass => ?_
  have member (event : String → String → Event) :=
    (Member.agree_read pool h h' event).table (Member.stable_read pool depth event) 8
  have attributes := (Attribute.agree_read pool h h').table (Attribute.stable_read pool depth) 6
  have tables := Agree.behind (Stable.u16.table 2) fun interfaces =>
    (member .field).bind ((Member.stable_read pool depth .field).table 8) fun fields =>
    (member .method).bind ((Member.stable_read pool depth .method).table 8) fun methods =>
    attributes.bind ((Attribute.stable_read pool depth).table 6) fun attributes => (fun _ _ => rfl :
      Agree n (do
        ofExcept (pool.validateBootstrap ((Attribute.bootstrapMethods? attributes).getD []))
        readEnd
        Reader.record (.parsed name version.2 version.1 pool.size fields.length methods.length)
        return ClassFile.mk version.1 version.2 pool ⟨access⟩ thisClass superClass interfaces
          fields methods attributes) _)
  exact .ite (.behind (.ofExcept _) fun _ => tables) tables

theorem read_eq_of_le {bytes : Bytes} (depth : Nat) (h : bytes.length ≤ depth) :
    read bytes = (reader depth).runOn bytes := by
  unfold read readLogged runOn
  rw [agree_reader (Nat.le_refl bytes.length) h (.start bytes .off) (Nat.le_refl _)]
  cases reader depth (.start bytes .off) <;> rfl

theorem read_append_of_ok {bytes extra : Bytes} {c : ClassFile} (h : read bytes = .ok c)
    (hx : extra ≠ []) : read (bytes ++ extra) = .error (.trailingData bytes.length) := by
  rw [read_eq_of_le (bytes ++ extra).length (by simp)] at h
  obtain ⟨rest, h⟩ := runOn_eq_ok.1 h
  obtain ⟨d, hd⟩ := (closed_reader _).ok h extra hx
  rw [read_eq_of_le _ (Nat.le_refl _), runOn_eq_error]
  exact ⟨d, by simpa [Cursor.start, Cursor.extend] using hd⟩

theorem read_append_of_error {bytes : Bytes} {e : Error} (h : read bytes = .error e)
    (hne : ∀ o, e ≠ .truncated o) (extra : Bytes) : read (bytes ++ extra) = .error e := by
  rw [read_eq_of_le (bytes ++ extra).length (by simp)] at h
  obtain ⟨rest, h⟩ := runOn_eq_error.1 h
  obtain ⟨d, hd⟩ := (closed_reader _).error h hne extra
  rw [read_eq_of_le _ (Nat.le_refl _), runOn_eq_error]
  exact ⟨d, hd⟩

/-- Bytes behind a class are an error that says where they start, bytes behind any other failure
change nothing, and what lacks bytes at the end fails for that. -/
theorem read_append (bytes : Bytes) {extra : Bytes} (hx : extra ≠ []) :
    (∀ c, read bytes = .ok c → read (bytes ++ extra) = .error (.trailingData bytes.length)) ∧
      (∀ e, read bytes = .error e → (∀ o, e ≠ .truncated o) → read (bytes ++ extra) = .error e) ∧
      ∀ c, read (bytes ++ extra) = .ok c → ∃ o, read bytes = .error (.truncated o) := by
  refine ⟨fun c h => read_append_of_ok h hx, fun e h hne => read_append_of_error h hne extra,
    fun c h => ?_⟩
  cases hr : read bytes with
  | ok c' =>
    rw [read_append_of_ok hr hx] at h
    cases h
  | error e =>
    by_cases hne : ∀ o, e ≠ .truncated o
    · rw [read_append_of_error hr hne extra] at h
      cases h
    · obtain ⟨o, ho⟩ := not_forall_not.1 hne
      exact ⟨o, by rw [ho]⟩

theorem read_append_withRawZero :
    (∃ c, read withRawZero = .ok c) ∧
      read (withRawZero ++ [0]) = .error (.trailingData 35) ∧
      (∃ o, read (withRawZero.take 30) = .error (.truncated o)) ∧
      read [0, 0, 0, 0] = .error (.invalidMagic 0) ∧
      read ([0, 0, 0, 0] ++ withRawZero) = .error (.invalidMagic 0) := by
  have split : withRawZero.take 30 ++ withRawZero.drop 30 = withRawZero := List.take_append_drop _ _
  have foreign : read [0, 0, 0, 0] = .error (.invalidMagic 0) := by rfl
  refine ⟨⟨_, read_withRawZero⟩, (read_append withRawZero (by simp)).1 _ read_withRawZero, ?_,
    foreign, (read_append [0, 0, 0, 0] (by simp [withRawZero])).2.1 _ foreign (by simp)⟩
  exact (@read_append (withRawZero.take 30) (withRawZero.drop 30) (by decide)).2.2 _
    (split.symm ▸ read_withRawZero)

end ClassFile

end JvmClass
