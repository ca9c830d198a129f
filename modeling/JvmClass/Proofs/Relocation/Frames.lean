import JvmClass.Proofs.Edit.Strays
import JvmClass.Proofs.Edit.Unedited
import Mathlib.Data.Nat.ModEq

/-!
# Differences of frames

A frame stands at the sum of the differences up to it, and one more for each frame before it. Two
bytes hold a difference, and two bytes the length of a table, so four bytes hold every offset. A
relocation looks offsets up by their lower two bytes, and stores what it finds as differences, in
two bytes again. Either may wrap, but sums only lose multiples of `2 ^ 16` by it, whatever the map
(`Relocation.differences_exact`).
-/

namespace JvmClass

open Relocation

/-! ## Offsets -/

namespace Frame

/-- Each frame adds `2 ^ 16` at most. -/
theorem lt_of_mem_offsetsFrom {fs : List Frame} {previous : Option Nat} {o : Nat}
    (h : o ∈ offsetsFrom previous fs) : o < offsetAfter previous 0 + 0x10000 * fs.length := by
  induction fs generalizing previous with
  | nil => simp at h
  | cons f fs ih =>
    have hdelta := f.delta.toNat_lt
    have hfirst : offsetAfter previous f.delta.toNat = offsetAfter previous 0 + f.delta.toNat := by
      cases previous <;> simp only [offsetAfter] <;> omega
    rw [offsetsFrom_cons] at h
    rw [List.length_cons]
    rcases List.mem_cons.1 h with rfl | h
    · omega
    · have hrest : o < offsetAfter previous f.delta.toNat + 0 + 1 + 0x10000 * fs.length := ih h
      omega

/-- The largest differences reach it. -/
example : offsets [.sameExtended 0xFFFF, .sameExtended 0xFFFF] = [0xFFFF, 0x1FFFF] := by
  rfl

/-- The difference is that between the offsets, up to `2 ^ 16`. -/
theorem deltaAfter_ofNat (previous : Option Nat) (delta : UInt16) :
    deltaAfter (previous.map UInt16.ofNat) (UInt16.ofNat (offsetAfter previous delta.toNat)) =
      delta := by
  cases previous with
  | none => exact UInt16.ofNat_toNat
  | some p =>
    show UInt16.ofNat (p + delta.toNat + 1) - UInt16.ofNat p - 1 = delta
    rw [UInt16.ofNat_add, UInt16.ofNat_add, UInt16.ofNat_toNat]
    grind

/-- The lower two bytes of the offsets determine the differences. `p` and `q` are the offsets of
the frames before. -/
theorem map_delta_eq {fs fs' : List Frame} {p q : Option Nat}
    (hpq : p.map UInt16.ofNat = q.map UInt16.ofNat)
    (h : List.Forall₂ (fun o o' => UInt16.ofNat o = UInt16.ofNat o') (offsetsFrom p fs)
      (offsetsFrom q fs')) : fs'.map delta = fs.map delta := by
  induction fs generalizing p q fs' with
  | nil =>
    cases fs' with
    | nil => rfl
    | cons f' fs' => simp [offsetsFrom_cons] at h
  | cons f fs ih =>
    cases fs' with
    | nil => simp [offsetsFrom_cons] at h
    | cons f' fs' =>
      rw [offsetsFrom_cons, offsetsFrom_cons] at h
      obtain ⟨hoffset, hrest⟩ := List.forall₂_cons.1 h
      have hdelta : f'.delta = f.delta := by
        rw [← deltaAfter_ofNat q f'.delta, ← hpq, ← hoffset, deltaAfter_ofNat]
      have hdeltas := ih (p := some _) (q := some _) (congrArg some hoffset) hrest
      rw [List.map_cons, List.map_cons, hdelta, hdeltas]

end Frame

/-- A table that was read is as long as two bytes can tell. -/
theorem ClassFile.Contains.length_frames_lt {bytes : Bytes} {c : ClassFile}
    (hr : read bytes = .ok c) {name : UInt16} {fs : List Frame}
    (hc : c.Contains ⟨name, .stackMapTable fs⟩) :
    fs.length < 0x10000 := by
  obtain ⟨_, _, -, _, _, -, hbody, -⟩ := read_eq_ok_iff.1 hr
  obtain ⟨depth, _, _, hs⟩ := hc.spells hbody
  cases depth with
  | zero => exact hs.elim
  | succ depth =>
    obtain ⟨_, _, -, -, ⟨-, -, -, hencode⟩, -⟩ := hs
    exact (Table.encodeM_eq_ok.1 hencode).1

/-! ## What a relocation keeps -/

/-- The type without its pool index or offset. -/
def VerificationType.blank : VerificationType → VerificationType
  | object _ => object 0
  | uninitialized _ => uninitialized 0
  | t => t

/-- The frame without its difference, and its types without what they refer to. -/
def Frame.blank : Frame → Frame
  | same _ => same 0
  | sameExtended _ => sameExtended 0
  | oneItem _ t => oneItem 0 t.blank
  | oneItemExtended _ t => oneItemExtended 0 t.blank
  | chop _ count => chop 0 count
  | append _ ts => append 0 (ts.map VerificationType.blank)
  | full _ ts us => full 0 (ts.map VerificationType.blank) (us.map VerificationType.blank)

@[simp]
theorem Frame.blank_withDelta (d : UInt16) (frame : Frame) :
    (frame.withDelta d).blank = frame.blank := by
  cases frame <;> rfl

section Runs

variable {S : ImportSource} {moved : Option OffsetMap} {b b' : Building}

theorem VerificationType.blank_of_run {t t' : VerificationType}
    (h : verificationType S moved t b = .ok t' b') : t'.blank = t.blank := by
  cases t with
  | object | uninitialized =>
    obtain ⟨_, _, -, h⟩ := bind_eq_ok.1 h
    obtain ⟨rfl, -⟩ := pure_eq_ok.1 h
    rfl
  | _ =>
    obtain ⟨rfl, -⟩ := pure_eq_ok.1 h
    rfl

theorem map_blank_of_run {ts ts' : List VerificationType}
    (h : ts.mapM (verificationType S moved) b = .ok ts' b') :
    ts'.map VerificationType.blank = ts.map VerificationType.blank :=
  map_eq_of_forall₂ ((forall₂_of_mapM_eq_ok h).imp fun _ _ ⟨_, _, ht⟩ =>
    VerificationType.blank_of_run ht)

/-- The types of a frame are relocated where they are, and it keeps its difference. -/
theorem Frame.blank_of_run {frame frame' : Frame}
    (h : frame.mapTypes (verificationType S moved) b = .ok frame' b') :
    frame'.delta = frame.delta ∧ frame'.blank = frame.blank := by
  cases frame with
  | same | sameExtended | chop =>
    obtain ⟨rfl, -⟩ := pure_eq_ok.1 h
    exact ⟨rfl, rfl⟩
  | oneItem d t | oneItemExtended d t =>
    obtain ⟨t', _, ht, h⟩ := bind_eq_ok.1 h
    obtain ⟨rfl, -⟩ := pure_eq_ok.1 h
    simp only [delta, blank, VerificationType.blank_of_run ht, and_self]
  | append d ts =>
    obtain ⟨ts', _, hts, h⟩ := bind_eq_ok.1 h
    obtain ⟨rfl, -⟩ := pure_eq_ok.1 h
    simp only [delta, blank, map_blank_of_run hts, and_self]
  | full d ts us =>
    obtain ⟨ts', _, hts, h⟩ := bind_eq_ok.1 h
    obtain ⟨us', _, hus, h⟩ := bind_eq_ok.1 h
    obtain ⟨rfl, -⟩ := pure_eq_ok.1 h
    simp only [delta, blank, map_blank_of_run hts, map_blank_of_run hus, and_self]

/-- Every new offset is the one that was found for the old offset, up to `2 ^ 16`. The frames before
stand at `p` and `q`. -/
theorem Relocation.offsets_of_framesFrom {p q : Option Nat} {fs fs' : List Frame}
    (h : framesFrom S moved (q.map UInt16.ofNat) (fs.zip (Frame.offsetsFrom p fs)) b = .ok fs' b') :
    List.Forall₂ (fun o o' => moveOffset moved (UInt16.ofNat o) = .ok (UInt16.ofNat o'))
        (Frame.offsetsFrom p fs) (Frame.offsetsFrom q fs') ∧
      fs'.map Frame.blank = fs.map Frame.blank := by
  induction fs generalizing p q fs' b b' with
  | nil =>
    rw [List.zip_nil_left, framesFrom] at h
    obtain ⟨rfl, -⟩ := pure_eq_ok.1 h
    simp
  | cons f fs ih =>
    rw [Frame.offsetsFrom_cons, List.zip_cons_cons] at h
    obtain ⟨o', f', fs', _, hfound, hf, hfs, rfl⟩ := framesFrom_cons_eq_ok.1 h
    obtain ⟨hdelta, hblank⟩ := Frame.blank_of_run hf
    rw [Frame.delta_withDelta] at hdelta
    rw [Frame.blank_withDelta] at hblank
    -- The next difference is taken from what was found, and there this frame stands, up to
    -- `2 ^ 16`.
    have hplace : UInt16.ofNat (Frame.offsetAfter q f'.delta.toNat) = o' := by
      rw [hdelta, Frame.ofNat_offsetAfter]
    rw [← hplace] at hfound hfs
    obtain ⟨hoffsets, hblanks⟩ := ih (q := some (Frame.offsetAfter q f'.delta.toNat)) hfs
    rw [Frame.offsetsFrom_cons, Frame.offsetsFrom_cons, List.map_cons, List.map_cons, hblank,
      hblanks]
    exact ⟨.cons hfound hoffsets, rfl⟩

theorem Relocation.offsets_of_frames {fs fs' : List Frame} (h : frames S moved fs b = .ok fs' b') :
    List.Forall₂ (fun o o' => moveOffset moved (UInt16.ofNat o) = .ok (UInt16.ofNat o'))
        (Frame.offsets fs) (Frame.offsets fs') ∧
      fs'.map Frame.blank = fs.map Frame.blank := by
  rw [frames_eq] at h
  rw [Frame.offsets_eq, Frame.offsets_eq]
  exact offsets_of_framesFrom (q := none) h

end Runs

/-! ## Tables -/

namespace Relocation

/-- A table that was read has at most 65535 frames, and four bytes hold the offsets of so many. With
a map, relocated frames stand at what it has for the lower two bytes of their offsets, up to
`2 ^ 16`; with none, they keep their differences. Nothing else changes but what types refer to. -/
theorem differences_exact (S : ImportSource) (fs : List Frame) :
    (∀ bytes c name table, ClassFile.read bytes = .ok c →
      c.Contains ⟨name, .stackMapTable table⟩ → table.length ≤ 65535) ∧
    (fs.length ≤ 65535 → ∀ o ∈ Frame.offsets fs, o < 2 ^ 32) ∧
    (∀ (m : OffsetMap) b fs' b', frames S (some m) fs b = .ok fs' b' →
      List.Forall₂ (fun o o' => ∃ x, m.find (UInt16.ofNat o) = .ok x ∧ o' ≡ x.toNat [MOD 2 ^ 16])
        (Frame.offsets fs) (Frame.offsets fs') ∧
      fs'.map Frame.blank = fs.map Frame.blank) ∧
    ∀ b fs' b', frames S none fs b = .ok fs' b' →
      fs'.map Frame.delta = fs.map Frame.delta ∧ fs'.map Frame.blank = fs.map Frame.blank := by
  refine ⟨fun bytes c name table hr hc => ?_, fun hlength o ho => ?_, fun m b fs' b' h => ?_,
    fun b fs' b' h => ?_⟩
  · exact Nat.le_of_lt_succ (hc.length_frames_lt hr)
  · rw [Frame.offsets_eq] at ho
    have hlt : o < 0 + 0x10000 * fs.length := Frame.lt_of_mem_offsetsFrom ho
    omega
  · obtain ⟨hoffsets, hblanks⟩ := offsets_of_frames h
    refine ⟨hoffsets.imp fun o o' hfound => ⟨_, hfound, ?_⟩, hblanks⟩
    rw [UInt16.toNat_ofNat']
    exact (Nat.mod_modEq _ _).symm
  · obtain ⟨hoffsets, hblanks⟩ := offsets_of_frames h
    rw [Frame.offsets_eq, Frame.offsets_eq] at hoffsets
    exact ⟨Frame.map_delta_eq rfl (hoffsets.imp fun _ _ hfound => Except.ok.inj hfound), hblanks⟩

/-- Frames at 0, at `2 ^ 16`, and right behind it, if the differences are 0. -/
def windingFrames (first last type made : UInt16) : List Frame :=
  [.oneItem first (.object type), .sameExtended 0xFFFF, .full last [.uninitialized made] [.integer]]

/-- The end of the code comes to stand before its start. -/
def turningMap : OffsetMap := ⟨Code.indexByOffset [.simple .vreturn], #[9, 5]⟩

theorem find_turning : turningMap.find 0 = .ok 9 ∧ turningMap.find 1 = .ok 5 :=
  ⟨OffsetMap.find_eq_ok.2 ⟨0, Code.indexByOffset_eq_some_iff.2 rfl, rfl⟩,
    OffsetMap.find_eq_ok.2 ⟨1, Code.indexByOffset_eq_some_iff.2 rfl, rfl⟩⟩

theorem frames_winding {S : ImportSource} {j : UInt16} {b b' : Building}
    (h : index S 2 b = .ok j b') :
    frames S (some turningMap) (windingFrames 0 0 2 0) b = .ok (windingFrames 9 65531 j 9) b' ∧
      frames S none (windingFrames 0 0 2 0) b = .ok (windingFrames 0 0 j 0) b' := by
  obtain ⟨h0, h1⟩ := find_turning
  have hfirst : turningMap.find (UInt16.ofNat 0) = .ok 9 := h0
  have hsecond : turningMap.find (UInt16.ofNat 65536) = .ok 9 := h0
  have hthird : turningMap.find (UInt16.ofNat 65537) = .ok 5 := h1
  have hobject (moved : Option OffsetMap) (d : UInt16) :
      (Frame.oneItem d (.object 2)).mapTypes (verificationType S moved) b =
        .ok (.oneItem d (.object j)) b' := by
    rw [Frame.mapTypes, verificationType, bind_assoc, bind_run h]
    rfl
  have hmade (d : UInt16) : (Frame.full d [.uninitialized 0] [.integer]).mapTypes
      (verificationType S (some turningMap)) b' =
        .ok (.full d [.uninitialized 9] [.integer]) b' := by
    simp only [Frame.mapTypes, List.mapM_cons, verificationType, moveOffset, h0]
    rfl
  constructor
  · rw [frames_eq]
    exact framesFrom_cons_eq_ok.2 ⟨9, _, _, b', hfirst, hobject _ 9, framesFrom_cons_eq_ok.2
      ⟨9, _, _, b', hsecond, rfl, framesFrom_cons_eq_ok.2 ⟨5, _, _, b', hthird, hmade 65531, rfl,
        rfl⟩, rfl⟩, rfl⟩
  · rw [frames_eq]
    exact framesFrom_cons_eq_ok.2 ⟨0, _, _, b', rfl, hobject _ 0, rfl, rfl⟩

theorem index_winding : ∃ j g, index (Draft.importSource Draft.wrappedClass) 2 ⟨.empty, .off⟩ =
    .ok j ⟨g, .off⟩ := by
  have hname : Draft.wrappedClass.pool.className 2 = .ok "A" := by cbv
  obtain ⟨j, g, h, -⟩ := Draft.classRef_run (P := fun _ => True) GrowingPool.inv_empty "A" trivial
    trivial (by decide) (by decide)
  refine ⟨j, g, ?_⟩
  rw [index, Grow.importEntry_of_className hname]
  exact h

theorem differences_exact_winding :
    ∃ j b, ClassFile.read Draft.wrapped = .ok Draft.wrappedClass ∧
      Draft.wrappedClass.Contains ⟨7, .stackMapTable [.same 0, .sameExtended 0xFFFF]⟩ ∧
      [Frame.same 0, .sameExtended 0xFFFF].length ≤ 65535 ∧
      (windingFrames 0 0 2 0).length ≤ 65535 ∧
      (∀ o ∈ Frame.offsets (windingFrames 0 0 2 0), o < 2 ^ 32) ∧
      frames (Draft.importSource Draft.wrappedClass) (some turningMap) (windingFrames 0 0 2 0)
        ⟨.empty, .off⟩ = .ok (windingFrames 9 65531 j 9) b ∧
      List.Forall₂ (fun o o' => ∃ x, turningMap.find (UInt16.ofNat o) = .ok x ∧
          o' ≡ x.toNat [MOD 2 ^ 16])
        (Frame.offsets (windingFrames 0 0 2 0)) (Frame.offsets (windingFrames 9 65531 j 9)) ∧
      (windingFrames 9 65531 j 9).map Frame.blank = (windingFrames 0 0 2 0).map Frame.blank ∧
      frames (Draft.importSource Draft.wrappedClass) none (windingFrames 0 0 2 0) ⟨.empty, .off⟩ =
        .ok (windingFrames 0 0 j 0) b ∧
      (windingFrames 0 0 j 0).map Frame.delta = (windingFrames 0 0 2 0).map Frame.delta ∧
      (windingFrames 0 0 j 0).map Frame.blank = (windingFrames 0 0 2 0).map Frame.blank := by
  obtain ⟨j, g, hindex⟩ := index_winding
  obtain ⟨hmoved, hkept⟩ := frames_winding hindex
  have hcontains : Draft.wrappedClass.Contains
      ⟨7, .stackMapTable [.same 0, .sameExtended 0xFFFF]⟩ :=
    .inr ⟨_, .inr List.mem_cons_self,
      .code List.mem_cons_self (.here (List.mem_cons_of_mem _ List.mem_cons_self))⟩
  have hlength : (windingFrames 0 0 2 0).length ≤ 65535 := by decide
  obtain ⟨hread, hbound, hmap, hnone⟩ :=
    differences_exact (Draft.importSource Draft.wrappedClass) (windingFrames 0 0 2 0)
  obtain ⟨hoffsets, hblanks⟩ := hmap _ _ _ _ hmoved
  obtain ⟨hdeltas, hblanks'⟩ := hnone _ _ _ hkept
  exact ⟨j, ⟨g, .off⟩, Draft.read_wrapped, hcontains, hread _ _ _ _ Draft.read_wrapped hcontains,
    hlength, hbound hlength, hmoved, hoffsets, hblanks, hkept, hdeltas, hblanks'⟩

end Relocation

end JvmClass
