import JvmClass.Proofs.Code.Flow
import JvmClass.Proofs.Pool.Acyclic
import Mathlib.Order.Bounds.Basic

/-!
# Walks along the flow of control

A walk takes one arrival after the other and visits its instruction once. In whatever order it takes
them it comes to an end; and where all ways to an instruction bring the same depth, a walk that does
not fail has visited all that control reaches, and has seen the greatest depth there is. So the
maxima of code are what they should be.
-/

namespace JvmClass.Code

open Instruction

/-! ## Walks in any order -/

namespace Walk

/-- Where a walk stands. -/
structure State where
  visited : Array Bool
  arrivals : List Arrival
  deepest : UInt16

/-- The walk is about to visit the instruction of an arrival; it may take any. -/
structure Visits (w : Walk) (s : State) (here : Arrival) (rest : List Arrival) (i : Instruction) :
    Prop where
  taken : s.arrivals.Perm (here :: rest)
  unvisited : s.visited[here.index]? = some false
  instruction : w.code[here.index]? = some i

/-- One step of a walk. -/
inductive Next (w : Walk) : State → State → Prop
  | skip {s here rest} : s.arrivals.Perm (here :: rest) → s.visited[here.index]? ≠ some false →
      Next w s { s with arrivals := rest }
  | visit {s here rest i ways after} : w.Visits s here rest i →
      w.step here i = .ok (ways, after) →
      Next w s ⟨s.visited.setIfInBounds here.index true, ways ++ rest,
        max s.deepest (max here.depth after)⟩

/-- The walk stops short with an error. -/
def Fails (w : Walk) (s : State) (e : Error) : Prop :=
  ∃ here rest i, w.Visits s here rest i ∧ w.step here i = .error e

/-- A walk from here can end with this answer. -/
def Ends (w : Walk) (s : State) : Except Error UInt16 → Prop
  | .ok greatest => ∃ t, Relation.ReflTransGen w.Next s t ∧ t.arrivals = [] ∧ t.deepest = greatest
  | .error e => ∃ t, Relation.ReflTransGen w.Next s t ∧ w.Fails t e

/-- How many instructions are still to be visited. -/
def State.unvisited (s : State) : Nat := s.visited.toList.count false

variable {w : Walk} {s t : State}

theorem unvisited_set_lt {visited : Array Bool} {index : Nat} (h : visited[index]? = some false) :
    (visited.setIfInBounds index true).toList.count false < visited.toList.count false := by
  rw [Array.toList_setIfInBounds]
  exact Pool.count_set_lt (by decide) (by simpa using h)

/-- With a step there is less to visit, or as much and one arrival less. -/
theorem Next.decreases (h : w.Next s t) :
    Prod.Lex (· < ·) (· < ·) (t.unvisited, t.arrivals.length) (s.unvisited, s.arrivals.length) := by
  cases h with
  | skip hp _ =>
    refine .right _ ?_
    rw [hp.length_eq]
    simp
  | visit hv _ => exact .left _ _ (unvisited_set_lt hv.unvisited)

/-- No walk goes on for ever. -/
theorem wellFounded_next (w : Walk) : WellFounded (flip w.Next) :=
  Subrelation.wf (fun h => Next.decreases h)
    (InvImage.wf (fun s : State => (s.unvisited, s.arrivals.length))
      (Prod.lex Nat.lt_wfRel Nat.lt_wfRel).wf)

theorem getD_eq_false {visited : Array Bool} {index : Nat} :
    visited.getD index true = false ↔ visited[index]? = some false := by
  rw [Array.getD_eq_getD_getElem?]
  cases visited[index]? <;> simp

/-- What stands in front of the first unvisited arrival is skipped. -/
theorem run_nextUnvisited (w : Walk) (visited : Array Bool) (arrivals : List Arrival)
    (deepest : UInt16) :
    match nextUnvisited visited arrivals with
    | none => Relation.ReflTransGen w.Next ⟨visited, arrivals, deepest⟩ ⟨visited, [], deepest⟩
    | some (here, rest) => visited[here.index]? = some false ∧
      Relation.ReflTransGen w.Next ⟨visited, arrivals, deepest⟩
        ⟨visited, here :: rest, deepest⟩ := by
  induction arrivals with
  | nil => exact .refl
  | cons here rest ih =>
    by_cases hold : visited.getD here.index true = true
    · have hskip : w.Next ⟨visited, here :: rest, deepest⟩ ⟨visited, rest, deepest⟩ := by
        refine .skip (.refl _) fun hnew => ?_
        rw [getD_eq_false.2 hnew] at hold
        cases hold
      rw [nextUnvisited, if_pos hold]
      split
      · rename_i hnone
        rw [hnone] at ih
        exact .head hskip ih
      · rename_i hsome
        rw [hsome] at ih
        exact ⟨ih.1, .head hskip ih.2⟩
    · rw [nextUnvisited, if_neg hold]
      exact ⟨getD_eq_false.1 (Bool.not_eq_true _ ▸ hold), .refl⟩

theorem Ends.of_run {answer : Except Error UInt16} (h : w.Ends t answer)
    (hrun : Relation.ReflTransGen w.Next s t) : w.Ends s answer := by
  cases answer with
  | ok greatest =>
    obtain ⟨last, hlast, hend⟩ := h
    exact ⟨last, hrun.trans hlast, hend⟩
  | error e =>
    obtain ⟨last, hlast, hend⟩ := h
    exact ⟨last, hrun.trans hlast, hend⟩

/-- The walk that takes the last arrival first, bounded by the number of instructions, is one of
the walks in any order. -/
theorem ends_visit {budget : Nat} {visited : Array Bool} {arrivals : List Arrival}
    {deepest : UInt16} (hsize : visited.size = w.code.size)
    (hb : visited.toList.count false ≤ budget) :
    w.Ends ⟨visited, arrivals, deepest⟩ (w.visit budget visited arrivals deepest) := by
  induction budget generalizing visited arrivals deepest with
  | zero =>
    have hskipped := run_nextUnvisited w visited arrivals deepest
    cases hnext : nextUnvisited visited arrivals with
    | none =>
      rw [hnext] at hskipped
      exact ⟨_, hskipped, rfl, rfl⟩
    | some found =>
      rw [hnext] at hskipped
      have hless := unvisited_set_lt hskipped.1
      omega
  | succ budget ih =>
    have hskipped := run_nextUnvisited w visited arrivals deepest
    rw [visit]
    cases hnext : nextUnvisited visited arrivals with
    | none =>
      rw [hnext] at hskipped
      exact ⟨_, hskipped, rfl, rfl⟩
    | some found =>
      obtain ⟨here, rest⟩ := found
      rw [hnext] at hskipped
      obtain ⟨hnew, hrun⟩ := hskipped
      have hlt : here.index < w.code.size := by
        rw [← hsize]
        exact (Array.getElem?_eq_some_iff.1 hnew).1
      have hi := Array.getElem?_eq_getElem hlt
      have hvisits : w.Visits ⟨visited, here :: rest, deepest⟩ here rest w.code[here.index] :=
        ⟨.refl _, hnew, hi⟩
      simp only [hi]
      cases hstep : w.step here w.code[here.index] with
      | error e => exact ⟨_, hrun, here, rest, _, hvisits, hstep⟩
      | ok result =>
        have hless := unvisited_set_lt hnew
        have hsize' : (visited.setIfInBounds here.index true).size = w.code.size := by
          rw [Array.size_setIfInBounds, hsize]
        exact (ih hsize' (by omega)).of_run (hrun.tail (.visit hvisits hstep))

end Walk

namespace Flow

/-! ## What a walk has seen -/

/-- An instruction is visited, or is going to be. -/
def SeenTo (s : Walk.State) (index : Nat) : Prop :=
  s.visited[index]? = some true ∨ ∃ here ∈ s.arrivals, here.index = index

/-- The greatest of the depths around some instructions, or zero. -/
def Deepest (f : Flow) (depths : Nat → Nat) (indices : Nat → Prop) (deepest : Nat) : Prop :=
  IsGreatest (insert 0 {depth | ∃ index, indices index ∧ f.DepthAt depths index depth}) deepest

/-- A walk sets out from all roots. -/
structure Begins (f : Flow) (s : Walk.State) : Prop where
  visited : s.visited = Array.replicate f.code.length false
  arrivals : ∀ index depth, ⟨index, depth⟩ ∈ s.arrivals ↔ f.Root index depth.toNat
  deepest : s.deepest = 0

/-- What holds of a walk at any time. -/
structure Visiting (f : Flow) (depths : Nat → Nat) (s : Walk.State) : Prop where
  size : s.visited.size = f.code.length
  arrived : ∀ here ∈ s.arrivals, f.Reaches here.index here.depth.toNat
  roots : ∀ index depth, f.Root index depth → SeenTo s index
  passable : ∀ index, s.visited[index]? = some true →
    f.Reachable index ∧ f.Passable index (depths index)
  edges : ∀ index next, s.visited[index]? = some true → f.Edge index next → SeenTo s next
  deepest : f.Deepest depths (fun index => s.visited[index]? = some true) s.deepest.toNat

variable {f : Flow} {depths : Nat → Nat} {s t : Walk.State}

theorem Begins.visiting (h : f.Begins s) : f.Visiting depths s := by
  have hnone (index : Nat) : s.visited[index]? ≠ some true := by
    rw [h.visited, Array.getElem?_replicate]
    split <;> simp
  constructor
  case size => simp [h.visited]
  case arrived => exact fun here hm => .root ((h.arrivals _ _).1 hm)
  case roots =>
    intro index depth hr
    obtain ⟨word, rfl⟩ := hr.exists_toNat_eq
    exact .inr ⟨_, (h.arrivals index word).2 hr, rfl⟩
  case passable => exact fun index hv => absurd hv (hnone index)
  case edges => exact fun index _ hv => absurd hv (hnone index)
  case deepest =>
    rw [h.deepest]
    simp [Deepest, hnone, isGreatest_singleton]

/-- The depths around an instruction that is passed are those on arrival and behind it. -/
theorem depthAt_iff {here : Arrival} {i : Instruction} {after depth : Nat}
    (hi : f.code[here.index]? = some i) (hd : depths here.index = here.depth.toNat)
    (ht : f.Takes i here.depth.toNat after) :
    f.DepthAt depths here.index depth ↔ depth = here.depth.toNat ∨ depth = after := by
  unfold DepthAt
  rw [hd]
  refine or_congr_right ⟨?_, ?_⟩
  · rintro ⟨i', hi', ht'⟩
    cases hi.symm.trans hi'
    exact ht'.unique ht
  · rintro rfl
    exact ⟨i, hi, ht⟩

theorem visited_set_iff {visited : Array Bool} {k : Nat} (hk : visited[k]? = some false)
    (index : Nat) :
    (visited.setIfInBounds k true)[index]? = some true ↔
      visited[index]? = some true ∨ index = k := by
  have hlt : k < visited.size := by
    by_contra hge
    rw [Array.getElem?_eq_none (by omega)] at hk
    cases hk
  rw [Array.getElem?_setIfInBounds]
  by_cases he : k = index
  · simp [he ▸ hlt, he]
  · simp [he, Ne.symm he]

theorem Visiting.skip {here : Arrival} {rest : List Arrival} (h : f.Visiting depths s)
    (hp : s.arrivals.Perm (here :: rest)) (hold : s.visited[here.index]? ≠ some false) :
    f.Visiting depths { s with arrivals := rest } := by
  have hv : s.visited[here.index]? = some true := by
    have hlt := (h.arrived here (hp.mem_iff.2 List.mem_cons_self)).reachable.inCode
    rw [← h.size] at hlt
    rw [Array.getElem?_eq_getElem hlt] at hold ⊢
    simpa using hold
  have hseen {index : Nat} (hs : SeenTo s index) : SeenTo { s with arrivals := rest } index := by
    rcases hs with hs | ⟨there, hm, rfl⟩
    · exact .inl hs
    · rcases List.mem_cons.1 (hp.mem_iff.1 hm) with rfl | hm
      · exact .inl hv
      · exact .inr ⟨there, hm, rfl⟩
  exact
    { size := h.size
      arrived := fun there hm => h.arrived there (hp.mem_iff.2 (List.mem_cons_of_mem _ hm))
      roots := fun index depth hr => hseen (h.roots index depth hr)
      passable := h.passable
      edges := fun index next hi he => hseen (h.edges index next hi he)
      deepest := h.deepest }

theorem Visiting.visit {here : Arrival} {rest ways : List Arrival} {i : Instruction}
    {after : UInt16} (h : f.Visiting depths s) (hd : f.Agrees depths)
    (hv : f.walk.Visits s here rest i) (hok : f.walk.step here i = .ok (ways, after)) :
    f.Visiting depths ⟨s.visited.setIfInBounds here.index true, ways ++ rest,
      max s.deepest (max here.depth after)⟩ := by
  obtain ⟨hp, hnew, hi⟩ := hv
  replace hi : f.code[here.index]? = some i := by simpa [walk] using hi
  obtain ⟨htakes, hpassable, hcarries, hedges⟩ := step_eq_ok hi hok
  have hreaches := h.arrived here (hp.mem_iff.2 List.mem_cons_self)
  have hdepth := hd.depth_eq hreaches
  have hmarked := visited_set_iff hnew
  have hseen {index : Nat} (hs : SeenTo s index) :
      SeenTo ⟨s.visited.setIfInBounds here.index true, ways ++ rest,
        max s.deepest (max here.depth after)⟩ index := by
    rcases hs with hs | ⟨there, hm, rfl⟩
    · exact .inl ((hmarked index).2 (.inl hs))
    · rcases List.mem_cons.1 (hp.mem_iff.1 hm) with rfl | hm
      · exact .inl ((hmarked _).2 (.inr rfl))
      · exact .inr ⟨there, List.mem_append_right ways hm, rfl⟩
  constructor
  case size => simpa using h.size
  case arrived =>
    intro there hm
    rcases List.mem_append.1 hm with hm | hm
    · exact .carry hreaches (hcarries there hm)
    · exact h.arrived there (hp.mem_iff.2 (List.mem_cons_of_mem _ hm))
  case roots => exact fun index depth hr => hseen (h.roots index depth hr)
  case passable =>
    intro index hm
    rcases (hmarked index).1 hm with hm | rfl
    · exact h.passable index hm
    · exact ⟨hreaches.reachable, hdepth ▸ hpassable⟩
  case edges =>
    intro index next hm he
    rcases (hmarked index).1 hm with hm | rfl
    · exact hseen (h.edges index next hm he)
    · obtain ⟨way, hw, rfl⟩ := hedges next he
      exact .inr ⟨way, List.mem_append_left rest hw, rfl⟩
  case deepest =>
    -- The depths seen are those seen before, and the two around the new instruction.
    have hsets : insert 0 {depth | ∃ index,
          (s.visited.setIfInBounds here.index true)[index]? = some true ∧
            f.DepthAt depths index depth} =
        insert 0 {depth | ∃ index, s.visited[index]? = some true ∧ f.DepthAt depths index depth} ∪
          {here.depth.toNat, after.toNat} := by
      ext depth
      simp only [hmarked, Set.mem_insert_iff, Set.mem_ofPred_eq, Set.mem_union,
        Set.mem_singleton_iff, or_and_right, exists_or, exists_eq_left,
        depthAt_iff hi hdepth htakes, or_assoc]
    unfold Deepest
    rw [hsets, UInt16.toNat_max, UInt16.toNat_max]
    exact h.deepest.union isGreatest_pair

/-- A step of a walk keeps what holds of it. -/
theorem Visiting.next (h : f.Visiting depths s) (hd : f.Agrees depths) (hn : f.walk.Next s t) :
    f.Visiting depths t := by
  cases hn with
  | skip hp hv => exact h.skip hp hv
  | visit hv hok => exact h.visit hd hv hok

theorem Visiting.run (h : f.Visiting depths s) (hd : f.Agrees depths)
    (hr : Relation.ReflTransGen f.walk.Next s t) : f.Visiting depths t := by
  induction hr with
  | refl => exact h
  | tail _ hn ih => exact ih.next hd hn

/-- A walk with nothing left to do has visited all that control reaches. -/
theorem Visiting.finished (h : f.Visiting depths s) (hdone : s.arrivals = []) :
    (∀ index, f.Reachable index → f.Passable index (depths index)) ∧
      f.Deepest depths f.Reachable s.deepest.toNat := by
  have hseen {index : Nat} (hs : SeenTo s index) : s.visited[index]? = some true := by
    rcases hs with hs | ⟨here, hm, -⟩
    · exact hs
    · simp [hdone] at hm
  have hall (index : Nat) : s.visited[index]? = some true ↔ f.Reachable index := by
    refine ⟨fun hv => (h.passable index hv).1, fun hr => ?_⟩
    induction hr with
    | root hr => exact hseen (h.roots _ _ hr)
    | edge _ he ih => exact hseen (h.edges _ _ ih he)
  refine ⟨fun index hr => (h.passable index ((hall index).2 hr)).2, ?_⟩
  have hdeepest := h.deepest
  simp only [hall] at hdeepest
  exact hdeepest

/-- A walk fails only where control cannot go on. -/
theorem Visiting.fails {e : Error} (h : f.Visiting depths s) (hd : f.Agrees depths)
    (hf : f.walk.Fails s e) :
    ∃ index, f.Reachable index ∧ ¬f.Passable index (depths index) ∧
      (e.isUnderflow = true → f.Underflows index (depths index) e) := by
  obtain ⟨here, rest, i, ⟨hp, -, hi⟩, he⟩ := hf
  have hreaches := h.arrived here (hp.mem_iff.2 List.mem_cons_self)
  obtain ⟨hno, hunder⟩ := step_eq_error (by simpa [walk] using hi) he
  refine ⟨here.index, hreaches.reachable, ?_⟩
  rw [hd.depth_eq hreaches]
  exact ⟨hno, hunder⟩

/-- A walk with something left to do goes on or fails. -/
theorem Visiting.progress (h : f.Visiting depths s) (hleft : s.arrivals ≠ []) :
    (∃ t, f.walk.Next s t) ∨ ∃ e, f.walk.Fails s e := by
  obtain ⟨here, rest, harrivals⟩ := List.exists_cons_of_ne_nil hleft
  have hp : s.arrivals.Perm (here :: rest) := .of_eq harrivals
  by_cases hnew : s.visited[here.index]? = some false
  · have hlt : here.index < f.walk.code.size := by
      have hin := (h.arrived here (hp.mem_iff.2 List.mem_cons_self)).reachable.inCode
      simpa [walk] using hin
    have hv : f.walk.Visits s here rest f.walk.code[here.index] :=
      ⟨hp, hnew, Array.getElem?_eq_getElem hlt⟩
    cases hstep : f.walk.step here f.walk.code[here.index] with
    | ok result => exact .inl ⟨_, .visit hv hstep⟩
    | error e => exact .inr ⟨e, here, rest, _, hv, hstep⟩
  · exact .inl ⟨_, .skip hp hnew⟩

end Flow

/-! ## The maxima -/

theorem isGreatest_insert_max {a b greatest : Nat} {depths : Set Nat}
    (h : IsGreatest (insert (max a b) depths) greatest) :
    IsGreatest (insert a (insert b depths)) greatest := by
  obtain ⟨hmem, hbound⟩ := h
  simp only [upperBounds_insert, Set.mem_inter_iff, Set.mem_Ici, Nat.max_le] at hbound
  refine ⟨?_, ?_⟩
  · rcases hmem with rfl | hmem
    · rcases Nat.le_total a b with hle | hle
      · simp [hle]
      · simp [hle]
    · exact .inr (.inr hmem)
  · simp only [upperBounds_insert, Set.mem_inter_iff, Set.mem_Ici]
    tauto

theorem maxLocals_eq_ok {code : List Instruction} {initial locals : UInt16}
    (h : maxLocals code initial = .ok locals) :
    (∀ i ∈ code, ∀ last, localsEnd? i = some last → last < 0x10000) ∧
      IsGreatest (insert initial.toNat {last | ∃ i ∈ code, localsEnd? i = some last})
        locals.toNat := by
  unfold maxLocals at h
  induction code generalizing initial with
  | nil =>
    cases h
    simp [isGreatest_singleton]
  | cons i code ih =>
    rw [List.foldlM_cons] at h
    obtain ⟨most, hmost, h⟩ := exceptBind_eq_ok.1 h
    obtain ⟨hlimit, hgreatest⟩ := ih h
    have hset : {last | ∃ j ∈ i :: code, localsEnd? j = some last} =
        {last | localsEnd? i = some last} ∪ {last | ∃ j ∈ code, localsEnd? j = some last} := by
      ext last
      simp
    rw [List.forall_mem_cons, hset]
    split at hmost
    · rename_i hnone
      cases hmost
      simpa [hnone] using ⟨hlimit, hgreatest⟩
    · rename_i last hlast
      split at hmost
      · rename_i hlt
        cases hmost
        rw [UInt16.toNat_max, UInt16.toNat_ofNat_of_lt' hlt] at hgreatest
        refine ⟨⟨fun last' h' => ?_, hlimit⟩, ?_⟩
        · cases hlast.symm.trans h'
          exact hlt
        · simpa [hlast, Set.insert_union] using isGreatest_insert_max hgreatest
      · cases hmost

theorem maxLocals_eq_error {code : List Instruction} {initial : UInt16} {e : Error}
    (h : maxLocals code initial = .error e) :
    e = .tooManyEntries .localVariables 0x10000 ∧
      ∃ i ∈ code, ∃ last, localsEnd? i = some last ∧ 0x10000 ≤ last := by
  unfold maxLocals at h
  induction code generalizing initial with
  | nil => cases h
  | cons i code ih =>
    rw [List.foldlM_cons] at h
    rcases exceptBind_eq_error.1 h with hi | ⟨most, -, h⟩
    · split at hi
      · cases hi
      · rename_i last hlast
        split at hi
        · cases hi
        · rename_i hge
          cases hi
          exact ⟨rfl, i, List.mem_cons_self, last, hlast, Nat.le_of_not_lt hge⟩
    · obtain ⟨he, i', hi', hlast⟩ := ih h
      exact ⟨he, i', List.mem_cons_of_mem i hi', hlast⟩

namespace Flow

variable {f : Flow} {depths : Nat → Nat}

/-- The arrivals from which the maxima are computed. -/
theorem begins_of_mapM {caught : List Arrival} (h : (f.handlers.mapM fun handler => do
      return Arrival.mk (← f.walk.find handler handler) 1) = .ok caught) :
    f.Begins ⟨Array.replicate f.code.length false,
      caught.reverse ++ if f.code.isEmpty then [] else [⟨0, 0⟩], 0⟩ := by
  have hcaught := mapM_find_eq_ok.1 h
  refine ⟨rfl, fun index depth => ?_, rfl⟩
  rw [List.mem_append, List.mem_reverse]
  constructor
  · rintro (hm | hm)
    · obtain ⟨handler, hh, hs, hdepth⟩ := exists_of_forall₂ hcaught _ hm
      cases hdepth
      exact .handler hh hs
    · split at hm
      · cases hm
      · rename_i hne
        cases List.mem_singleton.1 hm
        exact .start (by simpa using hne)
  · intro hr
    generalize hword : depth.toNat = entry at hr
    cases hr with
    | start hne =>
      right
      obtain rfl : depth = 0 := UInt16.toNat_inj.1 hword
      simp [hne]
    | handler hh hs =>
      left
      obtain rfl : depth = 1 := UInt16.toNat_inj.1 hword
      obtain ⟨⟨index', depth'⟩, hm, hs', hdepth⟩ := exists_of_forall₂ hcaught.flip _ hh
      cases hs'.unique hs
      cases hdepth
      exact hm

/-- The maxima are those of a walk from the roots, if there are handlers where they should be. -/
theorem maxima_cases (f : Flow) (initial : UInt16) :
    (∃ handler ∈ f.handlers, (∀ index, ¬f.StartsAt handler index) ∧
      maxima f.pool f.code f.offsets f.handlers initial =
        .error (.invalidBranchTarget handler handler)) ∨
    (∀ handler ∈ f.handlers, ∃ index, f.StartsAt handler index) ∧
      ∃ s answer, f.Begins s ∧ f.walk.Ends s answer ∧
        maxima f.pool f.code f.offsets f.handlers initial =
          (do return (← answer, ← maxLocals f.code initial)) := by
  have hmaxima : maxima f.pool f.code f.offsets f.handlers initial = (do
      let caught ← f.handlers.mapM fun handler => do
        return Arrival.mk (← f.walk.find handler handler) 1
      return (← f.walk.visit f.code.length (Array.replicate f.code.length false)
        (caught.reverse ++ if f.code.isEmpty then [] else [⟨0, 0⟩]) 0,
        ← maxLocals f.code initial)) := rfl
  rw [hmaxima]
  cases hcaught : (f.handlers.mapM fun handler => do
      return Arrival.mk (← f.walk.find handler handler) 1) with
  | error e =>
    obtain ⟨handler, hh, hno, rfl⟩ := mapM_find_eq_error hcaught
    exact .inl ⟨handler, hh, hno, rfl⟩
  | ok caught =>
    refine .inr ⟨fun handler hh => ?_, _, _, begins_of_mapM hcaught, ?_, rfl⟩
    · obtain ⟨here, -, hs, -⟩ := exists_of_forall₂ (mapM_find_eq_ok.1 hcaught).flip handler hh
      exact ⟨here.index, hs⟩
    · exact Walk.ends_visit (by simp [walk]) (by simp)

/-- Nothing is in the way of a walk, and all locals fit. -/
structure Clear (f : Flow) (depths : Nat → Nat) : Prop where
  handlers : ∀ handler ∈ f.handlers, ∃ index, f.StartsAt handler index
  passable : ∀ index, f.Reachable index → f.Passable index (depths index)
  locals : ∀ i ∈ f.code, ∀ last, localsEnd? i = some last → last < 0x10000

theorem maxima_eq_ok (hd : f.Agrees depths) {initial stack locals : UInt16}
    (h : maxima f.pool f.code f.offsets f.handlers initial = .ok (stack, locals)) :
    f.Clear depths ∧ f.Deepest depths f.Reachable stack.toNat ∧
      IsGreatest (insert initial.toNat {last | ∃ i ∈ f.code, localsEnd? i = some last})
        locals.toNat := by
  rcases maxima_cases f initial with ⟨_, _, _, herror⟩ | ⟨hhandlers, s, answer, hs, hends, hm⟩
  · rw [herror] at h
    cases h
  · rw [hm] at h
    obtain ⟨deepest, hanswer, hrest⟩ := exceptBind_eq_ok.1 h
    obtain ⟨most, hlocals, hpair⟩ := exceptBind_eq_ok.1 hrest
    cases hpair
    subst hanswer
    obtain ⟨t, hrun, hdone, rfl⟩ := hends
    obtain ⟨hpassable, hdeepest⟩ := (hs.visiting.run hd hrun).finished hdone
    obtain ⟨hlimit, hgreatest⟩ := maxLocals_eq_ok hlocals
    exact ⟨⟨hhandlers, hpassable, hlimit⟩, hdeepest, hgreatest⟩

theorem maxima_eq_error (hd : f.Agrees depths) {initial : UInt16} {e : Error}
    (h : maxima f.pool f.code f.offsets f.handlers initial = .error e) :
    ¬f.Clear depths ∧ (e.isUnderflow = true →
      ∃ index, f.Reachable index ∧ f.Underflows index (depths index) e) := by
  rcases maxima_cases f initial with ⟨handler, hh, hno, herror⟩ | ⟨-, s, answer, hs, hends, hm⟩
  · cases herror.symm.trans h
    refine ⟨fun hclear => ?_, nofun⟩
    obtain ⟨index, hstart⟩ := hclear.handlers handler hh
    exact hno index hstart
  · rw [hm] at h
    rcases exceptBind_eq_error.1 h with rfl | ⟨deepest, -, h⟩
    · obtain ⟨t, hrun, hfails⟩ := hends
      obtain ⟨index, hr, hno, hunder⟩ := (hs.visiting.run hd hrun).fails hd hfails
      exact ⟨fun hclear => hno (hclear.passable index hr), fun hu => ⟨index, hr, hunder hu⟩⟩
    · rcases exceptBind_eq_error.1 h with hlocals | ⟨most, -, h⟩
      · obtain ⟨rfl, i, hi, last, hlast, hge⟩ := maxLocals_eq_error hlocals
        refine ⟨fun hclear => ?_, nofun⟩
        exact absurd (hclear.locals i hi last hlast) (Nat.not_lt.2 hge)
      · cases h

/-- A walk that set out from all roots stands here, in whatever order it took its arrivals. -/
def Underway (f : Flow) (t : Walk.State) : Prop :=
  ∃ s, f.Begins s ∧ Relation.ReflTransGen f.walk.Next s t

theorem Underway.visiting {t : Walk.State} (h : f.Underway t) (hd : f.Agrees depths) :
    f.Visiting depths t := by
  obtain ⟨s, hs, hrun⟩ := h
  exact hs.visiting.run hd hrun

/-- The maxima are what the flow of control makes them. -/
structure Exact (f : Flow) (depths : Nat → Nat) (initial : UInt16) : Prop where
  exists_iff : (∃ greatest, maxima f.pool f.code f.offsets f.handlers initial = .ok greatest) ↔
    f.Clear depths
  greatest : ∀ stack locals,
    maxima f.pool f.code f.offsets f.handlers initial = .ok (stack, locals) →
      f.Deepest depths f.Reachable stack.toNat ∧
        IsGreatest (insert initial.toNat {last | ∃ i ∈ f.code, localsEnd? i = some last})
          locals.toNat
  /-- An error about missing operands is about a reachable instruction that lacks them. -/
  underflow : ∀ e, maxima f.pool f.code f.offsets f.handlers initial = .error e →
    e.isUnderflow = true → ∃ index, f.Reachable index ∧ f.Underflows index (depths index) e
  /-- A walk in any order comes to an end. -/
  terminates : WellFounded (flip f.walk.Next)
  finished : ∀ t, f.Underway t → t.arrivals = [] →
    (∀ index, f.Reachable index → f.Passable index (depths index)) ∧
      f.Deepest depths f.Reachable t.deepest.toNat
  progress : ∀ t, f.Underway t → t.arrivals ≠ [] →
    (∃ u, f.walk.Next t u) ∨ ∃ e, f.walk.Fails t e
  fails : ∀ t e, f.Underway t → f.walk.Fails t e →
    ∃ index, f.Reachable index ∧ ¬f.Passable index (depths index)

/-- Where the depths agree, the maxima exist exactly if nothing is in the way, and are exact. A walk
in any other order ends, too, and finds the same depth, or fails where there is no way on. -/
theorem maxima_exact (hd : f.Agrees depths) (initial : UInt16) : f.Exact depths initial := by
  constructor
  case exists_iff =>
    constructor
    · rintro ⟨⟨stack, locals⟩, hok⟩
      exact (maxima_eq_ok hd hok).1
    · intro hclear
      cases hm : maxima f.pool f.code f.offsets f.handlers initial with
      | ok greatest => exact ⟨greatest, rfl⟩
      | error e => exact absurd hclear (maxima_eq_error hd hm).1
  case greatest => exact fun stack locals hok => (maxima_eq_ok hd hok).2
  case underflow => exact fun e he => (maxima_eq_error hd he).2
  case terminates => exact Walk.wellFounded_next f.walk
  case finished => exact fun t ht => (ht.visiting hd).finished
  case progress => exact fun t ht => (ht.visiting hd).progress
  case fails =>
    intro t e ht he
    obtain ⟨index, hr, hno, -⟩ := (ht.visiting hd).fails hd he
    exact ⟨index, hr, hno⟩

/-- A loop that waits for a `long` to become zero, and a handler that throws on what it catches. -/
def spin : Flow where
  pool := .empty
  code := [access .lload 3 false, simple .l2i, branch .ifne 0, simple .vreturn, simple .athrow]
  offsets := #[0, 2, 3, 6, 7]
  handlers := [7]

def spinDepths : Nat → Nat
  | 1 => 2
  | 2 | 4 => 1
  | _ => 0

def spinAfter : Nat → Nat
  | 0 => 2
  | 1 => 1
  | _ => 0

theorem spin_takes {index : Nat} {i : Instruction} (hi : spin.code[index]? = some i) :
    spin.Takes i (spinDepths index) (spinAfter index) := by
  unfold Takes
  rcases index with _ | _ | _ | _ | _ | index <;> cases hi
  · exact ⟨0, 2, rfl, by decide, rfl⟩
  · exact ⟨2, 1, rfl, by decide, rfl⟩
  · exact ⟨1, 0, rfl, by decide, rfl⟩
  · exact ⟨0, 0, rfl, by decide, rfl⟩
  · exact ⟨1, 0, rfl, by decide, rfl⟩

theorem spin_startsAt {target index : Nat} (h : spin.offsets[index]? = some target) :
    spin.StartsAt target index := by
  obtain ⟨hlt, -⟩ := Array.getElem?_eq_some_iff.1 h
  refine ⟨h, fun later hlater hl => ?_, hlt⟩
  have hnodup : spin.offsets.toList.Nodup := by decide
  have hsame := (List.getElem?_inj hlt hnodup).1 (by simpa using h.trans hl.symm)
  omega

theorem spin_jump {index next : Nat} {i : Instruction} {target : UInt32}
    (hi : spin.code[index]? = some i) (ht : target ∈ i.targets)
    (hs : spin.StartsAt target.toNat next) : index = 2 ∧ next = 0 := by
  have hzero : spin.StartsAt (0 : UInt32).toNat 0 := spin_startsAt rfl
  rcases index with _ | _ | _ | _ | _ | index <;> cases hi <;> simp [targets] at ht
  subst ht
  exact ⟨rfl, hs.unique hzero⟩

theorem spin_agrees : spin.Agrees spinDepths := by
  constructor
  · intro index depth hroot
    cases hroot with
    | start => rfl
    | handler hh hs =>
      have hcatch : spin.StartsAt 7 4 := spin_startsAt rfl
      cases List.mem_singleton.1 hh
      cases hs.unique hcatch
      rfl
  · intro index next after _ hc
    cases hc with
    | jump hi ht htarget hs =>
      obtain ⟨rfl, rfl⟩ := spin_jump hi htarget hs
      cases ht.unique (spin_takes hi)
      rfl
    | onward hi ht hends hlt =>
      cases ht.unique (spin_takes hi)
      rcases index with _ | _ | _ | _ | _ | index <;> cases hi <;> first | rfl | cases hends

theorem spin_clear : spin.Clear spinDepths := by
  refine ⟨fun handler hh => ?_, fun index hr => ?_, fun i hi last hlast => ?_⟩
  · cases List.mem_singleton.1 hh
    exact ⟨4, spin_startsAt rfl⟩
  · obtain ⟨i, hi⟩ : ∃ i, spin.code[index]? = some i :=
      ⟨_, List.getElem?_eq_getElem hr.inCode⟩
    refine ⟨i, _, hi, spin_takes hi, ?_, fun target ht => ?_⟩
    · unfold spinAfter
      split <;> decide
    · rcases index with _ | _ | _ | _ | _ | index <;> cases hi <;> simp [targets] at ht
      subst ht
      exact ⟨0, spin_startsAt rfl⟩
  · simp only [spin, List.mem_cons, List.not_mem_nil, or_false] at hi
    rcases hi with rfl | rfl | rfl | rfl | rfl <;> cases hlast
    decide

theorem maxima_exact_spin :
    spin.Agrees spinDepths ∧ spin.Clear spinDepths ∧
      maxima spin.pool spin.code spin.offsets spin.handlers 1 = .ok (2, 5) := by
  have hexact := maxima_exact spin_agrees 1
  obtain ⟨⟨stack, locals⟩, hok⟩ := hexact.exists_iff.2 spin_clear
  obtain ⟨hstack, hlocals⟩ := hexact.greatest stack locals hok
  have hreaches : spin.Reachable 1 := .edge (.root (.start nofun)) (.onward rfl rfl (by decide))
  have hdepth : spin.Deepest spinDepths spin.Reachable 2 := by
    refine ⟨.inr ⟨1, hreaches, .inl rfl⟩, ?_⟩
    rintro depth (rfl | ⟨index, -, rfl | ⟨i, hi, ht⟩⟩)
    · decide
    · unfold spinDepths
      split <;> decide
    · cases ht.unique (spin_takes hi)
      unfold spinAfter
      split <;> decide
  have hends : IsGreatest
      (insert (1 : UInt16).toNat {last | ∃ i ∈ spin.code, localsEnd? i = some last}) 5 := by
    refine ⟨.inr ⟨_, List.mem_cons_self, rfl⟩, ?_⟩
    rintro last (rfl | ⟨i, hi, hlast⟩)
    · decide
    · simp only [spin, List.mem_cons, List.not_mem_nil, or_false] at hi
      rcases hi with rfl | rfl | rfl | rfl | rfl <;> cases hlast
      decide
  obtain rfl : stack = 2 := UInt16.toNat_inj.1 (hstack.unique hdepth)
  obtain rfl : locals = 5 := UInt16.toNat_inj.1 (hlocals.unique hends)
  exact ⟨spin_agrees, spin_clear, hok⟩

end Flow

end JvmClass.Code
