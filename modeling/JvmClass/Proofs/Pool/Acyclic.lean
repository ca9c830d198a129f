import JvmClass.Pool.Dynamic
import JvmClass.Proofs.Codec.Reads
import Mathlib.Logic.Relation

/-!
# Dynamic constants without cycles

The search for cycles keeps a stack of tasks. What is active has its `leave` further down, and
whatever is followed before that depends on it; so an active entry that turns up depends on
itself. Where ranks fall along arguments that cannot be. Each entry is entered once, so the budget
of the search lasts.

The other way round, an entry is left only after all its arguments are, so each entry that is done
can be reached from below. A search that ends without an error leaves all entries done, and then
no entry depends on itself (`IsAcyclic`).
-/

namespace JvmClass.Pool

variable {p : Pool} {lower : UInt16 → UInt16 → Prop}

/-- An argument that is followed before an entry is left is lower. -/
def Below (p : Pool) (lower : UInt16 → UInt16 → Prop) : Task → Task → Prop
  | .follow argument, .leave entry => p.isDynamicAt argument = true → lower argument entry
  | _, _ => True

/-- What holds of the search at any time. -/
structure Searching (p : Pool) (lower : UInt16 → UInt16 → Prop) (tasks : List Task)
    (visits : Array Visit) : Prop where
  ordered : tasks.Pairwise (Below p lower)
  active : ∀ entry : UInt16, visits[entry.toNat]? = some .active → .leave entry ∈ tasks

/-- How many entries may still be entered. The first place stands for no entry. -/
def pending (visits : Array Visit) : Nat := visits.toList.tail.count .unseen

/-! ## Marks -/

theorem count_set_le {α : Type} [DecidableEq α] {u v : α} (h : v ≠ u) (l : List α) (k : Nat) :
    (l.set k v).count u ≤ l.count u := by
  induction l generalizing k with
  | nil => simp
  | cons a l ih =>
    cases k with
    | zero =>
      rw [List.set_cons_zero, List.count_cons_of_ne h]
      exact List.count_le_count_cons
    | succ k =>
      have hrest := ih k
      rw [List.set_cons_succ, List.count_cons, List.count_cons]
      omega

theorem count_set_lt {α : Type} [DecidableEq α] {u v : α} (h : v ≠ u) {l : List α} {k : Nat}
    (hk : l[k]? = some u) : (l.set k v).count u < l.count u := by
  induction l generalizing k with
  | nil => simp at hk
  | cons a l ih =>
    cases k with
    | zero =>
      have ha : a = u := by simpa using hk
      rw [List.set_cons_zero, List.count_cons_of_ne h, ha, List.count_cons_self]
      omega
    | succ k =>
      have hrest := ih (k := k) (by simpa using hk)
      rw [List.set_cons_succ, List.count_cons, List.count_cons]
      omega

theorem pending_set_le (visits : Array Visit) (k : Nat) :
    pending (visits.setIfInBounds k .done) ≤ pending visits := by
  unfold pending
  rw [Array.toList_setIfInBounds]
  cases k with
  | zero => cases visits.toList <;> simp
  | succ k =>
    cases visits.toList with
    | nil => simp
    | cons a l => exact count_set_le (by decide) l k

theorem pending_set_lt {visits : Array Visit} {k : Nat} (hk : k ≠ 0)
    (h : visits[k]? = some .unseen) :
    pending (visits.setIfInBounds k .active) < pending visits := by
  unfold pending
  rw [← Array.getElem?_toList] at h
  rw [Array.toList_setIfInBounds]
  cases k with
  | zero => exact absurd rfl hk
  | succ k =>
    cases hl : visits.toList with
    | nil => simp [hl] at h
    | cons a l => exact count_set_lt (by decide) (by simpa [hl] using h)

/-! ## Steps of the search -/

/-- What is entered was not seen before, and nothing is forgotten on the way to it. -/
theorem workOff_pending (tasks : List Task) (visits : Array Visit) :
    match p.workOff tasks visits with
    | .finished visits' => pending visits' ≤ pending visits
    | .enter entry _ visits' => pending visits' ≤ pending visits ∧ entry.toNat ≠ 0 ∧
        p.isDynamicAt entry = true ∧ visits'[entry.toNat]? = some .unseen
    | .cycle _ => True := by
  fun_induction workOff p tasks visits with
  | case1 visits => exact Nat.le_refl _
  | case2 entry tasks visits ih =>
    have hle := pending_set_le visits entry.toNat
    split at ih
    · exact Nat.le_trans ih hle
    · exact ⟨Nat.le_trans ih.1 hle, ih.2⟩
    · trivial
  | case3 => trivial
  | case4 argument tasks visits hdynamic hunseen =>
    refine ⟨Nat.le_refl _, fun hz => ?_, hdynamic, hunseen⟩
    rw [UInt16.toNat_inj.1 (hz.trans UInt16.toNat_zero.symm)] at hdynamic
    cases hdynamic
  | case5 argument tasks visits _ _ _ ih => exact ih
  | case6 argument tasks visits _ ih => exact ih

theorem Searching.leave {tasks : List Task} {visits : Array Visit} {entry : UInt16}
    (h : Searching p lower (.leave entry :: tasks) visits) :
    Searching p lower tasks (visits.setIfInBounds entry.toNat .done) := by
  refine ⟨(List.pairwise_cons.1 h.ordered).2, fun e he => ?_⟩
  rw [Array.getElem?_setIfInBounds] at he
  split at he
  · split at he
    · cases he
    · cases he
  · rename_i hne
    rcases List.mem_cons.1 (h.active e he) with heq | hm
    · cases heq
      exact absurd rfl hne
    · exact hm

theorem Searching.skip {tasks : List Task} {visits : Array Visit} {argument : UInt16}
    (h : Searching p lower (.follow argument :: tasks) visits) :
    Searching p lower tasks visits := by
  refine ⟨(List.pairwise_cons.1 h.ordered).2, fun e he => ?_⟩
  rcases List.mem_cons.1 (h.active e he) with heq | hm
  · cases heq
  · exact hm

/-- What working off tasks comes to: an entry that is reported is lower than itself. -/
theorem workOff_spec {tasks : List Task} {visits : Array Visit}
    (h : Searching p lower tasks visits) :
    match p.workOff tasks visits with
    | .finished visits' => Searching p lower [] visits'
    | .enter entry tasks' visits' => Searching p lower (.follow entry :: tasks') visits'
    | .cycle entry => lower entry entry := by
  fun_induction workOff p tasks visits with
  | case1 visits => exact h
  | case2 entry tasks visits ih => exact ih h.leave
  | case3 argument tasks visits hdynamic hactive =>
    have hm : Task.leave argument ∈ tasks := by
      rcases List.mem_cons.1 (h.active argument hactive) with heq | hm
      · cases heq
      · exact hm
    exact (List.pairwise_cons.1 h.ordered).1 _ hm hdynamic
  | case4 => exact h
  | case5 argument tasks visits _ _ _ ih => exact ih h.skip
  | case6 argument tasks visits _ ih => exact ih h.skip

section Explore

variable {bootstrap : Array BootstrapMethod}
  (hlower : ∀ entry, ∀ argument ∈ p.dynamicArguments bootstrap entry,
    p.isDynamicAt argument = true → lower argument entry)
  (htrans : ∀ {a b c}, lower a b → lower b c → lower a c)

include hlower htrans

/-- The arguments of an entry are lower than it, and than all that it is lower than. -/
theorem Searching.enter {tasks : List Task} {visits : Array Visit} {entry : UInt16}
    (h : Searching p lower (.follow entry :: tasks) visits) (hentry : p.isDynamicAt entry = true) :
    Searching p lower ((p.dynamicArguments bootstrap entry).map .follow ++ .leave entry :: tasks)
      (visits.setIfInBounds entry.toNat .active) := by
  obtain ⟨hfirst, htasks⟩ := List.pairwise_cons.1 h.ordered
  refine ⟨List.pairwise_append.2 ⟨?_, ?_, ?_⟩, fun e he => ?_⟩
  · exact List.pairwise_map.2 (List.pairwise_of_forall fun _ _ => trivial)
  · exact List.pairwise_cons.2 ⟨fun _ _ => trivial, htasks⟩
  · intro t ht t' ht'
    obtain ⟨argument, harg, rfl⟩ := List.mem_map.1 ht
    cases t' with
    | follow => trivial
    | leave e =>
      intro hdynamic
      have hlt := hlower entry argument harg hdynamic
      rcases List.mem_cons.1 ht' with heq | hm
      · cases heq
        exact hlt
      · exact htrans hlt (hfirst _ hm hentry)
  · rw [Array.getElem?_setIfInBounds] at he
    refine List.mem_append_right _ ?_
    split at he
    · rename_i heq
      rw [UInt16.toNat_inj.1 heq]
      exact List.mem_cons_self
    · rcases List.mem_cons.1 (h.active e he) with heq | hm
      · cases heq
      · exact List.mem_cons_of_mem _ hm

/-- The search ends with nothing active, or reports an entry that is lower than itself. -/
theorem explore_spec {budget : Nat} {tasks : List Task} {visits : Array Visit}
    (h : Searching p lower tasks visits) (hb : pending visits < budget) :
    match p.explore bootstrap budget tasks visits with
    | .ok visits' => Searching p lower [] visits' ∧ pending visits' ≤ pending visits
    | .error e => ∃ entry, e = .malformedConstant entry .dependsOnItself ∧ lower entry entry := by
  induction budget generalizing tasks visits with
  | zero => omega
  | succ budget ih =>
    have hpending := workOff_pending (p := p) tasks visits
    have hspec := workOff_spec h
    rw [explore]
    cases hw : p.workOff tasks visits with
    | finished visits' =>
      rw [hw] at hspec hpending
      exact ⟨hspec, hpending⟩
    | cycle entry =>
      rw [hw] at hspec
      exact ⟨entry, rfl, hspec⟩
    | enter entry tasks' visits' =>
      rw [hw] at hspec hpending
      obtain ⟨hle, hne, hdynamic, hunseen⟩ := hpending
      have hlt := pending_set_lt hne hunseen
      have hrest := ih (hspec.enter hlower htrans hdynamic) (by omega)
      dsimp only
      split
      · rename_i hok
        rw [hok] at hrest
        exact ⟨hrest.1, by omega⟩
      · rename_i herror
        rw [herror] at hrest
        exact hrest

theorem foldlM_explore_spec (roots : List (UInt16 × Constant)) {visits : Array Visit}
    (h : Searching p lower [] visits) (hb : pending visits < p.size + 1) :
    match roots.foldlM (fun visits (root, _) =>
      p.explore bootstrap (p.size + 1) [.follow root] visits) visits with
    | .ok _ => True
    | .error e => ∃ entry, e = .malformedConstant entry .dependsOnItself ∧ lower entry entry := by
  induction roots generalizing visits with
  | nil => trivial
  | cons root roots ih =>
    obtain ⟨root, c⟩ := root
    have hfirst : Searching p lower [.follow root] visits := by
      refine ⟨List.pairwise_singleton _ _, fun e he => ?_⟩
      cases h.active e he
    have hspec := explore_spec hlower htrans hfirst hb
    rw [List.foldlM_cons]
    dsimp only
    cases hroot : p.explore bootstrap (p.size + 1) [.follow root] visits with
    | ok visits' =>
      rw [hroot] at hspec
      exact ih hspec.1 (by omega)
    | error e =>
      rw [hroot] at hspec
      exact hspec

/-- A pool is free of cycles, or an entry is reported that is lower than itself. -/
theorem checkAcyclic_spec :
    p.checkAcyclic bootstrap = .ok () ∨ ∃ entry,
      p.checkAcyclic bootstrap = .error (.malformedConstant entry .dependsOnItself) ∧
        lower entry entry := by
  have hstart : Searching p lower [] (Array.replicate (p.size + 1) .unseen) := by
    refine ⟨.nil, fun e he => ?_⟩
    rw [Array.getElem?_replicate] at he
    split at he <;> cases he
  have hpending : pending (Array.replicate (p.size + 1) .unseen) < p.size + 1 := by
    simp [pending]
  have hspec := foldlM_explore_spec hlower htrans (p.usable.filter fun (_, c) => c.isDynamic)
    hstart hpending
  unfold checkAcyclic
  dsimp only
  split at hspec
  · rename_i hfold
    rw [hfold]
    exact .inl rfl
  · rename_i hfold
    obtain ⟨entry, rfl, hentry⟩ := hspec
    rw [hfold]
    exact .inr ⟨entry, rfl, hentry⟩

end Explore

/-- A pool is free of cycles if ranks fall along the arguments of its dynamic entries. -/
theorem checkAcyclic_eq_ok {rank : UInt16 → Nat} {bootstrap : Array BootstrapMethod}
    (hrank : ∀ entry, ∀ argument ∈ p.dynamicArguments bootstrap entry,
      p.isDynamicAt argument = true → rank argument < rank entry) :
    p.checkAcyclic bootstrap = .ok () := by
  have hspec := checkAcyclic_spec hrank Nat.lt_trans
  rcases hspec with hok | ⟨entry, -, hlt⟩
  · exact hok
  · exact absurd hlt (Nat.lt_irrefl _)

/-! ## What a search that succeeds has shown -/

/-- The dynamic entry `argument` is a static argument of the dynamic entry `entry`. -/
def DependsOn (p : Pool) (bootstrap : Array BootstrapMethod) (entry argument : UInt16) : Prop :=
  argument ∈ p.dynamicArguments bootstrap entry ∧ p.isDynamicAt argument = true

/-- No dynamic entry depends on itself, be it through others. -/
def IsAcyclic (p : Pool) (bootstrap : Array BootstrapMethod) : Prop :=
  ∀ entry, ¬Relation.TransGen (p.DependsOn bootstrap) entry entry

/-- An argument is done, or tasks in front see to it. -/
def SeenTo (visits : Array Visit) (tasks : List Task) (argument : UInt16) : Prop :=
  visits[argument.toNat]? = some .done ∨ .follow argument ∈ tasks ∨ .leave argument ∈ tasks

/-- What holds of the search at any time: entries that are done depend on nothing in circles, and
the arguments of an entry are seen to before it is left, as are the `roots`. -/
structure Settling (p : Pool) (bootstrap : Array BootstrapMethod) (roots : List UInt16)
    (tasks : List Task) (visits : Array Visit) : Prop where
  size : visits.size = p.size + 1
  done : ∀ entry : UInt16, visits[entry.toNat]? = some .done →
    Acc (flip (p.DependsOn bootstrap)) entry
  bound : ∀ entry : UInt16, .leave entry ∈ tasks → entry.toNat < visits.size
  arguments : ∀ front entry rest, tasks = front ++ .leave entry :: rest →
    ∀ argument, p.DependsOn bootstrap entry argument → SeenTo visits front argument
  roots : ∀ root ∈ roots, p.isDynamicAt root = true → SeenTo visits tasks root

theorem lt_size_of_isDynamicAt {index : UInt16} (h : p.isDynamicAt index = true) :
    index.toNat < p.size + 1 := by
  obtain ⟨c, hc, -⟩ := (Option.any_eq_true ..).1 h
  obtain ⟨-, hget⟩ := get?_eq_some_iff.1 hc
  obtain ⟨hlt, -⟩ := List.getElem?_eq_some_iff.1 hget
  rw [Array.length_toList] at hlt
  unfold size
  omega

section Marks

variable {visits : Array Visit} {tasks : List Task} {entry argument : UInt16}

theorem SeenTo.leave (h : SeenTo visits (.leave entry :: tasks) argument)
    (hb : entry.toNat < visits.size) :
    SeenTo (visits.setIfInBounds entry.toNat .done) tasks argument := by
  by_cases he : argument = entry
  · subst he
    exact .inl (Array.getElem?_setIfInBounds_self_of_lt hb)
  · have hne : entry.toNat ≠ argument.toNat := fun e => he (UInt16.toNat_inj.1 e.symm)
    rcases h with hd | hf | hl
    · exact .inl (by rw [Array.getElem?_setIfInBounds_ne hne]; exact hd)
    · exact .inr (.inl ((List.mem_cons.1 hf).resolve_left nofun))
    · refine .inr (.inr ((List.mem_cons.1 hl).resolve_left fun e => ?_))
      cases e
      exact he rfl

theorem SeenTo.skip (h : SeenTo visits (.follow entry :: tasks) argument)
    (hs : entry = argument → visits[argument.toNat]? = some .done) :
    SeenTo visits tasks argument := by
  rcases h with hd | hf | hl
  · exact .inl hd
  · rcases List.mem_cons.1 hf with e | hf
    · cases e
      exact .inl (hs rfl)
    · exact .inr (.inl hf)
  · exact .inr (.inr ((List.mem_cons.1 hl).resolve_left nofun))

theorem SeenTo.enter (h : SeenTo visits (.follow entry :: tasks) argument)
    (hu : visits[entry.toNat]? = some .unseen) (front : List Task) :
    SeenTo (visits.setIfInBounds entry.toNat .active) (front ++ .leave entry :: tasks)
      argument := by
  rcases h with hd | hf | hl
  · have hne : entry.toNat ≠ argument.toNat := by
      intro e
      rw [e, hd] at hu
      cases hu
    exact .inl (by rw [Array.getElem?_setIfInBounds_ne hne]; exact hd)
  · rcases List.mem_cons.1 hf with e | hf
    · cases e
      exact .inr (.inr (by simp))
    · exact .inr (.inl (by simp [hf]))
  · exact .inr (.inr (by simp [(List.mem_cons.1 hl).resolve_left nofun]))

end Marks

namespace Settling

variable {bootstrap : Array BootstrapMethod} {roots : List UInt16} {tasks : List Task}
  {visits : Array Visit} {entry : UInt16}

/-- All arguments of an entry that is left are done. -/
theorem leave (h : Settling p bootstrap roots (.leave entry :: tasks) visits) :
    Settling p bootstrap roots tasks (visits.setIfInBounds entry.toNat .done) := by
  have hb := h.bound entry List.mem_cons_self
  have hentry : Acc (flip (p.DependsOn bootstrap)) entry := by
    refine Acc.intro entry fun argument ha => h.done argument ?_
    rcases h.arguments [] entry tasks rfl argument ha with hd | hf | hl
    · exact hd
    · cases hf
    · cases hl
  refine ⟨by simp [h.size], fun e he => ?_, fun e he => ?_, ?_, fun root hr hd => ?_⟩
  · rw [Array.getElem?_setIfInBounds] at he
    split at he
    · rename_i heq
      rw [← UInt16.toNat_inj.1 heq]
      exact hentry
    · exact h.done e he
  · rw [Array.size_setIfInBounds]
    exact h.bound e (List.mem_cons_of_mem _ he)
  · rintro front e rest rfl argument ha
    exact (h.arguments (.leave entry :: front) e rest rfl argument ha).leave hb
  · exact (h.roots root hr hd).leave hb

theorem skip (h : Settling p bootstrap roots (.follow entry :: tasks) visits)
    (hs : p.isDynamicAt entry = true → visits[entry.toNat]? = some .done) :
    Settling p bootstrap roots tasks visits := by
  refine ⟨h.size, h.done, fun e he => h.bound e (List.mem_cons_of_mem _ he), ?_,
    fun root hr hd => ?_⟩
  · rintro front e rest rfl argument ha
    refine (h.arguments (.follow entry :: front) e rest rfl argument ha).skip ?_
    rintro rfl
    exact hs ha.2
  · refine (h.roots root hr hd).skip ?_
    rintro rfl
    exact hs hd

theorem enter (h : Settling p bootstrap roots (.follow entry :: tasks) visits)
    (hu : visits[entry.toNat]? = some .unseen) :
    Settling p bootstrap roots
      ((p.dynamicArguments bootstrap entry).map .follow ++ .leave entry :: tasks)
      (visits.setIfInBounds entry.toNat .active) := by
  refine ⟨by simp [h.size], fun e he => ?_, fun e he => ?_, ?_, fun root hr hd => ?_⟩
  · rw [Array.getElem?_setIfInBounds] at he
    split at he
    · split at he <;> cases he
    · exact h.done e he
  · rw [Array.size_setIfInBounds]
    rcases List.mem_append.1 he with hm | hm
    · simp at hm
    · rcases List.mem_cons.1 hm with heq | hm
      · cases heq
        exact (Array.getElem?_eq_some_iff.1 hu).choose
      · exact h.bound e (List.mem_cons_of_mem _ hm)
  · intro front e rest heq argument ha
    -- the leave is that of the entry, or stands behind it
    rcases List.append_eq_append_iff.1 heq with ⟨mid, rfl, hmid⟩ | ⟨mid, hmid, hrest⟩
    · cases mid with
      | nil =>
        cases hmid
        exact .inr (.inl (by simpa using ha.1))
      | cons t mid =>
        obtain ⟨rfl, rfl⟩ := List.cons.inj hmid
        have hfront := h.arguments (.follow entry :: mid) e rest rfl argument ha
        exact hfront.enter hu _
    · cases mid with
      | nil =>
        rw [List.append_nil] at hmid
        cases hrest
        subst hmid
        exact .inr (.inl (by simpa using ha.1))
      | cons t mid =>
        have ht : t ∈ (p.dynamicArguments bootstrap entry).map Task.follow := by simp [hmid]
        obtain ⟨_, -, rfl⟩ := List.mem_map.1 ht
        cases hrest
  · exact (h.roots root hr hd).enter hu _

theorem workOff (h : Settling p bootstrap roots tasks visits) :
    match p.workOff tasks visits with
    | .finished visits' => Settling p bootstrap roots [] visits'
    | .enter entry tasks' visits' => Settling p bootstrap roots (.follow entry :: tasks') visits'
    | .cycle _ => True := by
  fun_induction Pool.workOff p tasks visits with
  | case1 visits => exact h
  | case2 entry tasks visits ih => exact ih h.leave
  | case3 => trivial
  | case4 => exact h
  | case5 argument tasks visits hdynamic hactive hunseen ih =>
    refine ih (h.skip fun _ => ?_)
    have hlt := lt_size_of_isDynamicAt hdynamic
    rw [← h.size] at hlt
    rw [Array.getElem?_eq_getElem hlt] at hactive hunseen ⊢
    cases hv : visits[argument.toNat] with
    | unseen => exact absurd (congrArg some hv) hunseen
    | active => exact absurd (congrArg some hv) hactive
    | done => rfl
  | case6 argument tasks visits hstatic ih => exact ih (h.skip fun hd => absurd hd hstatic)

/-- A budget of more than what may be entered lasts, so all tasks are worked off. -/
theorem explore {budget : Nat} {visits' : Array Visit}
    (h : Settling p bootstrap roots tasks visits) (hb : pending visits < budget)
    (hok : p.explore bootstrap budget tasks visits = .ok visits') :
    Settling p bootstrap roots [] visits' ∧ pending visits' ≤ pending visits := by
  induction budget generalizing tasks visits with
  | zero => omega
  | succ budget ih =>
    have hpending := workOff_pending (p := p) tasks visits
    have hspec := h.workOff
    rw [Pool.explore] at hok
    split at hok
    · rename_i hw
      cases hok
      rw [hw] at hspec hpending
      exact ⟨hspec, hpending⟩
    · cases hok
    · rename_i entry tasks' visits'' hw
      rw [hw] at hspec hpending
      obtain ⟨hle, hne, -, hunseen⟩ := hpending
      have hlt := pending_set_lt hne hunseen
      obtain ⟨hs, hp⟩ := ih (hspec.enter hunseen) (by omega) hok
      exact ⟨hs, by omega⟩

theorem foldlM {seeds : List (UInt16 × Constant)} {visits' : Array Visit}
    (h : Settling p bootstrap roots [] visits) (hb : pending visits < p.size + 1)
    (hok : seeds.foldlM (fun visits (root, _) =>
      p.explore bootstrap (p.size + 1) [.follow root] visits) visits = .ok visits') :
    Settling p bootstrap (seeds.map Prod.fst ++ roots) [] visits' := by
  induction seeds generalizing roots visits with
  | nil =>
    cases hok
    exact h
  | cons seed seeds ih =>
    obtain ⟨root, c⟩ := seed
    rw [List.foldlM_cons] at hok
    obtain ⟨visits'', hroot, hrest⟩ := exceptBind_eq_ok.1 hok
    have hstart : Settling p bootstrap (root :: roots) [.follow root] visits := by
      refine ⟨h.size, h.done, by simp, fun front entry rest heq => ?_, fun e he hd => ?_⟩
      · have hm : Task.leave entry ∈ [Task.follow root] := by simp [heq]
        simp at hm
      · rcases List.mem_cons.1 he with rfl | he
        · exact .inr (.inl List.mem_cons_self)
        · rcases h.roots e he hd with hdone | hf | hl
          · exact .inl hdone
          · cases hf
          · cases hl
    obtain ⟨hs, hp⟩ := hstart.explore hb hroot
    have hall := ih hs (by omega) hrest
    refine { hall with roots := fun e he => hall.roots e ?_ }
    simp only [List.map_cons, List.cons_append, List.mem_cons, List.mem_append] at he ⊢
    tauto

end Settling

theorem acc_of_checkAcyclic {bootstrap : Array BootstrapMethod}
    (h : p.checkAcyclic bootstrap = .ok ()) {entry : UInt16} {c : Constant}
    (hu : (entry, c) ∈ p.usable) (hc : c.isDynamic = true) (hd : p.isDynamicAt entry = true) :
    Acc (flip (p.DependsOn bootstrap)) entry := by
  obtain ⟨visits, hv, -⟩ := exceptBind_eq_ok.1 h
  have hstart : Settling p bootstrap [] [] (Array.replicate (p.size + 1) .unseen) := by
    refine ⟨by simp, fun e he => ?_, nofun, fun front _ _ heq => ?_, nofun⟩
    · rw [Array.getElem?_replicate] at he
      split at he <;> cases he
    · simp at heq
  have hsettled := hstart.foldlM (by simp [pending]) hv
  have hroot : entry ∈ (p.usable.filter fun (_, c) => c.isDynamic).map Prod.fst ++ [] := by
    rw [List.append_nil]
    exact List.mem_map.2 ⟨(entry, c), List.mem_filter.2 ⟨hu, hc⟩, rfl⟩
  rcases hsettled.roots entry hroot hd with hdone | hf | hl
  · exact hsettled.done entry hdone
  · cases hf
  · cases hl

theorem not_transGen_of_acc {α : Type} {r : α → α → Prop} {a : α} (h : Acc (flip r) a) :
    ¬Relation.TransGen r a a := by
  induction h with
  | intro a _ ih =>
    intro hcycle
    obtain ⟨b, hab, hba⟩ := Relation.TransGen.head'_iff.1 hcycle
    exact ih b hab (Relation.TransGen.tail' hba hab)

end JvmClass.Pool
