import KernelTravel.Kernel.Signal
import KernelTravel.Lib.Run
import KernelTravel.Mm.Brk

/-!
# What a child shares with its parent

`copy_pcb` copies the task structure of the parent as it is. Its fields `mm` and
`handlers` are pointers, and nothing replaces them afterwards, so that both tasks have one
address space descriptor and one table of signal handlers. Whatever a call of one of them
does to these, the other one sees.
-/

namespace KernelTravel.Userprog

open Mm Signal

/-- The pointers of a `task_struct` to what the calls below change. -/
structure Task where
  mm : Nat
  handlers : Nat

/-- The tasks by their page, and the structures they point to by address. -/
structure Tasks where
  task : Nat → Task
  space : Nat → Mm.Space
  sighand : Nat → Fin 32 → KSigaction

namespace Tasks

/-- `copy_pcb`: of the fields above, all are those of the parent. -/
def copyPcb (s : Tasks) (parent child : Nat) : Tasks :=
  { s with task := Function.update s.task child (s.task parent) }

def setSpace (s : Tasks) (t : Nat) (space : Mm.Space) : Tasks :=
  { s with space := Function.update s.space (s.task t).mm space }

/-- `sys_sigaction` does not test the number of the signal. A number outside the table
makes it write elsewhere in memory. -/
def sysSigaction (s : Tasks) (t : Nat) (sig : Nat) (act : KSigaction) : Option Tasks :=
  (signoIndex sig).map fun v =>
    let handlers := (s.task t).handlers
    let action := Function.update (s.sighand handlers) v act
    { s with sighand := Function.update s.sighand handlers action }

/-- What `task t` has as its tree of areas, `brk`, cursor and handlers. -/
structure View where
  vmaTree : SearchTree (Nat × Nat)
  brk : Nat
  freeAreaCache : Nat
  action : Fin 32 → KSigaction

def view (s : Tasks) (t : Nat) : View where
  vmaTree := (s.space (s.task t).mm).areas.vmaTree
  brk := (s.space (s.task t).mm).brk
  freeAreaCache := (s.space (s.task t).mm).areas.freeAreaCache
  action := s.sighand (s.task t).handlers

end Tasks

inductive Call where
  | mmap (file : Option Nat) (addr len flags offset : Nat)
  | brk (addr : Nat)
  | sigaction (sig : Nat) (act : KSigaction)

namespace Call

section Run

variable (rbInsertColor : SearchTree Nat → SearchTree Nat)

/-- A call made by task `t`. -/
def run (t : Nat) (s : Tasks) : Call → Option Tasks
  | mmap file addr len flags offset =>
    let space := s.space (s.task t).mm
    (space.areas.doMmap rbInsertColor file addr len flags offset).map fun (_, areas) =>
      s.setSpace t { space with areas }
  | brk addr => ((s.space (s.task t).mm).sysBrk rbInsertColor addr).map (s.setSpace t)
  | sigaction sig act => s.sysSigaction t sig act

/-- After every number of the calls of task `t`, task `u` has what it had before. -/
def Isolated (s : Tasks) (t u : Nat) (calls : List Call) : Prop :=
  ∀ n, ∃ s', Run.exec (run rbInsertColor t) s (calls.take n) = some s' ∧ s'.view u = s.view u

end Run

/-- The call is refused, or sets the handler that is there already. -/
def Idle (t : Nat) (s : Tasks) : Call → Prop
  | mmap file addr len flags offset =>
    (s.space (s.task t).mm).areas.MmapIdle file addr len flags offset
  | brk addr => (s.space (s.task t).mm).BrkRefused addr
  | sigaction sig act => ∃ v, signoIndex sig = some v ∧ s.sighand (s.task t).handlers v = act

variable {rbInsertColor : SearchTree Nat → SearchTree Nat} {s s' : Tasks} {t u : Nat} {c : Call}
  {calls : List Call}

/-- A call never changes a pointer. -/
theorem task_run (h : c.run rbInsertColor t s = some s') : s'.task = s.task := by
  cases c <;>
    · obtain ⟨_, -, rfl⟩ := Option.map_eq_some_iff.mp h
      rfl

/-- The areas of the calling task are sorted. -/
def Sorted (s : Tasks) (t : Nat) : Prop := (s.space (s.task t).mm).areas.Sorted

/-- The calling task keeps its view in the idle calls. -/
theorem view_run_of_idle (color : ∀ t, (rbInsertColor t).inorder = t.inorder) (idle : c.Idle t s) :
    ∃ s', c.run rbInsertColor t s = some s' ∧ s'.view t = s.view t := by
  cases c with
  | mmap file addr len flags offset =>
    have same := MmStruct.doMmap_same_of_idle color idle
    simpa [run, Tasks.view, Tasks.setSpace, MmStruct.SameAreas] using same
  | brk addr =>
    have same := (Mm.Space.sysBrk_same_iff color).mpr idle
    simpa [run, Tasks.view, Tasks.setSpace, Mm.Space.Same, MmStruct.SameAreas, and_assoc,
      and_comm] using same
  | sigaction sig act =>
    obtain ⟨v, hv, hsame⟩ := idle
    simp [run, Tasks.sysSigaction, Tasks.view, hv, hsame]

/-- It keeps it in no other call, if its areas are sorted, and they are sorted afterwards. -/
theorem idle_of_view_run (color : ∀ t, (rbInsertColor t).inorder = t.inorder)
    (sorted : Sorted s t) (h : c.run rbInsertColor t s = some s') (same : s'.view t = s.view t) :
    c.Idle t s ∧ Sorted s' t := by
  cases c with
  | mmap file addr len flags offset =>
    obtain ⟨⟨r, areas⟩, hmmap, rfl⟩ := Option.map_eq_some_iff.mp h
    have hsame : (s.space (s.task t).mm).areas.SameAreas areas := by
      have htree := congrArg Tasks.View.vmaTree same
      have hcursor := congrArg Tasks.View.freeAreaCache same
      simp only [Tasks.view, Tasks.setSpace, Function.update_self] at htree hcursor
      exact ⟨htree, hcursor⟩
    refine ⟨MmStruct.idle_of_doMmap_same color sorted ⟨r, areas, hmmap, hsame⟩, ?_⟩
    simpa [Sorted, Tasks.setSpace] using MmStruct.sorted_doMmap color sorted hmmap hsame
  | brk addr =>
    obtain ⟨space, hbrk, rfl⟩ := Option.map_eq_some_iff.mp h
    have hsame : (s.space (s.task t).mm).Same space := by
      have htree := congrArg Tasks.View.vmaTree same
      have hcursor := congrArg Tasks.View.freeAreaCache same
      have hbreak := congrArg Tasks.View.brk same
      simp only [Tasks.view, Tasks.setSpace, Function.update_self] at htree hcursor hbreak
      exact ⟨⟨htree, hcursor⟩, hbreak⟩
    refine ⟨(Mm.Space.sysBrk_same_iff color).mp ⟨space, hbrk, hsame⟩, ?_⟩
    simpa [Sorted, Tasks.setSpace, Mm.Space.sysBrk_areas color hbrk hsame.1] using sorted
  | sigaction sig act =>
    obtain ⟨v, hv, rfl⟩ := Option.map_eq_some_iff.mp h
    have haction := congrFun (congrArg Tasks.View.action same) v
    simp only [Tasks.view, Function.update_self] at haction
    exact ⟨⟨v, hv, haction.symm⟩, sorted⟩

/-- Two tasks with the same pointers have the same view. -/
theorem view_eq (shares : s.task u = s.task t) : s.view u = s.view t := by
  rw [Tasks.view, shares]
  rfl

/-- One call, and then the rest from the state after it. -/
theorem isolated_cons_iff (h : c.run rbInsertColor t s = some s') (same : s'.view u = s.view u) :
    Isolated rbInsertColor s t u (c :: calls) ↔ Isolated rbInsertColor s' t u calls := by
  constructor
  · intro isolated n
    obtain ⟨s'', hexec, hview⟩ := isolated (n + 1)
    obtain ⟨_, hstep, hrest⟩ := Run.exec_cons_eq_some.mp hexec
    cases h.symm.trans hstep
    exact ⟨s'', hrest, hview.trans same.symm⟩
  · intro isolated n
    cases n with
    | zero => exact ⟨s, rfl, rfl⟩
    | succ n =>
      obtain ⟨s'', hrest, hview⟩ := isolated n
      exact ⟨s'', Run.exec_cons_eq_some.mpr ⟨s', h, hrest⟩, hview.trans same⟩

/-- The other task keeps its view as long as the calls are idle. -/
theorem isolated_of_idle (color : ∀ t, (rbInsertColor t).inorder = t.inorder)
    (shares : s.task u = s.task t)
    (idle : Run.Meets (run rbInsertColor t) (fun s c => c.Idle t s) s calls) :
    Isolated rbInsertColor s t u calls := by
  induction calls generalizing s with
  | nil => exact fun n => ⟨s, by simp [Run.exec], rfl⟩
  | cons c calls ih =>
    obtain ⟨s', hstep, hview⟩ := view_run_of_idle color idle.1
    have shares' : s'.task u = s'.task t := by
      rw [task_run hstep]
      exact shares
    rw [← view_eq shares', ← view_eq shares] at hview
    exact (isolated_cons_iff hstep hview).mpr (ih shares' (idle.2 s' hstep))

/-- It does not keep it through a call that is not idle, if the areas are sorted. -/
theorem idle_of_isolated (color : ∀ t, (rbInsertColor t).inorder = t.inorder)
    (shares : s.task u = s.task t) (sorted : Sorted s t)
    (isolated : Isolated rbInsertColor s t u calls) :
    Run.Meets (run rbInsertColor t) (fun s c => c.Idle t s) s calls := by
  induction calls generalizing s with
  | nil => trivial
  | cons c calls ih =>
    obtain ⟨s', hexec, hview⟩ := isolated 1
    obtain ⟨_, hstep, hrest⟩ := Run.exec_cons_eq_some.mp hexec
    cases hrest
    have shares' : s'.task u = s'.task t := by
      rw [task_run hstep]
      exact shares
    have hview' : s'.view t = s.view t := by
      rw [← view_eq shares', ← view_eq shares]
      exact hview
    obtain ⟨idle, sorted'⟩ := idle_of_view_run color sorted hstep hview'
    refine ⟨idle, fun s'' hstep' => ?_⟩
    cases hstep.symm.trans hstep'
    exact ih shares' sorted' ((isolated_cons_iff hstep hview).mp isolated)

end Call

/-- After `sys_fork`, the calls of one of the two tasks leave the other's address space and
handlers alone if every one of them is idle. If the areas of the parent are sorted, they do so
in no other run. -/
theorem fork_isolated_iff {rbInsertColor : SearchTree Nat → SearchTree Nat}
    (color : ∀ t, (rbInsertColor t).inorder = t.inorder) (s : Tasks) (parent child : Nat)
    (calls : List Call) :
    ((Run.Meets (Call.run rbInsertColor child) (fun s c => c.Idle child s)
        (s.copyPcb parent child) calls →
      Call.Isolated rbInsertColor (s.copyPcb parent child) child parent calls) ∧
    (Run.Meets (Call.run rbInsertColor parent) (fun s c => c.Idle parent s)
        (s.copyPcb parent child) calls →
      Call.Isolated rbInsertColor (s.copyPcb parent child) parent child calls)) ∧
    (Call.Sorted s parent →
      (Call.Isolated rbInsertColor (s.copyPcb parent child) child parent calls →
        Run.Meets (Call.run rbInsertColor child) (fun s c => c.Idle child s)
          (s.copyPcb parent child) calls) ∧
      (Call.Isolated rbInsertColor (s.copyPcb parent child) parent child calls →
        Run.Meets (Call.run rbInsertColor parent) (fun s c => c.Idle parent s)
          (s.copyPcb parent child) calls)) := by
  have hparent : (s.copyPcb parent child).task parent = s.task parent := by
    by_cases hne : parent = child
    · rw [hne]
      exact Function.update_self ..
    · exact Function.update_of_ne hne ..
  have hchild : (s.copyPcb parent child).task child = s.task parent := Function.update_self ..
  have shares := hchild.trans hparent.symm
  refine ⟨⟨Call.isolated_of_idle color shares.symm, Call.isolated_of_idle color shares⟩,
    fun sorted => ⟨Call.idle_of_isolated color shares.symm ?_,
      Call.idle_of_isolated color shares ?_⟩⟩
  · rw [Call.Sorted, hchild]
    exact sorted
  · rw [Call.Sorted, hparent]
    exact sorted

/-- Two tasks that exist before the fork, with nothing mapped and no handlers. -/
def Tasks.initial : Tasks where
  task t := ⟨t, t⟩
  space _ := ⟨MmStruct.initial taskUnmappedBase, 0, 0⟩
  sighand _ _ := ⟨sigDfl, Sigset.initSigset, 0, 0⟩

/-- A child that ignores signal 17 makes its parent ignore it. -/
theorem sigaction_reaches_parent : ¬Call.Isolated id (Tasks.initial.copyPcb 1 2) 2 1
      [.sigaction sigchld ⟨sigIgn, Sigset.initSigset, 0, 0⟩] := by
  intro isolated
  obtain ⟨s', hexec, hview⟩ := isolated 1
  cases hexec
  have hhandler := congrArg (fun view => (view.action 16).saHandler) hview
  exact absurd hhandler (by decide)

/-- A child that sets a handler to what it was, and asks for a mapping of no length. -/
theorem fork_isolated_idle : Call.Isolated id (Tasks.initial.copyPcb 1 2) 2 1
      [.sigaction sigchld ⟨sigDfl, Sigset.initSigset, 0, 0⟩, .mmap none 0 0 0 0] := by
  refine (fork_isolated_iff (fun _ => rfl) Tasks.initial 1 2 _).1.1 ⟨⟨16, rfl, rfl⟩, ?_⟩
  intro s' _
  refine ⟨.inr (.inr (.inl ?_)), fun _ _ => trivial⟩
  decide

end KernelTravel.Userprog
