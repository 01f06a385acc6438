import KernelTravel.Lib.Bytes
import KernelTravel.Lib.CString
import KernelTravel.Lib.Run

/-!
# The names of tasks

A `task_struct` has sixteen bytes for the name of the task. `sys_fork` appends `_fork` to the
name that the child has from its parent, and `sys_execve` copies the path of the program to the
name. Neither looks at the length: behind the name stand the priority of the task, its ticks and
everything else.

A task is modelled as its bytes from the name on. What `copy_pcb` sets in the child behind the
name is arbitrary.
-/

namespace KernelTravel.Userprog

def taskNameLen : Nat := 16

/-- The bytes of a `task_struct` from `name` on. -/
abbrev TaskBytes := Nat → Byte

/-- The loop of `strcat` looks for a zero from the name on; it is lost when it leaves the page. -/
def nameLimit : Nat := 4096

/-- The letters of `_fork`. -/
def forkSuffix : List Byte := [0x5f, 0x66, 0x6f, 0x72, 0x6b]

/-- A fork gives task `c` the other fields `fields`. -/
inductive NameOp where
  | fork (p c : Nat) (fields : Nat → Byte)
  | execve (p : Nat) (path : List Byte)

/-- The child before the suffix is appended. -/
def copyPcb (parent : TaskBytes) (fields : Nat → Byte) : TaskBytes :=
  fun i => if i < taskNameLen then parent i else fields i

/-- A string that is copied to the bytes of a task. -/
structure NameWrite where
  task : Nat
  before : TaskBytes
  pos : Nat
  str : List Byte

def NameWrite.after (w : NameWrite) : TaskBytes := CStr.strcpy w.before w.pos w.str

/-- The write stays in the name, and no other field changes. -/
def NameWrite.InName (w : NameWrite) : Prop :=
  w.pos + w.str.length < taskNameLen ∧ ∀ i, taskNameLen ≤ i → w.after i = w.before i

/-- The tasks by number. -/
abbrev NamedTasks := Nat → Option TaskBytes

namespace NamedTasks

def nameWrite (s : NamedTasks) : NameOp → Option NameWrite
  | .fork p c fields =>
    if s c = none then
      (s p).bind fun parent =>
        (CStr.strlen nameLimit (copyPcb parent fields)).map fun n =>
          ⟨c, copyPcb parent fields, n, forkSuffix⟩
    else none
  | .execve p path => (s p).map fun t => ⟨p, t, 0, path⟩

def step (s : NamedTasks) (op : NameOp) : Option NamedTasks :=
  (s.nameWrite op).map fun w => Function.update s w.task (some w.after)

def WritesInName (s : NamedTasks) (op : NameOp) : Prop := ∀ w, s.nameWrite op = some w → w.InName

/-- The name and the suffix, or the path, have less than sixteen bytes. -/
def NameFits (s : NamedTasks) : NameOp → Prop
  | .fork p c _ => s c = none → ∀ t, s p = some t → ∀ n, CStr.strlen taskNameLen t = some n →
      n + forkSuffix.length < taskNameLen
  | .execve p path => s p ≠ none → path.length < taskNameLen

/-- All names end in their arrays. -/
def Named (s : NamedTasks) : Prop := ∀ p t, s p = some t → ∃ n, CStr.strlen taskNameLen t = some n

end NamedTasks

theorem NameWrite.inName_iff (w : NameWrite) : w.InName ↔ w.pos + w.str.length < taskNameLen := by
  refine ⟨And.left, fun h => ⟨h, fun i hi => ?_⟩⟩
  exact CStr.strcpy_of_gt (h.trans_le hi)

theorem strlen_of_zero {t : TaskBytes} {limit n : Nat} (hn : n < limit) (hzero : t n = 0) :
    ∃ k ≤ n, CStr.strlen limit t = some k := by
  cases h : CStr.strlen limit t with
  | none => exact absurd hzero (CStr.strlen_eq_none_iff.mp h n hn)
  | some k =>
    refine ⟨k, ?_, rfl⟩
    by_contra hlt
    obtain ⟨-, -, hbefore⟩ := List.find?_range_eq_some.mp h
    simpa [hzero] using hbefore n (not_le.mp hlt)

/-- The child has the name of its parent. -/
theorem strlen_copyPcb {t : TaskBytes} {n : Nat} (h : CStr.strlen taskNameLen t = some n)
    (fields : Nat → Byte) : CStr.strlen nameLimit (copyPcb t fields) = some n := by
  obtain ⟨hn, hholds⟩ := CStr.holds_of_strlen h
  have hname : ∀ i ≤ n, copyPcb t fields i = t i := fun i hi => if_pos (by omega)
  have hlen : ((List.range n).map t).length = n := by simp
  have hlimit : taskNameLen < nameLimit := by decide
  have hcopy : CStr.Holds (copyPcb t fields) ((List.range n).map t) := by
    refine ⟨fun i hi => ?_, hholds.nonzero, ?_⟩
    · rw [hname i (by omega), hholds.chars i hi]
    · rw [hlen, hname n le_rfl]
      simpa [hlen] using hholds.stop
  have hfound : CStr.strlen nameLimit (copyPcb t fields) = some ((List.range n).map t).length :=
    hcopy.strlen (by omega)
  rwa [hlen] at hfound

namespace NamedTasks

variable {s s' : NamedTasks} {op : NameOp}

theorem Named.nameWrite_fork_iff (named : s.Named) {p c : Nat} {fields : Nat → Byte}
    {w : NameWrite} : s.nameWrite (.fork p c fields) = some w ↔
      s c = none ∧ ∃ t n, s p = some t ∧ CStr.strlen taskNameLen t = some n ∧
        w = ⟨c, copyPcb t fields, n, forkSuffix⟩ := by
  simp only [nameWrite, Option.ite_none_right_eq_some, Option.bind_eq_some_iff,
    Option.map_eq_some_iff]
  refine and_congr_right fun _ => exists_congr fun t => ?_
  constructor
  · rintro ⟨hp, n, hn, rfl⟩
    obtain ⟨m, hm⟩ := named p t hp
    cases (strlen_copyPcb hm fields).symm.trans hn
    exact ⟨n, hp, hm, rfl⟩
  · rintro ⟨n, hp, hn, rfl⟩
    exact ⟨hp, n, strlen_copyPcb hn fields, rfl⟩

theorem nameWrite_execve_iff {p : Nat} {path : List Byte} {w : NameWrite} :
    s.nameWrite (.execve p path) = some w ↔ ∃ t, s p = some t ∧ ⟨p, t, 0, path⟩ = w :=
  Option.map_eq_some_iff

theorem Named.writesInName_iff (named : s.Named) (op : NameOp) :
    s.WritesInName op ↔ s.NameFits op := by
  cases op with
  | fork p c fields =>
    constructor
    · intro h hc t hp n hn
      exact (h _ (named.nameWrite_fork_iff.mpr ⟨hc, t, n, hp, hn, rfl⟩)).1
    · intro h w hw
      obtain ⟨hc, t, n, hp, hn, rfl⟩ := named.nameWrite_fork_iff.mp hw
      exact (NameWrite.inName_iff _).mpr (h hc t hp n hn)
  | execve p path =>
    constructor
    · intro h hp
      obtain ⟨t, ht⟩ := Option.ne_none_iff_exists'.mp hp
      simpa using (h _ (nameWrite_execve_iff.mpr ⟨t, ht, rfl⟩)).1
    · intro h w hw
      obtain ⟨t, ht, rfl⟩ := nameWrite_execve_iff.mp hw
      refine (NameWrite.inName_iff _).mpr ?_
      simpa using h (by simp [ht])

/-- A write that stays in the name leaves a name there. -/
theorem NameWrite.after_named {w : NameWrite} (h : w.InName) :
    ∃ n, CStr.strlen taskNameLen w.after = some n := by
  obtain ⟨n, -, hn⟩ := strlen_of_zero h.1 CStr.strcpy_stop
  exact ⟨n, hn⟩

theorem Named.step (named : s.Named) (inName : s.WritesInName op) (hstep : s.step op = some s') :
    s'.Named := by
  obtain ⟨w, hw, rfl⟩ := Option.map_eq_some_iff.mp hstep
  intro p t hp
  by_cases heq : p = w.task
  · rw [heq, Function.update_self] at hp
    cases hp
    exact NameWrite.after_named (inName w hw)
  · rw [Function.update_of_ne heq] at hp
    exact named p t hp

/-- In every run of forks and execs the writes stay in the names exactly if each name fits. -/
theorem taskNames_inBounds_iff (named : s.Named) (ops : List NameOp) :
    Run.Meets NamedTasks.step WritesInName s ops ↔ Run.Meets NamedTasks.step NameFits s ops :=
  Run.meets_congr named (fun _ op named => named.writesInName_iff op)
    fun _ _ _ named inName hstep => named.step inName hstep

/-! ## Generations -/

/-- Each task of the chain is a child of the one before. -/
def generations (fields : Nat → Byte) (p depth : Nat) : List NameOp :=
  (List.range' p depth).map fun q => .fork q (q + 1) fields

/-- The name of the child is longer by the suffix. -/
theorem strlen_child {t : TaskBytes} {n : Nat} (hn : CStr.strlen taskNameLen t = some n)
    (fields : Nat → Byte) (hfits : n + forkSuffix.length < taskNameLen) :
    CStr.strlen taskNameLen (CStr.strcpy (copyPcb t fields) n forkSuffix) =
    some (n + forkSuffix.length) := by
  obtain ⟨-, -, hbefore⟩ := List.find?_range_eq_some.mp hn
  refine List.find?_range_eq_some.mpr ⟨decide_eq_true CStr.strcpy_stop, List.mem_range.mpr hfits,
    fun i hi => ?_⟩
  rcases Nat.lt_or_ge i n with hlow | hhigh
  · have hchar : CStr.strcpy (copyPcb t fields) n forkSuffix i = t i :=
      (CStr.strcpy_of_lt hlow).trans (if_pos (by omega))
    rw [hchar]
    exact hbefore i hlow
  · obtain ⟨j, rfl⟩ := Nat.exists_eq_add_of_le hhigh
    have hj : j < forkSuffix.length := by omega
    rw [CStr.strcpy_char hj]
    have hall : ∀ c ∈ forkSuffix, (!decide (c = 0)) = true := by decide
    exact hall _ (List.getElem_mem hj)

/-- Descendants without an exec: the names fit for as many generations as there is room for the
suffix. -/
theorem generations_fit_iff (named : s.Named) {p n : Nat} {t : TaskBytes} (hp : s p = some t)
    (hn : CStr.strlen taskNameLen t = some n) (hnew : ∀ q, p < q → s q = none) (fields : Nat → Byte)
    (depth : Nat) : Run.Meets NamedTasks.step WritesInName s (generations fields p depth) ↔
      n + forkSuffix.length * depth < taskNameLen := by
  induction depth generalizing s p n t with
  | zero => exact iff_of_true trivial (CStr.holds_of_strlen hn).1
  | succ depth ih =>
    have hwrite : s.nameWrite (.fork p (p + 1) fields) =
        some ⟨p + 1, copyPcb t fields, n, forkSuffix⟩ :=
      named.nameWrite_fork_iff.mpr ⟨hnew (p + 1) (Nat.lt_succ_self p), t, n, hp, hn, rfl⟩
    have hlen : forkSuffix.length = 5 := rfl
    have hfirst : s.WritesInName (.fork p (p + 1) fields) ↔
        n + forkSuffix.length < taskNameLen := by
      refine ⟨fun h => (h _ hwrite).1, fun h w hw => ?_⟩
      cases hwrite.symm.trans hw
      exact (NameWrite.inName_iff _).mpr h
    rw [generations, List.range'_succ, List.map_cons, Run.Meets, hfirst]
    by_cases hfits : n + forkSuffix.length < taskNameLen
    · -- the child is the first task of the rest of the chain
      have hstep : s.step (.fork p (p + 1) fields) =
          some
            (Function.update s (p + 1) (some (CStr.strcpy (copyPcb t fields) n forkSuffix))) := by
        rw [step, hwrite, Option.map_some]
        rfl
      have named' := named.step (hfirst.mpr hfits) hstep
      have hrest := ih named' (Function.update_self ..) (strlen_child hn fields hfits)
        (fun q hq => (Function.update_of_ne (show q ≠ p + 1 by omega) _ _).trans
          (hnew q (by omega)))
      simp only [and_iff_right hfits, hstep, Option.some.injEq, forall_eq']
      rw [← generations, hrest, hlen]
      omega
    · refine iff_of_false (fun h => hfits h.1) ?_
      rw [hlen] at hfits ⊢
      omega

end NamedTasks

/-! ## Examples -/

/-- The first process is named `initcode` after its program, with the priority 15 behind the
name. -/
def initTask : TaskBytes := fun i =>
  ([0x69, 0x6e, 0x69, 0x74, 0x63, 0x6f, 0x64, 0x65] : List Byte).getD i
    (if i = taskNameLen then 15 else 0)

/-- Only the first process is there. -/
def onlyInit : NamedTasks := fun p => if p = 1 then some initTask else none

theorem onlyInit_named : onlyInit.Named := by
  intro p t hp
  rw [onlyInit, Option.ite_none_right_eq_some] at hp
  exact ⟨8, Option.some.inj hp.2 ▸ rfl⟩

theorem taskNames_inBounds_iff_two : Run.Meets NamedTasks.step NamedTasks.WritesInName onlyInit
    [.fork 1 2 initTask, .execve 2 [0x73, 0x68]] := by
  refine (NamedTasks.taskNames_inBounds_iff onlyInit_named _).mpr
    ⟨fun _ t ht n hn => ?_, fun _ _ => ⟨fun _ => by decide, fun _ _ => trivial⟩⟩
  cases ht
  cases hn
  decide

theorem generations_fit_one :
    Run.Meets NamedTasks.step NamedTasks.WritesInName onlyInit
      (NamedTasks.generations initTask 1 1) :=
  (NamedTasks.generations_fit_iff onlyInit_named rfl rfl (fun q hq => if_neg (by omega)) _ 1).mpr
    (by decide)

/-- The name of the second descendant is `initcode_fork_fork`. Its seventeenth letter becomes the
priority. -/
theorem secondGeneration_priority :
    (Run.exec NamedTasks.step onlyInit (NamedTasks.generations initTask 1 2)).bind
        (fun s => (s 3).map fun t => t taskNameLen) = some 0x72 ∧ initTask taskNameLen = 15 := by
  decide +kernel

end KernelTravel.Userprog
