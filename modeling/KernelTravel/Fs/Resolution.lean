import KernelTravel.Fs.Path

/-!
# Relative paths

`path_resolution` puts the working directory in front of a relative path. It looks at the first
character only: where that is a dot, everything up to the first slash is left out, whether it is
`.`, `..` or a name that begins with a dot, and a path without a slash makes it use the null
pointer of `strchr`. The comparison with `'..'` is one with 0x2e2e and holds of no character.

The string functions are written as functions on strings without the zero. `none` stands for the
use of a null pointer and for a result that is too long for the buffer.
-/

namespace KernelTravel.Fs

def dot : Byte := 0x2E

def maxNameLen : Nat := 128

/-- `strchr`, as the rest of the string. -/
def strchr (s : List Byte) (c : Byte) : Option (List Byte) :=
  if c ∈ s then some (s.dropWhile (· ≠ c)) else none

/-- The content of `buf` at the end of `path_resolution`, for a path that is not absolute. -/
def spliced (cwd path : List Byte) : Option (List Byte) :=
  if path.head? = some dot then
    if cwd = [slash] then (strchr path slash).map fun rest => cwd ++ rest.drop 1
    else (strchr path slash).map fun rest => cwd ++ rest
  -- the character is compared with 0x2e2e
  else if (path.headD 0).toNat = 0x2e2e then none
  else if cwd ≠ [slash] then some (cwd ++ [slash] ++ path)
  else some (cwd ++ path)

def pathResolution (cwd path : List Byte) : Option (List Byte) :=
  if path.head? = some slash then some path
  else (spliced cwd path).bind fun buf => if buf.length < maxNameLen then some buf else none

/-! ## What a path denotes -/

/-- Files with a name for each child. The parent of the root is the root. -/
structure Files (ν : Type*) where
  root : ν
  parent : ν → ν
  child : ν → Name → Option ν
  parent_root : parent root = root
  parent_child : ∀ {d n c}, child d n = some c → parent c = d

namespace Files

variable {ν : Type*}

/-- Follow one component. -/
def enter (t : Files ν) (d : ν) (n : Name) : Option ν :=
  if n = [dot] then some d else if n = [dot, dot] then some (t.parent d) else t.child d n

/-- Follow the components of a path. -/
def follow (t : Files ν) : List Name → ν → Option ν
  | [], d => some d
  | n :: ns, d => (t.enter d n).bind (t.follow ns)

/-- The file that an absolute path denotes. -/
def denoted (t : Files ν) (path : List Byte) : Option ν := t.follow (names path) t.root

theorem follow_append (t : Files ν) (ns ms : List Name) (d : ν) :
    t.follow (ns ++ ms) d = (t.follow ns d).bind (t.follow ms) := by
  induction ns generalizing d with
  | nil => rfl
  | cons n ns ih =>
    rw [List.cons_append, follow, follow, Option.bind_assoc]
    exact congrArg _ (funext ih)

end Files

/-- `path_resolution` gives an absolute path, and it denotes what is reached from the working
directory. -/
def ResolvesRight {ν : Type*} (t : Files ν) (cwd path : List Byte) : Prop :=
  ∃ result, pathResolution cwd path = some result ∧ result.head? = some slash ∧
    t.denoted result = (t.denoted cwd).bind (t.follow (names path))

/-! ## The names of a path with a slash in it -/

section Names

variable {n : Name} {path : List Byte}

theorem pathParse_rest_lt {rest : List Byte} (hname : (pathParse path).1 ≠ [])
    (h : (pathParse path).2 = some rest) : rest.length < path.length := by
  simp only [pathParse] at hname h
  split at h
  · cases h
  · obtain rfl := Option.some.inj h
    have hskip := (List.dropWhile_suffix (fun c => decide (c = slash)) (l := path)).length_le
    have hsplit := congrArg List.length (List.takeWhile_append_dropWhile
      (p := fun c => decide (c ≠ slash)) (l := path.dropWhile (· = slash)))
    rw [List.length_append] at hsplit
    have hpos := List.length_pos_iff.mpr hname
    omega

/-- The names do not depend on the fuel once there is enough. -/
theorem namesFrom_fuel {fuel fuel' : Nat} (h : path.length ≤ fuel) (h' : path.length ≤ fuel') :
    namesFrom fuel path = namesFrom fuel' path := by
  induction fuel generalizing fuel' path with
  | zero =>
    obtain rfl := List.length_eq_zero_iff.mp (Nat.le_zero.mp h)
    cases fuel' <;> rfl
  | succ fuel ih =>
    cases fuel' with
    | zero =>
      obtain rfl := List.length_eq_zero_iff.mp (Nat.le_zero.mp h')
      rfl
    | succ fuel' =>
      rw [namesFrom, namesFrom]
      by_cases hname : (pathParse path).1 = []
      · rw [if_pos hname, if_pos hname]
      rw [if_neg hname, if_neg hname]
      cases hrest : (pathParse path).2 with
      | none => rfl
      | some rest =>
        have hlt := pathParse_rest_lt hname hrest
        exact congrArg _ (ih (by omega) (by omega))

theorem names_slash (path : List Byte) : names (slash :: path) = names path := by
  have hparse : pathParse (slash :: path) = pathParse path := by
    simp only [pathParse, List.dropWhile_cons_of_pos (p := fun c => decide (c = slash))
      (by simp : decide (slash = slash) = true)]
  have hstep : namesFrom (path.length + 1) (slash :: path) = namesFrom (path.length + 1) path := by
    rw [namesFrom, namesFrom, hparse]
  rw [names, List.length_cons, hstep]
  exact namesFrom_fuel (Nat.le_succ _) (Nat.le_refl _)

/-- A name in front of a slash is the first name. -/
theorem names_name_slash (hn : IsName n) (path : List Byte) :
    names (n ++ slash :: path) = n :: names path := by
  obtain ⟨hne, hslash⟩ := hn
  obtain ⟨c, cs, rfl⟩ := List.exists_cons_of_ne_nil hne
  have hc : c ≠ slash := fun heq => hslash (heq ▸ List.mem_cons_self)
  have hall : ∀ b ∈ c :: cs, decide (b ≠ slash) = true :=
    fun b hb => decide_eq_true fun heq => hslash (heq ▸ hb)
  have hskip : (c :: cs ++ slash :: path).dropWhile (· = slash) = c :: cs ++ slash :: path :=
    List.dropWhile_cons_of_neg (by simpa using hc)
  have htake : (c :: cs ++ slash :: path).takeWhile (· ≠ slash) = c :: cs := by
    rw [List.takeWhile_append_of_pos hall, List.takeWhile_cons_of_neg (by simp), List.append_nil]
  have hdrop : (c :: cs ++ slash :: path).dropWhile (· ≠ slash) = slash :: path := by
    rw [List.dropWhile_append_of_pos hall, List.dropWhile_cons_of_neg (by simp)]
  have hparse : pathParse (c :: cs ++ slash :: path) = (c :: cs, some (slash :: path)) := by
    simp only [pathParse, hskip, htake, hdrop]
    rfl
  rw [← names_slash path, names, List.cons_append, List.length_cons, namesFrom,
    ← List.cons_append, hparse]
  simp only [List.cons_ne_nil, if_false]
  refine congrArg _ (namesFrom_fuel ?_ (Nat.le_refl _))
  rw [List.length_append]
  omega

theorem names_name (hn : IsName n) : names n = [n] := by
  have hpath : pathOf [n] = slash :: n := by simp [pathOf]
  rw [← names_slash, ← hpath]
  exact names_pathOf (List.forall_mem_singleton.mpr hn)

/-- The part before a slash is a name, or it is empty. -/
theorem names_before_slash (hslash : slash ∉ n) (path : List Byte) :
    names (n ++ slash :: path) = names n ++ names path := by
  by_cases hne : n = []
  · rw [hne, List.nil_append, names_slash]
    rfl
  · rw [names_name_slash ⟨hne, hslash⟩, names_name ⟨hne, hslash⟩]
    rfl

/-- A slash between two strings keeps their names apart. -/
theorem names_append_slash (xs ys : List Byte) :
    names (xs ++ slash :: ys) = names xs ++ names ys := by
  induction hlen : xs.length using Nat.strong_induction_on generalizing xs with
  | h len ih =>
    by_cases hmem : slash ∈ xs
    · -- the induction is on what follows the first slash
      obtain ⟨n, rest, rfl, hn⟩ := List.eq_append_cons_of_mem hmem
      have hrest : rest.length < len := by
        rw [← hlen, List.length_append, List.length_cons]
        omega
      rw [List.append_assoc, List.cons_append, names_before_slash hn, names_before_slash hn,
        ih _ hrest rest rfl, List.append_assoc]
    · exact names_before_slash hmem ys

end Names

/-! ## When the result is right -/

section Resolution

variable {ν : Type*} {t : Files ν} {cwd path : List Byte}

/-- The result without the test for its length, where the path is put behind the directory. -/
theorem names_joined (cwd rest : List Byte) :
    names (if cwd = [slash] then cwd ++ rest else cwd ++ slash :: rest) =
    names cwd ++ names rest := by
  split
  next hroot =>
    rw [hroot]
    exact names_append_slash [] rest
  next => exact names_append_slash cwd rest

/-- A path that begins with a dot loses all up to its first slash. -/
theorem spliced_dot (hdot : path.head? = some dot) (c rest : List Byte)
    (hpath : path = c ++ slash :: rest)
    (hc : slash ∉ c) :
    spliced cwd path = some (if cwd = [slash] then cwd ++ rest else cwd ++ slash :: rest) := by
  have hall : ∀ b ∈ c, decide (b ≠ slash) = true :=
    fun b hb => decide_eq_true fun heq => hc (heq ▸ hb)
  have hchr : strchr path slash = some (slash :: rest) := by
    rw [strchr, hpath, if_pos (List.mem_append_right _ List.mem_cons_self),
      List.dropWhile_append_of_pos hall, List.dropWhile_cons_of_neg (by simp)]
  rw [spliced, if_pos hdot, hchr]
  split <;> rfl

/-- Without a slash the null pointer is used. -/
theorem spliced_null (hdot : path.head? = some dot) (hslash : slash ∉ path) :
    spliced cwd path = none := by
  rw [spliced, if_pos hdot, strchr, if_neg hslash]
  split <;> rfl

theorem spliced_plain (hdot : path.head? ≠ some dot) :
    spliced cwd path = some (if cwd = [slash] then cwd ++ path else cwd ++ slash :: path) := by
  have hchar : (path.headD 0).toNat ≠ 0x2e2e := by
    have := (path.headD 0).isLt
    omega
  rw [spliced, if_neg hdot, if_neg hchar]
  by_cases hroot : cwd = [slash]
  · rw [if_neg (not_not.mpr hroot), if_pos hroot]
  · rw [if_pos hroot, if_neg hroot, List.append_assoc]
    rfl

theorem head_joined (hcwd : cwd.head? = some slash) (rest : List Byte) :
    (if cwd = [slash] then cwd ++ rest else cwd ++ slash :: rest).head? = some slash := by
  obtain ⟨c, cs, rfl⟩ : ∃ c cs, cwd = c :: cs :=
    List.exists_cons_of_ne_nil (by rintro rfl; cases hcwd)
  split <;> exact hcwd

/-- Where the buffer holds the directory and a path behind it, the result is right if that path
leads to the same file as the one that was given. -/
theorem resolvesRight_joined {rest : List Byte} (hcwd : cwd.head? = some slash)
    (hrel : path.head? ≠ some slash)
    (hspliced : spliced cwd path =
      some (if cwd = [slash] then cwd ++ rest else cwd ++ slash :: rest))
    (fits : ∀ result, spliced cwd path = some result → result.length < maxNameLen) :
    ResolvesRight t cwd path ↔
      ∀ d, t.denoted cwd = some d → t.follow (names rest) d = t.follow (names path) d := by
  have hresult : pathResolution cwd path =
      some (if cwd = [slash] then cwd ++ rest else cwd ++ slash :: rest) := by
    rw [pathResolution, if_neg hrel, hspliced, Option.bind_some, if_pos (fits _ hspliced)]
  have hdenoted : t.denoted (if cwd = [slash] then cwd ++ rest else cwd ++ slash :: rest) =
      (t.denoted cwd).bind (t.follow (names rest)) := by
    rw [Files.denoted, names_joined, Files.follow_append]
    rfl
  have hiff : ResolvesRight t cwd path ↔
      (t.denoted cwd).bind (t.follow (names rest)) =
      (t.denoted cwd).bind (t.follow (names path)) := by
    rw [ResolvesRight, ← hdenoted]
    constructor
    · rintro ⟨result, hsome, -, hright⟩
      obtain rfl := Option.some.inj (hresult.symm.trans hsome)
      exact hright
    · exact fun hright => ⟨_, hresult, head_joined hcwd rest, hright⟩
  rw [hiff]
  cases t.denoted cwd with
  | none => simp
  | some d => simp

theorem resolvesRight_dot {c rest : List Byte} (hcwd : cwd.head? = some slash)
    (hdot : path.head? = some dot) (hpath : path = c ++ slash :: rest) (hc : slash ∉ c)
    (fits : ∀ result, spliced cwd path = some result → result.length < maxNameLen) :
    ResolvesRight t cwd path ↔
      ∀ d, t.denoted cwd = some d → t.follow (names rest) d = t.follow (c :: names rest) d := by
  have hrel : path.head? ≠ some slash := by
    rw [hdot]
    decide
  have hname : IsName c := by
    refine ⟨?_, hc⟩
    rintro rfl
    rw [hpath] at hrel
    exact hrel rfl
  have hnames : names path = c :: names rest := by rw [hpath, names_name_slash hname]
  rw [resolvesRight_joined hcwd hrel (spliced_dot hdot c rest hpath hc) fits, hnames]

theorem not_resolvesRight_null (hdot : path.head? = some dot) (hslash : slash ∉ path) :
    ¬ResolvesRight t cwd path := by
  rintro ⟨result, hsome, -⟩
  have hrel : path.head? ≠ some slash := by
    rw [hdot]
    decide
  rw [pathResolution, if_neg hrel, spliced_null hdot hslash] at hsome
  cases hsome

/-- When a relative path is resolved: it does not begin with a dot, or it has a slash and what
stands before the first slash makes no difference to what follows. -/
theorem resolvesRight_iff {ν : Type*} (t : Files ν) (cwd path : List Byte)
    (hcwd : cwd.head? = some slash) (hrel : path.head? ≠ some slash)
    (fits : ∀ result, spliced cwd path = some result → result.length < maxNameLen) :
    ResolvesRight t cwd path ↔ path.head? ≠ some dot ∨
      ∃ c rest, path = c ++ slash :: rest ∧ slash ∉ c ∧
        ∀ d, t.denoted cwd = some d → t.follow (names rest) d = t.follow (c :: names rest) d := by
  by_cases hdot : path.head? = some dot
  · rw [or_iff_right (not_not.mpr hdot)]
    constructor
    · intro hright
      by_cases hslash : slash ∈ path
      · obtain ⟨c, rest, hpath, hc⟩ := List.eq_append_cons_of_mem hslash
        exact ⟨c, rest, hpath, hc, (resolvesRight_dot hcwd hdot hpath hc fits).mp hright⟩
      · exact absurd hright (not_resolvesRight_null hdot hslash)
    · rintro ⟨c, rest, hpath, hc, hsame⟩
      exact (resolvesRight_dot hcwd hdot hpath hc fits).mpr hsame
  · refine iff_of_true ?_ (.inl hdot)
    exact (resolvesRight_joined hcwd hrel (spliced_plain hdot) fits).mpr fun _ _ => rfl

end Resolution

/-- The root 0 with a directory `a`, which is 1, and in both of them files `x`, which are 2 and
3. -/
def smallFiles : Files Nat where
  root := 0
  parent d := if d = 3 then 1 else 0
  child d n := if d = 0 ∧ n = [0x61] then some 1 else if d = 0 ∧ n = [0x78] then some 2
    else if d = 1 ∧ n = [0x78] then some 3 else none
  parent_root := rfl
  parent_child := by
    intro d n c h
    split_ifs at h <;> obtain rfl := Option.some.inj h <;> simp_all

/-- In `/a`, the path `./x` is right. -/
theorem resolvesRight_iff_here : ResolvesRight smallFiles [slash, 0x61] [dot, slash, 0x78] := by
  refine (resolvesRight_iff smallFiles _ _ rfl (by decide) fun result h => ?_).mpr
    (.inr ⟨[dot], [0x78], rfl, by decide, fun d h => ?_⟩)
  · obtain rfl := Option.some.inj h
    decide
  · obtain rfl := Option.some.inj h
    decide

/-- In `/a`: the path `../x` becomes `/a/x`, so does `.b/x`, and `..` and `.b` use a null
pointer. -/
theorem dots_wrong :
    (pathResolution [slash, 0x61] [dot, dot, slash, 0x78] = some [slash, 0x61, slash, 0x78] ∧
        ¬ResolvesRight smallFiles [slash, 0x61] [dot, dot, slash, 0x78]) ∧
      (pathResolution [slash, 0x61] [dot, 0x62, slash, 0x78] = some [slash, 0x61, slash, 0x78] ∧
        ¬ResolvesRight smallFiles [slash, 0x61] [dot, 0x62, slash, 0x78]) ∧
      pathResolution [slash, 0x61] [dot, dot] = none ∧
        pathResolution [slash, 0x61] [dot, 0x62] = none := by
  have hwrong : ∀ path result, pathResolution [slash, 0x61] path = some result →
      smallFiles.denoted result ≠ (smallFiles.denoted [slash, 0x61]).bind
        (smallFiles.follow (names path)) →
      ¬ResolvesRight smallFiles [slash, 0x61] path := by
    rintro path result hresult hne ⟨other, hother, -, hright⟩
    cases hresult.symm.trans hother
    exact hne hright
  exact ⟨⟨by decide, hwrong _ _ rfl (by decide)⟩, ⟨by decide, hwrong _ _ rfl (by decide)⟩,
    by decide, by decide⟩

end KernelTravel.Fs
