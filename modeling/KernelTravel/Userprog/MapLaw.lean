import KernelTravel.Userprog.LifeCycle

/-!
# Mapping a page

What `page_table_add` does to the translations of `vaddr_to_paddr`, for tables that were made by
nothing else. The pages that are mapped are arbitrary; only the pages of the tables matter. They
come from `get_page`, of which it is assumed that it returns a cleared page of the kernel's
window that no call has returned before. Whoever else takes pages from the pool takes other ones.
-/

namespace KernelTravel.Userprog

open Mm Outcome

def vaddrToPaddr (s : Phys) (pd vaddr : Nat) : Nat :=
  match reversePtePtr s pd vaddr with
  | none => 0
  | some pte => if s.word pte = 0 then 0 else frame (s.word pte) ||| (vaddr &&& 0xfff)

/-! ## The pages of the pool -/

/-- The pages that the next calls of `get_page` return. -/
def Supplies : Pool → List Nat → Prop
  | _, [] => True
  | pool, page :: pages => ∃ pool', pool.getPage = some (page, pool') ∧ Supplies pool' pages

/-- A page of the kernel's window. -/
structure IsPage (page : Nat) : Prop where
  aligned : page % pageSize = 0
  lower : dmwBase ≤ page
  upper : page < dmwBase + 2 ^ 60

/-- Every page that `get_page` will return is a page of the window, is not `known`, and is
returned once. -/
structure FreshPages (pool : Pool) (known : Nat → Prop) : Prop where
  nodup : ∀ pages, Supplies pool pages → pages.Nodup
  page : ∀ pages, Supplies pool pages → ∀ page ∈ pages, IsPage page ∧ ¬known page

namespace FreshPages

variable {pool pool' : Pool} {known : Nat → Prop} {page : Nat}

theorem first (fresh : FreshPages pool known) (hget : pool.getPage = some (page, pool')) :
    IsPage page ∧ ¬known page := fresh.page [page] ⟨pool', hget, trivial⟩ page List.mem_cons_self

theorem next (fresh : FreshPages pool known) (hget : pool.getPage = some (page, pool')) :
    FreshPages pool' fun p => p = page ∨ known p := by
  have supplies : ∀ {pages}, Supplies pool' pages → Supplies pool (page :: pages) :=
    fun h => ⟨pool', hget, h⟩
  refine ⟨fun pages h => (List.nodup_cons.mp (fresh.nodup _ (supplies h))).2,
    fun pages h p hp => ?_⟩
  obtain ⟨hpage, hknown⟩ := fresh.page _ (supplies h) p (List.mem_cons_of_mem _ hp)
  refine ⟨hpage, not_or.mpr ⟨?_, hknown⟩⟩
  rintro rfl
  exact (List.nodup_cons.mp (fresh.nodup _ (supplies h))).1 hp

end FreshPages

theorem IsPage.or_dmwBase {page : Nat} (h : IsPage page) : page ||| dmwBase = page :=
  Mm.or_dmwBase h.lower h.upper

theorem IsPage.ne_zero {page : Nat} (h : IsPage page) : page ≠ 0 := by
  have := h.lower
  unfold dmwBase at this
  omega

/-- The pool of the kernel meets the assumption where it lies in the window: it returns pages whose
bits were clear. -/
theorem FreshPages.of_placed {pool : Pool} {known : Nat → Prop} (placed : pool.Placed)
    (held : ∀ p, known p → pool.Held p) : FreshPages pool known := by
  have supplied : ∀ pages, Supplies pool pages →
      pages.Nodup ∧ ∀ page ∈ pages, IsPage page ∧ ¬pool.Held page := by
    intro pages
    clear held
    induction pages generalizing pool with
    | nil => exact fun _ => ⟨List.nodup_nil, fun page h => absurd h List.not_mem_nil⟩
    | cons page pages ih =>
      rintro ⟨pool', hget, hrest⟩
      obtain ⟨-, i, rfl, taken⟩ := Pool.getPage_taken hget
      have placed' := taken.region.placed placed
      have hfree := taken.not_held placed Nat.one_pos
      have htaken := taken.held Nat.one_pos
      rw [Nat.add_zero] at hfree htaken
      obtain ⟨aligned, lower, upper⟩ := placed'.held_aligned htaken
      obtain ⟨hnodup, hpages⟩ := ih placed' hrest
      refine ⟨List.nodup_cons.mpr ⟨fun h => (hpages _ h).2 htaken, hnodup⟩, fun q hq => ?_⟩
      rcases List.mem_cons.mp hq with rfl | hq
      · exact ⟨⟨aligned, lower, upper⟩, hfree⟩
      · exact ⟨(hpages q hq).1, fun h => (hpages q hq).2 (taken.held_mono h)⟩
  refine ⟨fun pages h => (supplied pages h).1, fun pages h page hpage => ?_⟩
  obtain ⟨hpage, hfree⟩ := (supplied pages h).2 page hpage
  exact ⟨hpage, fun hknown => hfree (held page hknown)⟩

/-! ## The tables below a page directory -/

/-- An entry of one of the two upper levels, by the indices that lead to it. -/
inductive Upper where
  | pgd (i : Nat)
  | pmd (i j : Nat)
  deriving DecidableEq

/-- The table that an upper entry leads to, or 0. -/
def upper (s : Phys) (pd : Nat) : Upper → Nat
  | .pgd i => s.mem pd i
  | .pmd i j => if s.mem pd i = 0 then 0 else s.mem (s.mem pd i) j

/-- The entry of the lowest level, or 0. -/
def leaf (s : Phys) (pd i j k : Nat) : Nat :=
  if upper s pd (.pmd i j) = 0 then 0 else s.mem (upper s pd (.pmd i j)) k

/-- Where an upper entry is stored. -/
def slot (s : Phys) (pd : Nat) : Upper → Slot
  | .pgd i => ⟨pd, i⟩
  | .pmd i j => ⟨s.mem pd i, j⟩

/-- The table of the entry is there. -/
def Present (s : Phys) (pd : Nat) : Upper → Prop
  | .pgd _ => True
  | .pmd i _ => s.mem pd i ≠ 0

/-- No table is reached by two entries, and none leads back to the directory. -/
structure NoneShared (s : Phys) (pd : Nat) : Prop where
  inj : ∀ e e', upper s pd e ≠ 0 → upper s pd e = upper s pd e' → e = e'
  root : ∀ e, upper s pd e ≠ pd

/-- The tables below `pd` are known pages, each in one place, and `get_page` will return others. -/
structure Tables (s : Phys) (pd : Nat) (known : Nat → Prop) : Prop extends NoneShared s pd where
  fresh : FreshPages s.pool known
  known_root : known pd
  known_upper : ∀ e, upper s pd e ≠ 0 → known (upper s pd e)
  page : ∀ e, upper s pd e ≠ 0 → IsPage (upper s pd e)

section Upper

variable {s s' : Phys} {pd : Nat} {known : Nat → Prop} {e : Upper}

theorem word_slot (h : Present s pd e) : s.word (slot s pd e) = upper s pd e := by
  cases e with
  | pgd i => rfl
  | pmd i j => exact (if_neg h).symm

theorem Tables.known_slot (tables : Tables s pd known) (h : Present s pd e) :
    known (slot s pd e).page := by
  cases e with
  | pgd i => exact tables.known_root
  | pmd i j => exact tables.known_upper (.pgd i) h

/-- Where two upper entries are stored in the same place, they are the same. -/
theorem NoneShared.slot_inj (tables : NoneShared s pd) {e' : Upper} (h : Present s pd e)
    (h' : Present s pd e') (heq : slot s pd e = slot s pd e') : e = e' := by
  cases e with
  | pgd i =>
    cases e' with
    | pgd i' =>
      cases heq
      rfl
    | pmd i' j' => exact absurd (congrArg Slot.page heq).symm (tables.root (.pgd i'))
  | pmd i j =>
    cases e' with
    | pgd i' => exact absurd (congrArg Slot.page heq) (tables.root (.pgd i))
    | pmd i' j' =>
      cases tables.inj (.pgd i) (.pgd i') h (congrArg Slot.page heq)
      cases congrArg Slot.idx heq
      rfl

/-- A table is not stored where an entry of its own level or above is. -/
theorem NoneShared.leaf_ne_slot (tables : NoneShared s pd) {i j : Nat}
    (h : upper s pd (.pmd i j) ≠ 0) (e : Upper) : upper s pd (.pmd i j) ≠ (slot s pd e).page := by
  cases e with
  | pgd i' => exact tables.root _
  | pmd i' j' =>
    intro heq
    cases tables.inj (.pmd i j) (.pgd i') h heq

/-! ## A fresh table below an entry -/

/-- The page `f` is cleared and written to the entry `e`. -/
structure Hung (s : Phys) (pd : Nat) (e : Upper) (f : Nat) (s' : Phys) : Prop where
  get : s.pool.getPage = some (f, s'.pool)
  clear : ∀ l, s'.mem f l = 0
  here : s'.mem (slot s pd e).page (slot s pd e).idx = f
  others : ∀ p l, p ≠ f → ¬(p = (slot s pd e).page ∧ l = (slot s pd e).idx) → s'.mem p l = s.mem p l

variable {f : Nat}

theorem Hung.upper_of_ne (hung : Hung s pd e f s') (tables : Tables s pd known)
    (present : Present s pd e)
    (hempty : upper s pd e = 0) {e' : Upper} (hne : e' ≠ e) : upper s' pd e' = upper s pd e' := by
  have hfresh := (tables.fresh.first hung.get).2
  have hpd : pd ≠ f := fun h => hfresh (h ▸ tables.known_root)
  -- an entry that is stored elsewhere is as it was
  have same : ∀ e', e' ≠ e → Present s pd e' → (slot s pd e').page ≠ f →
      s'.mem (slot s pd e').page (slot s pd e').idx =
      s.mem (slot s pd e').page (slot s pd e').idx := by
    intro e' hne present' hf
    refine hung.others _ _ hf fun h => hne (tables.slot_inj present' present ?_)
    exact congrArg₂ Slot.mk h.1 h.2
  cases e' with
  | pgd i => exact same (.pgd i) hne trivial hpd
  | pmd i j =>
    rw [upper, upper]
    by_cases habove : e = .pgd i
    · -- the new table is empty
      subst habove
      have hhere : s'.mem pd i = f := hung.here
      rw [hhere, hung.clear, if_pos (show s.mem pd i = 0 from hempty)]
      exact ite_self 0
    · have hfirst : s'.mem pd i = s.mem pd i := same (.pgd i) (Ne.symm habove) trivial hpd
      rw [hfirst]
      split
      · rfl
      next hpmd =>
        refine same (.pmd i j) hne hpmd fun h => hfresh ?_
        rw [← h]
        exact tables.known_upper (.pgd i) hpmd

theorem Hung.upper_self (hung : Hung s pd e f s') (tables : Tables s pd known)
    (present : Present s pd e) : upper s' pd e = f := by
  cases e with
  | pgd i => exact hung.here
  | pmd i j =>
    have hfresh := (tables.fresh.first hung.get).2
    have hfirst : s'.mem pd i = s.mem pd i := by
      refine hung.others pd i (fun h => hfresh (h ▸ tables.known_root)) fun h => ?_
      exact tables.root (.pgd i) h.1.symm
    rw [upper, hfirst, if_neg present]
    exact hung.here

theorem Hung.leaf_eq (hung : Hung s pd e f s') (tables : Tables s pd known)
    (present : Present s pd e)
    (hempty : upper s pd e = 0) (i j k : Nat) : leaf s' pd i j k = leaf s pd i j k := by
  rw [leaf, leaf]
  by_cases hhere : .pmd i j = e
  · rw [hhere, hung.upper_self tables present, hung.clear, hempty, if_pos rfl]
    exact ite_self 0
  · rw [hung.upper_of_ne tables present hempty hhere]
    split
    · rfl
    next htable =>
      refine hung.others _ _ (fun h => ?_) fun h => tables.leaf_ne_slot htable e h.1
      exact (tables.fresh.first hung.get).2 (h ▸ tables.known_upper _ htable)

theorem Hung.tables (hung : Hung s pd e f s') (tables : Tables s pd known)
    (present : Present s pd e)
    (hempty : upper s pd e = 0) : Tables s' pd fun p => p = f ∨ known p := by
  have hfresh := tables.fresh.first hung.get
  have hself := hung.upper_self tables present
  -- every entry leads to the new page, or where it led before
  have hcases : ∀ e', e' = e ∨ upper s' pd e' = upper s pd e' := fun e' =>
    (eq_or_ne e' e).imp_right fun hne => hung.upper_of_ne tables present hempty hne
  have hnew : ∀ e', e' ≠ e → upper s' pd e' ≠ 0 → upper s' pd e' ≠ f := by
    intro e' hne hsome heq
    rw [hung.upper_of_ne tables present hempty hne] at hsome heq
    exact hfresh.2 (heq ▸ tables.known_upper e' hsome)
  refine ⟨⟨?_, ?_⟩, tables.fresh.next hung.get, .inr tables.known_root, ?_, ?_⟩
  · intro e₁ e₂ hsome heq
    by_cases h₁ : e₁ = e
    · by_contra h₂
      rw [h₁] at h₂ heq hsome
      exact hnew e₂ (Ne.symm h₂) (heq ▸ hsome) (heq ▸ hself)
    · by_cases h₂ : e₂ = e
      · rw [h₂, hself] at heq
        exact absurd heq (hnew e₁ h₁ hsome)
      · rw [hung.upper_of_ne tables present hempty h₁] at hsome heq
        rw [hung.upper_of_ne tables present hempty h₂] at heq
        exact tables.inj e₁ e₂ hsome heq
  · intro e' heq
    by_cases h' : e' = e
    · rw [h', hself] at heq
      exact hfresh.2 (heq ▸ tables.known_root)
    · rw [hung.upper_of_ne tables present hempty h'] at heq
      exact tables.root e' heq
  · intro e' hsome
    rcases hcases e' with rfl | heq
    · exact .inl hself
    · rw [heq] at hsome ⊢
      exact .inr (tables.known_upper e' hsome)
  · intro e' hsome
    rcases hcases e' with rfl | heq
    · rw [hself]
      exact hfresh.1
    · rw [heq] at hsome ⊢
      exact tables.page e' hsome

/-! ## The functions of the kernel -/

/-- The pool is as it was, or a page was taken. -/
def Drawn (pool pool' : Pool) : Prop := pool' = pool ∨ ∃ page, pool.getPage = some (page, pool')

/-- The entry `e` leads to a table, and nothing else has changed. -/
structure Descended (s : Phys) (pd : Nat) (e : Upper) (s' : Phys) : Prop where
  drawn : Drawn s.pool s'.pool
  tables : ∃ known, Tables s' pd known
  present : upper s' pd e ≠ 0
  others : ∀ e', e' ≠ e → upper s' pd e' = upper s pd e'
  leaf_eq : ∀ i j k, leaf s' pd i j k = leaf s pd i j k

theorem descend_upper (tables : Tables s pd known) (present : Present s pd e) (idx : Nat) :
    Ends (s.descend (slot s pd e) idx)
      (fun out => out.1 = ⟨upper out.2 pd e, idx⟩ ∧ Descended s pd e out.2)
      (fun stop => stop = .noMemory ∧ s.pool.getPage = none) := by
  rw [Phys.descend, word_slot present]
  by_cases hempty : upper s pd e = 0
  · rw [if_neg (not_not.mpr hempty), Phys.getPage]
    cases hget : s.pool.getPage with
    | none => exact ⟨rfl, rfl⟩
    | some r =>
      obtain ⟨f, pool⟩ := r
      have hslot : (slot s pd e).page ≠ f := fun h =>
        (tables.fresh.first hget).2 (h ▸ tables.known_slot present)
      have hung : Hung s pd e f
          ((({ s with pool } : Phys).setPage f fun _ => 0).setWord (slot s pd e) f) := by
        refine ⟨hget, fun l => ?_, Phys.setWord_self _ _ _ _, fun p l hp hne => ?_⟩
        · rw [Phys.setWord_of_ne _ fun h => hslot h.1.symm]
          simp [Phys.setPage]
        · rw [Phys.setWord_of_ne _ hne]
          simp [Phys.setPage, hp]
      have hself := hung.upper_self tables present
      refine ⟨congrArg (Slot.mk · idx) hself.symm, .inr ⟨f, hget⟩,
        ⟨_, hung.tables tables present hempty⟩, ?_, ?_, ?_⟩
      · rw [hself]
        exact (tables.fresh.first hget).1.ne_zero
      · exact fun e' hne => hung.upper_of_ne tables present hempty hne
      · exact hung.leaf_eq tables present hempty
  · rw [if_pos hempty, (tables.page e hempty).or_dmwBase]
    exact ⟨rfl, .inl rfl, ⟨known, tables⟩, hempty, fun _ _ => rfl, fun _ _ _ => rfl⟩

/-- Two pages can be taken from the pool. -/
def TwoLeft (pool : Pool) : Prop := ∃ a b, Supplies pool [a, b]

theorem TwoLeft.getPage_ne_none {pool : Pool} (h : TwoLeft pool) : pool.getPage ≠ none := by
  obtain ⟨a, b, pool', hget, -⟩ := h
  rw [hget]
  exact Option.some_ne_none _

theorem TwoLeft.drawn {pool pool' : Pool} (h : TwoLeft pool) (drawn : Drawn pool pool') :
    pool'.getPage ≠ none := by
  rcases drawn with rfl | ⟨page, hpage⟩
  · exact h.getPage_ne_none
  · obtain ⟨a, b, pool₁, hget, pool₂, hnext, -⟩ := h
    cases hpage.symm.trans hget
    rw [hnext]
    exact Option.some_ne_none _

theorem ptePtr_upper (tables : Tables s pd known) (vaddr : Nat) : Ends (s.ptePtr pd vaddr)
      (fun out => ∃ known', Tables out.2 pd known' ∧
        upper out.2 pd (.pmd (pgdIdx vaddr) (pmdIdx vaddr)) ≠ 0 ∧
        out.1 = ⟨upper out.2 pd (.pmd (pgdIdx vaddr) (pmdIdx vaddr)), pteIdx vaddr⟩ ∧
        ∀ i j k, leaf out.2 pd i j k = leaf s pd i j k)
      (fun stop => stop = .noMemory ∧ ¬TwoLeft s.pool) := by
  have hfirst := descend_upper (e := .pgd (pgdIdx vaddr)) tables trivial (pmdIdx vaddr)
  refine (hfirst.mono (fun _ h => h) fun stop h => ⟨h.1, fun left => left.getPage_ne_none h.2⟩).bind
    ?_
  rintro ⟨pmd, s₁⟩ ⟨hslot, first⟩
  obtain ⟨known₁, tables₁⟩ := first.tables
  obtain rfl : pmd = slot s₁ pd (.pmd (pgdIdx vaddr) (pmdIdx vaddr)) := hslot
  have present : Present s₁ pd (.pmd (pgdIdx vaddr) (pmdIdx vaddr)) := first.present
  refine (descend_upper tables₁ present (pteIdx vaddr)).mono ?_ ?_
  · rintro ⟨pte, s₂⟩ ⟨hslot, second⟩
    obtain ⟨known₂, tables₂⟩ := second.tables
    exact ⟨known₂, tables₂, second.present, hslot,
      fun i j k => (second.leaf_eq i j k).trans (first.leaf_eq i j k)⟩
  · exact fun stop h => ⟨h.1, fun left => left.drawn first.drawn h.2⟩

/-! ## A write to the lowest level -/

section Leaf

variable {i j k value : Nat}

theorem upper_setLeaf (tables : NoneShared s pd) (hpt : upper s pd (.pmd i j) ≠ 0) (e : Upper) :
    upper (s.setWord ⟨upper s pd (.pmd i j), k⟩ value) pd e = upper s pd e := by
  have hpgd : ∀ l, (s.setWord ⟨upper s pd (.pmd i j), k⟩ value).mem pd l = s.mem pd l := fun l =>
    Phys.setWord_of_ne s fun h => tables.root _ h.1.symm
  cases e with
  | pgd i' => exact hpgd i'
  | pmd i' j' =>
    change (if (s.setWord _ value).mem pd i' = 0 then 0 else _) = if s.mem pd i' = 0 then 0 else _
    rw [hpgd]
    split
    · rfl
    · exact Phys.setWord_of_ne s fun h => tables.leaf_ne_slot hpt (.pmd i' j') h.1.symm

theorem leaf_setLeaf (tables : NoneShared s pd) (hpt : upper s pd (.pmd i j) ≠ 0) (i' j' k' : Nat) :
    leaf (s.setWord ⟨upper s pd (.pmd i j), k⟩ value) pd i' j' k' =
      if i' = i ∧ j' = j ∧ k' = k then value else leaf s pd i' j' k' := by
  rw [leaf, upper_setLeaf tables hpt, leaf]
  by_cases heq : i' = i ∧ j' = j ∧ k' = k
  · obtain ⟨rfl, rfl, rfl⟩ := heq
    rw [if_neg hpt, if_pos ⟨rfl, rfl, rfl⟩]
    exact Phys.setWord_self _ _ _ _
  · rw [if_neg heq]
    split
    · rfl
    next hpt' =>
      refine Phys.setWord_of_ne s fun h => heq ?_
      cases tables.inj _ _ hpt' h.1
      exact ⟨rfl, rfl, h.2⟩

theorem Tables.setLeaf (tables : Tables s pd known) (hpt : upper s pd (.pmd i j) ≠ 0) :
    Tables (s.setWord ⟨upper s pd (.pmd i j), k⟩ value) pd known := by
  have hupper : ∀ e, upper (s.setWord ⟨upper s pd (.pmd i j), k⟩ value) pd e = upper s pd e :=
    upper_setLeaf tables.toNoneShared hpt
  refine ⟨⟨?_, ?_⟩, tables.fresh, tables.known_root, ?_, ?_⟩ <;> simp only [hupper]
  · exact tables.inj
  · exact tables.root
  · exact tables.known_upper
  · exact tables.page

end Leaf

/-- `page_table_add` maps one page, unless it is mapped or there is no page for a table. -/
theorem pageTableAdd_leaf (tables : Tables s pd known) (vaddr paddr attr : Nat) :
    Ends (s.pageTableAdd pd vaddr paddr attr)
      (fun s' => (∃ known', Tables s' pd known') ∧ ∀ i j k, leaf s' pd i j k =
        if i = pgdIdx vaddr ∧ j = pmdIdx vaddr ∧ k = pteIdx vaddr then paddr ||| attr
          else leaf s pd i j k)
      (fun stop => stop = .noMemory ∧ ¬TwoLeft s.pool ∨
        stop = .bug ∧ leaf s pd (pgdIdx vaddr) (pmdIdx vaddr) (pteIdx vaddr) ≠ 0) := by
  refine ((ptePtr_upper tables vaddr).mono (fun _ h => h) fun stop h => .inl h).bind ?_
  rintro ⟨pte, s₁⟩ ⟨known₁, tables₁, hpt, hslot, hleaf⟩
  dsimp only at hpt hslot hleaf ⊢
  subst hslot
  have hword : s₁.word ⟨upper s₁ pd (.pmd (pgdIdx vaddr) (pmdIdx vaddr)), pteIdx vaddr⟩ =
      leaf s pd (pgdIdx vaddr) (pmdIdx vaddr) (pteIdx vaddr) := by
    rw [← hleaf, leaf, if_neg hpt]
    rfl
  rw [hword]
  split
  next hmapped => exact .inr ⟨rfl, hmapped⟩
  next =>
    refine ⟨⟨known₁, tables₁.setLeaf hpt⟩, fun i j k => ?_⟩
    rw [leaf_setLeaf tables₁.toNoneShared hpt, hleaf]

/-- A page that someone else takes is not a table. -/
theorem Tables.getPage (tables : Tables s pd known) {pool : Pool}
    (hget : s.pool.getPage = some (f, pool)) :
    Tables (({ s with pool } : Phys).setPage f fun _ => 0) pd fun p => p = f ∨ known p := by
  have hfresh := (tables.fresh.first hget).2
  have same : ∀ q, known q → (({ s with pool } : Phys).setPage f fun _ => 0).mem q = s.mem q := by
    intro q hq
    have hne : q ≠ f := fun h => hfresh (h ▸ hq)
    exact Function.update_of_ne hne _ _
  have hupper : ∀ e, upper (({ s with pool } : Phys).setPage f fun _ => 0) pd e = upper s pd e := by
    intro e
    cases e with
    | pgd i => exact congrFun (same pd tables.known_root) i
    | pmd i j =>
      rw [upper, upper, same pd tables.known_root]
      split
      · rfl
      next hpmd => exact congrFun (same _ (tables.known_upper (.pgd i) hpmd)) j
  refine ⟨⟨?_, ?_⟩, tables.fresh.next hget, .inr tables.known_root, ?_, ?_⟩ <;> simp only [hupper]
  · exact tables.inj
  · exact tables.root
  · exact fun e he => .inr (tables.known_upper e he)
  · exact tables.page

end Upper

/-! ## Directories that are built by `page_table_add` -/

inductive MapOp where
  | pageTableAdd (vaddr paddr attr : BitVec 64)
  /-- A page is taken for something else. -/
  | getPage

def mapStep (pd : Nat) (s : Phys) : MapOp → Option Phys
  | .pageTableAdd vaddr paddr attr =>
    (s.pageTableAdd pd vaddr.toNat paddr.toNat attr.toNat).toOption
  | .getPage => s.getPage.toOption.map Prod.snd

section Law

variable {s₀ s s' : Phys} {pd : Nat}

theorem tables_initial (hpd : IsPage pd) (hclear : s.mem pd = fun _ => 0)
    (fresh : FreshPages s.pool (· = pd)) : Tables s pd (· = pd) := by
  have hzero : ∀ e, upper s pd e = 0 := by
    intro e
    cases e with
    | pgd i => exact congrFun hclear i
    | pmd i j => exact if_pos (congrFun hclear i)
  refine ⟨⟨fun e _ h => absurd (hzero e) h, fun e h => ?_⟩, fresh, rfl,
    fun e h => absurd (hzero e) h, fun e h => absurd (hzero e) h⟩
  exact hpd.ne_zero (h.symm.trans (hzero e))

theorem mapStep_tables {op : MapOp} (tables : ∃ known, Tables s pd known)
    (hstep : mapStep pd s op = some s') : ∃ known, Tables s' pd known := by
  obtain ⟨known, tables⟩ := tables
  cases op with
  | pageTableAdd vaddr paddr attr =>
    have hadd := toOption_eq_some.mp hstep
    exact ((pageTableAdd_leaf tables vaddr.toNat paddr.toNat attr.toNat).of_eq_ok hadd).1
  | getPage =>
    obtain ⟨⟨f, s₁⟩, hget, rfl⟩ := Option.map_eq_some_iff.mp hstep
    have hget := toOption_eq_some.mp hget
    rw [Phys.getPage] at hget
    split at hget
    next page pool hpool =>
      cases hget
      exact ⟨_, tables.getPage hpool⟩
    next => cases hget

theorem exec_tables (hpd : IsPage pd) (hclear : s₀.mem pd = fun _ => 0)
    (fresh : FreshPages s₀.pool (· = pd))
    {ops : List MapOp} (built : Run.exec (mapStep pd) s₀ ops = some s) :
    ∃ known, Tables s pd known := by
  have meets : Run.Meets (mapStep pd) (fun _ _ => True) s₀ ops :=
    .of_forall (fun _ _ => trivial) _ _
  exact Run.invariant (I := fun s => ∃ known, Tables s pd known)
    ⟨_, tables_initial hpd hclear fresh⟩ meets
    (fun _ _ _ tables _ hstep => mapStep_tables tables hstep) built

theorem reversePtePtr_upper (s : Phys) (pd vaddr : Nat) : reversePtePtr s pd vaddr =
      if upper s pd (.pmd (pgdIdx vaddr) (pmdIdx vaddr)) = 0 then none
      else some ⟨upper s pd (.pmd (pgdIdx vaddr) (pmdIdx vaddr)), pteIdx vaddr⟩ := by
  rw [reversePtePtr, upper]
  by_cases hpmd : s.mem pd (pgdIdx vaddr) = 0
  · have hfirst : reversePmdPtr s pd vaddr = none := if_pos hpmd
    rw [hfirst, if_pos hpmd]
    rfl
  · have hfirst : reversePmdPtr s pd vaddr = some ⟨s.mem pd (pgdIdx vaddr), pmdIdx vaddr⟩ :=
      if_neg hpmd
    rw [hfirst, if_neg hpmd]
    rfl

theorem vaddrToPaddr_eq (s : Phys) (pd vaddr : Nat) : vaddrToPaddr s pd vaddr =
      if leaf s pd (pgdIdx vaddr) (pmdIdx vaddr) (pteIdx vaddr) = 0 then 0
      else frame (leaf s pd (pgdIdx vaddr) (pmdIdx vaddr) (pteIdx vaddr)) |||
        (vaddr &&& 0xfff) := by
  rw [vaddrToPaddr, reversePtePtr_upper, leaf]
  by_cases hpt : upper s pd (.pmd (pgdIdx vaddr) (pmdIdx vaddr)) = 0
  · rw [if_pos hpt, if_pos hpt, if_pos rfl]
  · rw [if_neg hpt, if_neg hpt]
    rfl

theorem leaf_eq_zero_of_translate {vaddr : Nat} (h : s.translate pd vaddr = none) :
    leaf s pd (pgdIdx vaddr) (pmdIdx vaddr) (pteIdx vaddr) = 0 := by
  rw [leaf, upper]
  by_cases hpmd : s.mem pd (pgdIdx vaddr) = 0
  · rw [if_pos hpmd, if_pos rfl]
  rw [if_neg hpmd]
  by_cases hpt : s.mem (s.mem pd (pgdIdx vaddr)) (pmdIdx vaddr) = 0
  · rw [if_pos hpt]
  rw [if_neg hpt]
  by_contra hpte
  rw [Phys.translate, Phys.lookup, if_neg (by simp [hpmd, hpt, hpte])] at h
  cases h

/-- An entry with a page and attributes gives the address back. -/
theorem frame_or_offset {page attr : Nat} (hpage : IsPage page) (hattr : attr < 4096)
    (vaddr : Nat) :
    page ||| attr ≠ 0 ∧ frame (page ||| attr) ||| (vaddr &&& 0xfff) = page + vaddr % 4096 := by
  obtain ⟨aligned, lower, upper⟩ := hpage
  obtain ⟨b, rfl⟩ : ∃ b, page = 2 ^ 12 * b := ⟨page / 4096, by unfold pageSize at aligned; omega⟩
  have hor : 2 ^ 12 * b ||| attr = 2 ^ 12 * b + attr := (Nat.two_pow_add_eq_or_of_lt hattr b).symm
  have hoff : vaddr &&& 0xfff = vaddr % 4096 := Nat.and_two_pow_sub_one_eq_mod vaddr 12
  unfold dmwBase at lower upper
  have hframe : frame (2 ^ 12 * b + attr) = 2 ^ 12 * b := by
    rw [frame_eq (by omega)]
    omega
  refine ⟨by omega, ?_⟩
  rw [hor, hframe, hoff]
  exact (Nat.two_pow_add_eq_or_of_lt (Nat.mod_lt _ (by decide)) b).symm

/-- Addresses with the same indices lie in the same page of the 39 bits that a directory maps. -/
theorem page_eq_of_indices {u v : Nat} (hv : v < 2 ^ 39)
    (h : pgdIdx u = pgdIdx v ∧ pmdIdx u = pmdIdx v ∧ pteIdx u = pteIdx v) :
    u / 4096 % 2 ^ 27 = v / 4096 := by
  simp only [pgdIdx_eq, pmdIdx_eq, pteIdx_eq] at h
  omega

/-- Mapping a page: the address is translated to it, other pages are translated as before, and no
table is shared. Only a table for which there is no page can keep the kernel from it. -/
theorem pageTableAdd_maps (s₀ s : Phys) (pd : Nat) (hpd : IsPage pd)
    (hclear : s₀.mem pd = fun _ => 0)
    (fresh : FreshPages s₀.pool (· = pd)) (ops : List MapOp)
    (built : Run.exec (mapStep pd) s₀ ops = some s)
    (v p attr : Nat) (hv : v < 2 ^ 39) (unmapped : s.translate pd v = none) (hp : IsPage p)
    (hattr : attr < 4096) :
    Ends (s.pageTableAdd pd v p attr) (fun s' => vaddrToPaddr s' pd v = p + v % 4096 ∧
        (∀ u, u / 4096 % 2 ^ 27 ≠ v / 4096 → vaddrToPaddr s' pd u = vaddrToPaddr s pd u) ∧
        NoneShared s' pd)
      (fun stop => stop = .noMemory ∧ ¬TwoLeft s.pool) := by
  obtain ⟨known, tables⟩ := exec_tables hpd hclear fresh built
  have hzero := leaf_eq_zero_of_translate unmapped
  obtain ⟨hne, hvalue⟩ := frame_or_offset hp hattr v
  refine (pageTableAdd_leaf tables v p attr).mono ?_ ?_
  · rintro s' ⟨⟨known', tables'⟩, hleaf⟩
    refine ⟨?_, fun u hu => ?_, tables'.toNoneShared⟩
    · have hhere : leaf s' pd (pgdIdx v) (pmdIdx v) (pteIdx v) = p ||| attr := by
        rw [hleaf, if_pos ⟨rfl, rfl, rfl⟩]
      rw [vaddrToPaddr_eq, hhere, if_neg hne, hvalue]
    · rw [vaddrToPaddr_eq, hleaf, if_neg fun h => hu (page_eq_of_indices hv h), vaddrToPaddr_eq]
  · rintro stop (hmemory | ⟨-, hmapped⟩)
    · exact hmemory
    · exact absurd hzero hmapped

end Law

/-- A pool of eight pages, of which the first is the directory. -/
def smallPool : Pool := ⟨0x90000000a0000000, ⟨1, fun _ => 1#8⟩⟩

def smallPhys : Phys := ⟨smallPool, fun _ _ => 0⟩

/-- A second page, below the same tables as a first one. -/
theorem pageTableAdd_maps_second : ∃ s, Run.exec (mapStep 0x90000000a0000000) smallPhys
      [.pageTableAdd 0x12344000 0x90000000a0006000 0xf] = some s ∧
    Ends (s.pageTableAdd 0x90000000a0000000 0x12345678 0x90000000a0007000 0xf)
      (fun s' => vaddrToPaddr s' 0x90000000a0000000 0x12345678 = 0x90000000a0007678 ∧
        (∀ u, u / 4096 % 2 ^ 27 ≠ 0x12345 →
          vaddrToPaddr s' 0x90000000a0000000 u = vaddrToPaddr s 0x90000000a0000000 u) ∧
        NoneShared s' 0x90000000a0000000)
      (fun stop => stop = .noMemory ∧ ¬TwoLeft s.pool) := by
  have placed : smallPool.Placed := ⟨by decide, by decide, by decide⟩
  have held : smallPool.Held 0x90000000a0000000 := ⟨0, by decide, by decide, by decide⟩
  have fresh : FreshPages smallPool (· = 0x90000000a0000000) :=
    .of_placed placed fun _ h => h ▸ held
  have hfirst : (Run.exec (mapStep 0x90000000a0000000) smallPhys
      [.pageTableAdd 0x12344000 0x90000000a0006000 0xf]).map
        (fun s => s.translate 0x90000000a0000000 0x12345678) = some none := by
    decide +kernel
  obtain ⟨s, built, unmapped⟩ := Option.map_eq_some_iff.mp hfirst
  exact ⟨s, built,
    pageTableAdd_maps smallPhys s 0x90000000a0000000 ⟨by decide, by decide, by decide⟩
    rfl fresh _ built 0x12345678 0x90000000a0007000 0xf (by decide) unmapped
    ⟨by decide, by decide, by decide⟩ (by decide)⟩

end KernelTravel.Userprog
