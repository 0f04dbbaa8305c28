import Otsos.Phys.FreeList

/-! The loops that rewrite the flags of a run of pages outside every free block. -/
namespace Otsos.VmPhys

open Function (update)

/-- No free block is waiting to be listed, and the page counter agrees with the lists. -/
structure Quiet (s : VmPhys) : Prop where
  inv : Inv s fun _ => False
  count : s.freePages = s.blockPages

def allocFlags (f : PageFlags) : PageFlags :=
  { f with free := false, zero := false, allocated := true }

def freeFlags (f : PageFlags) : PageFlags := { f with allocated := false, free := true }

/-- `f` applied to the entries `a, …, a + n - 1` of a map. -/
def onRun {β : Type} (a n : Nat) (f : β → β) (m : Nat → β) : Nat → β :=
  fun i => if a ≤ i ∧ i < a + n then f (m i) else m i

section Run
variable {f : β → β}

theorem onRun_zero : onRun a 0 f m = m := by
  funext i
  rw [onRun, if_neg (by omega)]

theorem onRun_succ :
    update (onRun a n f m) (a + n) (f (onRun a n f m (a + n))) = onRun a (n + 1) f m := by
  funext i
  simp only [onRun, Function.update_apply]
  by_cases last : i = a + n
  · subst last
    simp
  · by_cases inside : a ≤ i ∧ i < a + n
    · rw [if_neg last, if_pos inside, if_pos (by omega)]
    · rw [if_neg last, if_neg inside, if_neg (by omega)]

theorem onRun_in (low : a ≤ i) (high : i < a + n) : onRun a n f m i = f (m i) :=
  if_pos ⟨low, high⟩

theorem onRun_out (out : ¬ (a ≤ i ∧ i < a + n)) : onRun a n f m i = m i := if_neg out

end Run

section Touch
section
variable (inv : Inv s pending)
include inv

theorem Inv.off_of_pending (pend : pending p) : ∀ q k, IsHead s q k → ¬ InBlock q k p :=
  fun q k head member => (inv.block q k p head member).2.1 pend

theorem Inv.off_of_not_free (used : (s.flags p).free = false) :
    ∀ q k, IsHead s q k → ¬ InBlock q k p := by
  intro q k head member
  have := (inv.block q k p head member).1.free
  rw [used] at this
  contradiction

theorem Inv.order_of_off (bound : p < s.managed)
    (off : ∀ q k, IsHead s q k → ¬ InBlock q k p) : s.order p = freeOrderNone := by
  by_contra other
  have small : s.order p < nFreeOrder := by
    have := inv.order_le p bound
    rw [freeOrderNone] at *
    omega
  have head : IsHead s p (s.order p) := ⟨bound, rfl, small⟩
  exact off p _ head head.inBlock

theorem Inv.touch (touched : Nat → Prop) (off : ∀ i, touched i → ∀ q k, IsHead s q k →
    ¬ InBlock q k i) (geom : SameGeom s t) (order : t.order = s.order) (lists :
    t.freelists = s.freelists) (blocks : t.orderBlocks = s.orderBlocks) (next :
    ∀ i, ¬ touched i → t.plinksNext i = s.plinksNext i)
    (prev : ∀ i, ¬ touched i → t.plinksPrev i = s.plinksPrev i)
    (flags : ∀ i, ¬ touched i → t.flags i = s.flags i)
      (others : ∀ i, ¬ touched i → (pending' i ↔ pending i)) (here : ∀ i, touched i → pending' i →
      i < s.managed ∧ Available t i ∧ s.order i = freeOrderNone)
    (free : ∀ i, touched i → (t.flags i).free = true → pending' i) : Inv t pending' := by
  have heads : ∀ {q k}, IsHead t q k ↔ IsHead s q k := by
    intro q k
    constructor
    · rintro ⟨bound, order', small⟩
      exact ⟨geom.managed ▸ bound, by rwa [order] at order', small⟩
    · rintro ⟨bound, order', small⟩
      exact ⟨geom.managed ▸ bound, by rwa [order], small⟩
  have away : ∀ {q k i}, IsHead s q k → InBlock q k i → ¬ touched i :=
    fun head member this => off _ this _ _ head member
  constructor
  · exact geom.layout inv.layout
  · intro k small
    obtain ⟨l, linked, members, count⟩ := inv.lists k small
    refine ⟨l, ?_, fun q => (members q).trans heads.symm, by rw [blocks, count]⟩
    rw [lists]
    have apart : ∀ x ∈ l, ¬ touched x := fun x member =>
      away ((members x).mp member) ((members x).mp member).inBlock
    exact linked.frame (fun x member => next x (apart x member))
      fun x member => prev x (apart x member)
  · intro i bound
    rw [order]
    exact inv.order_le i (geom.managed ▸ bound)
  · intro q k head
    rw [geom.pfn]
    exact inv.aligned q k (heads.mp head)
  · intro q k seg head segAt
    exact inv.inside q k seg (heads.mp head) (geom.segAt.mp segAt)
  · intro q k i head member
    have head := heads.mp head
    obtain ⟨available, outside, _⟩ := inv.block q k i head member
    have apart := away head member
    refine ⟨(available_congr (flags i apart)).mpr available, ?_, ?_⟩
    · rwa [others i apart]
    · rwa [order]
  · intro i bound isFree outside
    by_cases this : touched i
    · exact absurd (free i this isFree) outside
    · rw [flags i this] at isFree
      rw [others i this] at outside
      obtain ⟨q, k, head, member⟩ := inv.covered i (geom.managed ▸ bound) isFree outside
      exact ⟨q, k, heads.mpr head, member⟩
  · intro i inPending
    rw [geom.managed, order]
    by_cases this : touched i
    · exact here i this inPending
    · obtain ⟨bound, available, none⟩ := inv.pend i ((others i this).mp inPending)
      exact ⟨bound, (available_congr (flags i this)).mpr available, none⟩
  · intro a b k seg headA headB segA segB
    rw [geom.pfn, geom.pfn]
    exact inv.merged a b k seg (heads.mp headA) (heads.mp headB) (geom.segAt.mp segA)
      (geom.segAt.mp segB)

theorem Inv.setFreePages (n : Nat) : Inv { s with freePages := n } pending :=
  inv.touch (fun _ => False) (fun _ this => this.elim) ⟨rfl, rfl, rfl, rfl⟩ rfl rfl rfl
    (fun _ _ => rfl) (fun _ _ => rfl) (fun _ _ => rfl) (fun _ _ => Iff.rfl)
    (fun _ this => this.elim) (fun _ this => this.elim)

end

theorem Quiet.retouch (quiet : Quiet s) (geom : SameGeom s t) (order : t.order = s.order)
    (lists : t.freelists = s.freelists) (blocks : t.orderBlocks = s.orderBlocks)
    (pages : t.freePages = s.freePages) (next : t.plinksNext = s.plinksNext)
    (prev : t.plinksPrev = s.plinksPrev)
    (flags : ∀ i, t.flags i = s.flags i ∨ (s.flags i).free = false ∧ (t.flags i).free = false) :
    Quiet t := by
  refine ⟨?_, ?_⟩
  · refine quiet.inv.touch (fun i => t.flags i ≠ s.flags i) ?_ geom order lists blocks
      (fun i _ => by rw [next]) (fun i _ => by rw [prev]) (fun i same => not_not.mp same)
      (fun _ _ => Iff.rfl) (fun _ _ => False.elim) ?_
    · intro i changed
      exact quiet.inv.off_of_not_free ((flags i).resolve_left changed).1
    · intro i changed free
      rw [((flags i).resolve_left changed).2] at free
      contradiction
  · rw [pages, quiet.count, blockPages, blockPages, blocks]

theorem Inv.resetRun (inv : Inv s pending) (inside : page + run ≤ s.managed)
    (off : ∀ i, page ≤ i ∧ i < page + run → ∀ q k, IsHead s q k → ¬ InBlock q k i) :
    onRun page run (fun _ => freeOrderNone) s.order = s.order := by
  funext i
  simp only [onRun]
  split
  · exact (inv.order_of_off (by omega) (off i ‹_›)).symm
  · rfl

end Touch

section Loops
variable {s : VmPhys} {run : Nat}

theorem access_return {α : Type} (bound : i < s.pageTotal) (v : α) :
    (do s.access i; return v : Option α) = some v := by
  simp only [access_eq bound, Option.bind_eq_bind, Option.bind_some, Option.pure_def]

theorem markAlloc_eq (inside : page + run ≤ s.pageTotal) : s.markAlloc page run = some { s with
    flags := onRun page run allocFlags s.flags
    order := onRun page run (fun _ => freeOrderNone) s.order
    plinksNext := onRun page run (fun _ => none) s.plinksNext
    plinksPrev := onRun page run (fun _ => none) s.plinksPrev } := by
  refine Loop.forUp_eq (fun n => { s with
    flags := onRun page n allocFlags s.flags
    order := onRun page n (fun _ => freeOrderNone) s.order
    plinksNext := onRun page n (fun _ => none) s.plinksNext
    plinksPrev := onRun page n (fun _ => none) s.plinksPrev }) ?_ fun n below => ?_
  · simp only [onRun_zero]
  refine (access_return (show page + n < s.pageTotal by omega) _).trans ?_
  simp only [← onRun_succ]
  rfl

theorem markAlloc_spec (inv : Inv s pending) (page run : Nat)
    (region : ∀ i, page ≤ i ∧ i < page + run → pending i) (inside : page + run ≤ s.managed) :
    ∃ t, s.markAlloc page run = some t ∧ Inv t (fun i => pending i ∧ ¬ (page ≤ i ∧ i < page + run)) ∧ SameRest s t ∧
      t.flags = onRun page run allocFlags s.flags ∧ t.object = s.object ∧ t.pindex = s.pindex ∧
      t.freePages = s.freePages ∧ t.blockPages = s.blockPages := by
  have off : ∀ i, page ≤ i ∧ i < page + run → ∀ q k, IsHead s q k → ¬ InBlock q k i :=
    fun i this => inv.off_of_pending (region i this)
  refine ⟨_, markAlloc_eq (le_trans inside inv.layout.managed_le), ?_,
    ⟨⟨rfl, rfl, rfl, rfl⟩, rfl, rfl, rfl, rfl, rfl⟩, rfl, rfl, rfl, rfl, rfl⟩
  refine inv.touch (fun i => page ≤ i ∧ i < page + run) off ⟨rfl, rfl, rfl, rfl⟩
    (inv.resetRun inside off) rfl rfl (fun _ out => if_neg out) (fun _ out => if_neg out)
    (fun _ out => if_neg out) ?_ ?_ ?_
  · intro i out
    exact ⟨And.left, fun inPending => ⟨inPending, out⟩⟩
  · intro i this inPending
    exact absurd this inPending.2
  · intro i this isFree
    simp [onRun, this, allocFlags] at isFree

theorem pageRun_eq (layout : Layout s) (segAt : SegAt s seg page)
    (inside : page + run ≤ seg.firstPage + seg.pageTotal) (below : n < run) :
    pageAt seg (s.pfn page + n) = page + n ∧ page + n < s.pageTotal := by
  have next := (segAt.add layout (d := n) (by omega)).1
  exact ⟨segAt.pageAt_add layout (by omega), next.lt_total layout⟩

theorem markFree_eq (layout : Layout s) (segAt : SegAt s seg page)
    (inside : page + run ≤ seg.firstPage + seg.pageTotal) :
    s.markFree seg (s.pfn page) run = some { s with
      flags := onRun page run freeFlags s.flags
      order := onRun page run (fun _ => freeOrderNone) s.order
      object := onRun page run (fun _ => none) s.object
      pindex := onRun page run (fun _ => 0) s.pindex } := by
  refine Loop.forUp_eq (fun n => { s with
    flags := onRun page n freeFlags s.flags
    order := onRun page n (fun _ => freeOrderNone) s.order
    object := onRun page n (fun _ => none) s.object
    pindex := onRun page n (fun _ => 0) s.pindex }) ?_ fun n below => ?_
  · simp only [onRun_zero]
  obtain ⟨index, bound⟩ := pageRun_eq layout segAt inside below
  rw [index]
  refine (access_return bound _).trans ?_
  simp only [← onRun_succ]
  rfl

theorem markFree_spec (inv : Inv s fun _ => False) (segAt : SegAt s seg page)
    (inside : page + run ≤ seg.firstPage + seg.pageTotal) (region : ∀ i, page ≤ i ∧ i < page + run →
      (s.flags i).free = false ∧ (s.flags i).excluded = false) :
    ∃ t, s.markFree seg (s.pfn page) run = some t ∧ Inv t (fun i => page ≤ i ∧ i < page + run) ∧
      SameRest s t ∧ t.flags = onRun page run freeFlags s.flags ∧
      t.object = onRun page run (fun _ => none) s.object ∧
      t.pindex = onRun page run (fun _ => 0) s.pindex ∧
      t.freePages = s.freePages ∧ t.blockPages = s.blockPages := by
  have off : ∀ i, page ≤ i ∧ i < page + run → ∀ q k, IsHead s q k → ¬ InBlock q k i :=
    fun i this => inv.off_of_not_free (region i this).1
  have bound : page + run ≤ s.managed :=
    le_trans inside (inv.layout.first_le_managed segAt.named)
  refine ⟨_, markFree_eq inv.layout segAt inside, ?_,
    ⟨⟨rfl, rfl, rfl, rfl⟩, rfl, rfl, rfl, rfl, rfl⟩, rfl, rfl, rfl, rfl, rfl⟩
  refine inv.touch (fun i => page ≤ i ∧ i < page + run) off ⟨rfl, rfl, rfl, rfl⟩
    (inv.resetRun bound off) rfl rfl (fun _ _ => rfl) (fun _ _ => rfl)
    (fun _ out => if_neg out) ?_ ?_ ?_
  · intro i out
    exact ⟨fun this => out this, False.elim⟩
  · intro i this _
    refine ⟨by omega, ⟨?_, ?_, ?_⟩, inv.order_of_off (by omega) (off i this)⟩
    · simp [onRun, this, freeFlags]
    · simp [onRun, this, freeFlags]
    · simp [onRun, this, freeFlags, (region i this).2]
  · intro i this _
    exact this

theorem clearExcluded_spec (inv : Inv s pending) (segAt : SegAt s seg page)
    (inside : page + run ≤ seg.firstPage + seg.pageTotal)
    (region : ∀ i, page ≤ i ∧ i < page + run → (s.flags i).free = false) :
    ∃ t, s.clearExcluded seg (s.pfn page) run = some t ∧ Inv t pending ∧ SameRest s t ∧
      t.flags = onRun page run (fun f => { f with excluded := false }) s.flags ∧
      t.object = s.object ∧ t.pindex = s.pindex ∧
      t.freePages = s.freePages ∧ t.blockPages = s.blockPages := by
  have runs : s.clearExcluded seg (s.pfn page) run =
      some { s with flags := onRun page run (fun f => { f with excluded := false }) s.flags } := by
    refine Loop.forUp_eq (fun n => { s with flags := onRun page n (fun f => { f with excluded := false }) s.flags })
      ?_ fun n below => ?_
    · simp only [onRun_zero]
    obtain ⟨index, bound⟩ := pageRun_eq inv.layout segAt inside below
    rw [index]
    refine (access_return bound _).trans ?_
    simp only [clearPage, ← onRun_succ]
  refine ⟨_, runs, ?_, ⟨⟨rfl, rfl, rfl, rfl⟩, rfl, rfl, rfl, rfl, rfl⟩, rfl, rfl, rfl, rfl, rfl⟩
  refine inv.touch (fun i => page ≤ i ∧ i < page + run)
    (fun i this => inv.off_of_not_free (region i this)) ⟨rfl, rfl, rfl, rfl⟩ rfl rfl rfl
    (fun _ _ => rfl) (fun _ _ => rfl) (fun _ out => if_neg out) (fun _ _ => Iff.rfl) ?_ ?_
  · intro i this inPending
    have := (inv.pend i inPending).2.1.free
    rw [region i ‹_›] at this
    contradiction
  · intro i this isFree
    simp [onRun, this, region i this] at isFree

end Loops

end Otsos.VmPhys
