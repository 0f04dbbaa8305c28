import Otsos.Phys.Setup

/-! What the invariant says about the allocator as a whole: which pages are free, how many there
are, and when an allocation can succeed. -/
namespace Otsos.VmPhys
open Finset

open Finset (range Ico)

/-- The free lists, the blocks on them, the page flags and the counters describe one set of free
pages. -/
structure Represents (s : VmPhys) : Prop where
  lists : ∀ k < nFreeOrder, ∃ l, Intrusive.Linked s.plinksNext s.plinksPrev (s.freelists k) l ∧
    (∀ p, p ∈ l ↔ IsHead s p k) ∧ s.orderBlocks k = l.length
  aligned : ∀ p k, IsHead s p k → 2 ^ k ∣ s.pfn p
  inside : ∀ p k, IsHead s p k → ∃ seg ∈ s.segs, seg.firstPage ≤ p ∧
    p + 2 ^ k ≤ seg.firstPage + seg.pageTotal
  disjoint : ∀ p k q j, IsHead s p k → IsHead s q j → p ≠ q → ∀ i, ¬ (InBlock p k i ∧ InBlock q j i)
  free_iff : ∀ i < s.managed, (s.flags i).free = true ↔ ∃! b :
    Nat × Nat, IsHead s b.1 b.2 ∧ InBlock b.1 b.2 i
  unmarked : ∀ i < s.managed, (s.flags i).free = true → (s.flags i).allocated = false ∧
    (s.flags i).excluded = false
  counted : s.freePages = ∑ k ∈ range nFreeOrder, 2 ^ k * s.orderBlocks k
  free_count : s.freePages = ((range s.managed).filter fun i => (s.flags i).free = true).card

/-- The heads of the blocks of order `k`. -/
def heads (s : VmPhys) (k : Nat) : Finset Nat := (range s.managed).filter fun p => s.order p = k

theorem mem_heads (small : k < nFreeOrder) : p ∈ s.heads k ↔ IsHead s p k := by
  simp only [heads, mem_filter, mem_range]
  exact ⟨fun ⟨bound, order⟩ => ⟨bound, order, small⟩, fun head => ⟨head.managed, head.order⟩⟩

theorem Inv.card_heads (inv : Inv s pending) (small : k < nFreeOrder) :
    (s.heads k).card = s.orderBlocks k := by
  obtain ⟨l, linked, members, count⟩ := inv.lists k small
  rw [count, ← List.toFinset_card_of_nodup linked.nodup]
  congr 1
  ext p
  rw [mem_heads small, List.mem_toFinset, members]

theorem Quiet.free_eq (quiet : Quiet s) : ((range s.managed).filter fun i => (s.flags i).free = true) =
      (range nFreeOrder).biUnion fun k => (s.heads k).biUnion fun p => Ico p (p + 2 ^ k) := by
  ext i
  simp only [mem_filter, mem_range, mem_biUnion, mem_Ico]
  constructor
  · rintro ⟨bound, free⟩
    obtain ⟨p, k, head, member⟩ := quiet.inv.covered i bound free id
    exact ⟨k, head.small, p, (mem_heads head.small).mpr head, member⟩
  · rintro ⟨k, small, p, member, inBlock⟩
    have head := (mem_heads small).mp member
    obtain ⟨_, at_⟩ := quiet.inv.layout.exists_seg head.managed
    exact ⟨(quiet.inv.block_seg head at_ inBlock).1.lt_managed quiet.inv.layout,
      (quiet.inv.block p k i head inBlock).1.free⟩

theorem Quiet.free_card (quiet : Quiet s) :
    ((range s.managed).filter fun i => (s.flags i).free = true).card = s.blockPages := by
  have apart : ∀ {p k q j i}, p ∈ s.heads k → k < nFreeOrder → q ∈ s.heads j → j < nFreeOrder →
      i ∈ Ico p (p + 2 ^ k) → i ∈ Ico q (q + 2 ^ j) → p = q ∧ k = j := by
    intro p k q j i memP smallK memQ smallJ inP inQ
    exact quiet.inv.head_unique ((mem_heads smallK).mp memP) ((mem_heads smallJ).mp memQ)
      (mem_Ico.mp inP) (mem_Ico.mp inQ)
  rw [quiet.free_eq, card_biUnion]
  · apply sum_congr rfl
    intro k member
    have small := mem_range.mp member
    rw [card_biUnion, sum_const_nat (m := 2 ^ k), quiet.inv.card_heads small, Nat.mul_comm]
    · intro p _
      rw [Nat.card_Ico, Nat.add_sub_cancel_left]
    · intro p memP q memQ different
      refine disjoint_left.mpr ?_
      intro i inP inQ
      exact different (apart memP small memQ small inP inQ).1
  · intro k memK j memJ different
    refine disjoint_left.mpr ?_
    intro i inK inJ
    obtain ⟨p, memP, inP⟩ := mem_biUnion.mp inK
    obtain ⟨q, memQ, inQ⟩ := mem_biUnion.mp inJ
    exact different (apart memP (mem_range.mp memK) memQ (mem_range.mp memJ) inP inQ).2

theorem Quiet.represents (quiet : Quiet s) : Represents s := by
  have inv := quiet.inv
  constructor
  · exact inv.lists
  · exact inv.aligned
  · intro p k head
    obtain ⟨seg, at_⟩ := inv.layout.exists_seg head.managed
    exact ⟨seg, at_.mem, at_.low, inv.inside p k seg head at_⟩
  · rintro p k q j headP headQ different i ⟨inP, inQ⟩
    exact different (inv.head_unique headP headQ inP inQ).1
  · intro i bound
    constructor
    · intro free
      obtain ⟨p, k, head, member⟩ := inv.covered i bound free id
      refine ⟨(p, k), ⟨head, member⟩, ?_⟩
      rintro ⟨q, j⟩ ⟨headQ, inQ⟩
      obtain ⟨rfl, rfl⟩ := inv.head_unique headQ head inQ member
      rfl
    · rintro ⟨⟨p, k⟩, ⟨head, member⟩, _⟩
      exact (inv.block p k i head member).1.free
  · intro i bound free
    have available := quiet.available bound free
    exact ⟨available.allocated, available.excluded⟩
  · exact quiet.count
  · rw [quiet.count, quiet.free_card]

/-- A naturally aligned run of `2 ^ k` free pages inside one segment, from `page` on. -/
structure FreeRun (s : VmPhys) (seg : VmPhysSeg) (page k : Nat) : Prop where
  low : seg.firstPage ≤ page
  high : page + 2 ^ k ≤ seg.firstPage + seg.pageTotal
  aligned : 2 ^ k ∣ s.pfn page
  free : ∀ i, InBlock page k i → (s.flags i).free = true

theorem Inv.freeRun_of_head (inv : Inv s pending) (head : IsHead s p j)
    (le : k ≤ j) : ∃ seg ∈ s.segs, FreeRun s seg p k := by
  obtain ⟨seg, at_⟩ := inv.layout.exists_seg head.managed
  have inside := inv.inside p j seg head at_
  have shorter : 2 ^ k ≤ 2 ^ j := Nat.pow_le_pow_right (by decide) le
  refine ⟨seg, at_.mem, at_.low, by omega, (Nat.pow_dvd_pow 2 le).trans (inv.aligned p j head), ?_⟩
  intro i member
  exact (inv.block p j i head ⟨member.1, by have := member.2; omega⟩).1.free

theorem Inv.head_in_run (inv : Inv s pending)
    (at_ : SegAt s seg page) (run : FreeRun s seg page k) (head : IsHead s p j) (small : j ≤ k)
    (inRun : InBlock page k i) (inBlock : InBlock p j i) :
    SegAt s seg p ∧ page ≤ p ∧ p + 2 ^ j ≤ page + 2 ^ k ∧ s.pfn p = s.pfn page + (p - page) := by
  obtain ⟨_, atP⟩ := inv.layout.exists_seg head.managed
  obtain ⟨atI', _⟩ := inv.block_seg head atP inBlock
  have low := inRun.1
  have high := inRun.2
  have lowP := inBlock.1
  have highP := inBlock.2
  have inside := run.high
  obtain ⟨atI, frameI⟩ := at_.add (d := i - page) inv.layout (by omega)
  rw [Nat.add_sub_cancel' low] at atI frameI
  obtain rfl := atI.unique atI'
  have nest :=
    Dyadic.nested_of_overlap small run.aligned (inv.aligned p j head) (by omega) (by omega)
  exact ⟨atP, by omega, by omega, by omega⟩

theorem Quiet.head_of_freeRun (quiet : Quiet s) (small : k < nFreeOrder)
    (member : seg ∈ s.segs) (run : FreeRun s seg page k) : ∃ p j, k ≤ j ∧ IsHead s p j := by
  by_contra none
  have inv := quiet.inv
  have pos := Nat.two_pow_pos k
  have high := run.high
  have below : ∀ p j, IsHead s p j → j < k := fun p j head =>
    not_le.mp fun le => none ⟨p, j, le, head⟩
  obtain ⟨n, named⟩ := List.getElem?_of_mem member
  have at_ : SegAt s seg page := .of_named inv.layout named run.low (by omega)
  have managed : ∀ i, InBlock page k i → i < s.managed := fun i member =>
    lt_of_lt_of_le (show i < seg.firstPage + seg.pageTotal by have := member.2; omega)
      (inv.layout.first_le_managed named)
  have covered : ∀ i, InBlock page k i → ∃ p j, IsHead s p j ∧ InBlock p j i := fun i member =>
    inv.covered i (managed i member) (run.free i member) id
  -- a block of least order inside the run
  have exists_ : ∃ j p, IsHead s p j ∧ InBlock page k p := by
    obtain ⟨p, j, head, inBlock⟩ := covered page ⟨le_rfl, by omega⟩
    obtain ⟨_, low, high, _⟩ := inv.head_in_run at_ run head (Nat.le_of_lt (below p j head))
      ⟨le_rfl, by omega⟩ inBlock
    exact ⟨j, p, head, low, by have := Nat.two_pow_pos j; omega⟩
  classical
  obtain ⟨p, head, inRun⟩ := Nat.find_spec exists_
  have least : ∀ q i, IsHead s q i → InBlock page k q → Nat.find exists_ ≤ i :=
    fun q i headQ inQ => Nat.find_min' exists_ ⟨q, headQ, inQ⟩
  generalize Nat.find exists_ = j at *
  have less := below p j head
  obtain ⟨atP, _, _, _⟩ := inv.head_in_run at_ run head (Nat.le_of_lt less) inRun
    head.inBlock
  -- its buddy is inside the run too
  have alignedP := inv.aligned p j head
  obtain ⟨c, alignedC, _⟩ : ∃ c, 2 ^ (j + 1) ∣ c ∧
      (s.pfn p = c ∧ s.pfn p ^^^ 2 ^ j = c + 2 ^ j ∨ s.pfn p = c + 2 ^ j ∧ s.pfn p ^^^ 2 ^ j = c) := by
    rcases Dyadic.buddy_cases alignedP with ⟨aligned, eq⟩ | ⟨c, eq, aligned, eq'⟩
    · exact ⟨s.pfn p, aligned, .inl ⟨rfl, eq⟩⟩
    · exact ⟨c, aligned, .inr ⟨eq, eq'⟩⟩
  have nest := Dyadic.nested_of_overlap (show j + 1 ≤ k by omega) run.aligned alignedC
  obtain ⟨q, inQ, frameQ⟩ : ∃ q, InBlock page k q ∧ s.pfn q = s.pfn p ^^^ 2 ^ j := by
    refine ⟨page + ((s.pfn p ^^^ 2 ^ j) - s.pfn page), ⟨by omega, by omega⟩, ?_⟩
    rw [(at_.add (d := (s.pfn p ^^^ 2 ^ j) - s.pfn page) inv.layout (by omega)).2]
    omega
  obtain ⟨h, m, headH, inH⟩ := covered q inQ
  obtain ⟨atH, lowH, _⟩ := inv.head_in_run at_ run headH
    (Nat.le_of_lt (below h m headH)) inQ inH
  have order := least h m headH ⟨lowH, by have := Nat.two_pow_pos m; omega⟩
  have alignedH := inv.aligned h m headH
  obtain ⟨_, _⟩ := inv.block_seg headH atH inH
  have highQ := inH.2
  rcases Nat.lt_or_ge j m with _ | _
  · -- a _ block around the buddy would contain the block itself
    have wide := Dyadic.nested_of_overlap (show j + 1 ≤ m by omega) alignedH alignedC
    have both : InBlock h m p := ⟨by omega, by omega⟩
    have := (inv.head_unique headH head both head.inBlock).2
    omega
  · obtain rfl : m = j := by omega
    have start : s.pfn h = s.pfn q := by
      rw [frameQ]
      exact Dyadic.eq_of_overlap alignedH (Dyadic.buddy_aligned alignedP) (by omega) (by omega)
    exact inv.merged p h m seg head headH atP atH (by omega) (start.trans frameQ)

section Lookup
theorem paddrToPage_spec (layout : Layout s) (found : s.paddrToPage pa = some p) :
    p < s.managed ∧ s.physAddr p = pageFloor pa := by
  have aligned := pageFloor_aligned pa
  rw [paddrToPage] at found
  generalize pageFloor pa = addr at *
  have search : ∀ segs, (∀ seg ∈ segs, seg ∈ s.segs) → paddrToPageIn addr segs = some p →
      p < s.managed ∧ s.physAddr p = addr := by
    intro segs
    induction segs with
    | nil => intro _ absent; simp [paddrToPageIn] at absent
    | cons seg segs ih =>
      intro known found
      simp only [paddrToPageIn] at found
      split at found
      · contradiction
      split at found
      · rename_i low high
        obtain ⟨j, named⟩ := List.getElem?_of_mem (known seg (by simp))
        have wf := layout.wf seg (List.mem_of_getElem? named)
        obtain ⟨a, rfl⟩ := aligned
        obtain ⟨b, begins⟩ := wf.start_aligned
        have ends := wf.stop_eq
        have frame : pageSize * a / pageSize = a := Nat.mul_div_cancel_left a (by decide)
        have base : seg.start / pageSize = b := by
          rw [begins]
          exact Nat.mul_div_cancel_left b (by decide)
        have span : b ≤ a ∧ a < b + seg.pageTotal := by
          rw [begins] at low ends
          simp only [pageSize] at low high ends
          omega
        simp only [Option.some.injEq] at found
        rw [pageAt_eq wf (by omega) (by omega)] at found
        have at_ : SegAt s seg p := .of_named layout named (by omega) (by omega)
        refine ⟨at_.lt_managed layout, ?_⟩
        rw [at_.physAddr_eq layout, begins]
        simp only [pageSize]
        omega
      · exact ih (fun g member => known g (by simp [member])) found
  exact search s.segs (fun _ => id) found

end Lookup

end Otsos.VmPhys
