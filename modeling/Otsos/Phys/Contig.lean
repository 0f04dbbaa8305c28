import Otsos.Phys.Exclude

/-! Allocation of contiguous runs, and the release of single pages and of runs page by page. -/
namespace Otsos.VmPhys
open List Option

/-- `t` is `s` after the run of `n` pages at `page` has been handed out. Free pages beside the run
may have been taken and given back, which loses their zeroed mark. -/
structure Granted (s t : VmPhys) (page n : Nat) : Prop where
  quiet : Quiet t
  rest : SameRest s t
  managed : page + n ≤ s.managed
  free : ∀ i, page ≤ i ∧ i < page + n → (s.flags i).free = true
  taken : ∀ i, page ≤ i ∧ i < page + n → t.flags i = allocFlags (s.flags i)
  others : ∀ i, ¬ (page ≤ i ∧ i < page + n) → t.flags i = s.flags i ∨
    (s.flags i).free = true ∧ t.flags i = { s.flags i with zero := false }
  objects : ∀ i, t.object i = s.object i ∧ t.pindex i = s.pindex i ∨
    (s.flags i).free = true ∧ t.object i = none ∧ t.pindex i = 0

section Granting
variable {s : VmPhys} {n : Nat}

theorem Took.granted (took : Took s t page n) : Granted s t page n :=
  ⟨took.quiet, took.rest, took.managed, took.free,
    fun i member => by rw [took.flags, onRun_in member.1 member.2],
    fun i out => .inl (by rw [took.flags, onRun_out out]),
    fun i => .inl ⟨by rw [took.object], by rw [took.pindex]⟩⟩

theorem freePage_spec (quiet : Quiet s) (bound : i < s.managed) (used : (s.flags i).free = false)
    (kept : (s.flags i).excluded = false) :
    ∃ t, s.freeBlock i 0 = some t ∧ Released s t i 1 := by
  obtain ⟨_, at_⟩ := quiet.inv.layout.exists_seg bound
  refine freeBlock_spec quiet at_ (by decide) (by simp) at_.high fun j _ => ?_
  obtain rfl : j = i := by
    omega
  exact ⟨used, kept⟩

theorem Quiet.available (quiet : Quiet s) (bound : i < s.managed) (free : (s.flags i).free = true) :
    Available s i := by
  obtain ⟨p, k, head, member⟩ := quiet.inv.covered i bound free id
  exact (quiet.inv.block p k i head member).1

theorem Available.freeFlags_allocFlags (available : Available s i) :
    freeFlags (allocFlags (s.flags i)) = { s.flags i with zero := false } := by
  simp only [freeFlags, allocFlags, available.allocated, available.free]

theorem giveBack_spec (quiet : Quiet s) (count : Nat) (granted : Granted s t page (n + count)) :
    ∃ u, Loop.forUp (fun i s => s.freeBlock (page + i) 0) n count t = some u ∧
    Granted s u page n := by
  obtain ⟨u, runs, last⟩ := Loop.forUp_spec (fun i s => s.freeBlock (page + i) 0) n count t
    (fun j u => Quiet u ∧ SameRest s u ∧
      (∀ i, page + n ≤ i ∧ i < page + j →
        u.flags i = { s.flags i with zero := false } ∧ u.object i = none ∧ u.pindex i = 0) ∧
      ∀ i, ¬ (page + n ≤ i ∧ i < page + j) → u.flags i = t.flags i ∧ u.object i = t.object i ∧ u.pindex i = t.pindex i)
    ⟨granted.quiet, granted.rest, fun i => by omega, fun _ _ => ⟨rfl, rfl, rfl⟩⟩
    (by
      rintro j u _ _ ⟨quiet', rest, given, kept⟩
      have managed := granted.managed
      have available := quiet.available (i := page + j) (by omega) (granted.free _ (by omega))
      have flags : u.flags (page + j) = allocFlags (s.flags (page + j)) := by
        rw [(kept (page + j) (by omega)).1, granted.taken _ (by omega)]
      obtain ⟨v, frees, released⟩ := freePage_spec (i := page + j) quiet'
        (by rw [rest.managed]; omega) (by rw [flags]; rfl)
        (by rw [flags]; exact available.excluded)
      refine ⟨v, frees, released.quiet, rest.trans released.rest, ?_, ?_⟩
      · intro i member
        rw [released.flags, released.object, released.pindex]
        by_cases last : i = page + j
        · subst last
          rw [onRun_in le_rfl (by omega), onRun_in le_rfl (by omega), onRun_in le_rfl (by omega), flags]
          exact ⟨available.freeFlags_allocFlags, rfl, rfl⟩
        · rw [onRun_out (by omega), onRun_out (by omega), onRun_out (by omega)]
          exact given i (by omega)
      · intro i out
        rw [released.flags, released.object, released.pindex, onRun_out (by omega),
          onRun_out (by omega), onRun_out (by omega)]
        exact kept i (by omega))
  obtain ⟨quiet', rest, given, kept⟩ := last
  refine ⟨u, runs, quiet', rest, by have := granted.managed; omega,
    fun i member => granted.free i (by omega), ?_, ?_, ?_⟩
  · intro i member
    rw [(kept i (by omega)).1]
    exact granted.taken i (by omega)
  · intro i out
    by_cases tail : page + n ≤ i ∧ i < page + (n + count)
    · exact .inr ⟨granted.free i (by omega), (given i tail).1⟩
    · rw [(kept i tail).1]
      exact granted.others i (by omega)
  · intro i
    by_cases tail : page + n ≤ i ∧ i < page + (n + count)
    · exact .inr ⟨granted.free i (by omega), (given i tail).2⟩
    · rw [(kept i tail).2.1, (kept i tail).2.2]
      exact granted.objects i

theorem Took.trans (first : Took s t page n) (second : Took t u (page + n) m) :
    Took s u page (n + m) := by
  refine ⟨second.quiet, first.rest.trans second.rest, ?_, ?_, ?_, second.object.trans first.object,
    second.pindex.trans first.pindex⟩
  · have := second.managed
    rw [first.rest.managed] at this
    omega
  · intro i member
    by_cases early : i < page + n
    · exact first.free i ⟨member.1, early⟩
    · have := second.free i (by omega)
      rwa [first.flags, onRun_out (by omega)] at this
  · rw [second.flags, first.flags]
    funext i
    simp only [onRun]
    by_cases early : page ≤ i ∧ i < page + n
    · rw [if_neg (by omega), if_pos early, if_pos (by omega)]
    · by_cases late : page + n ≤ i ∧ i < page + n + m
      · rw [if_pos late, if_neg early, if_pos (by omega)]
      · rw [if_neg late, if_neg early, if_neg (by omega)]

theorem stealRun_spec (count : Nat) (quiet : Quiet t) (took : Took s t page n)
    (bound : page + n + count ≤ t.managed) (free : ∀ i, page + n ≤ i ∧ i < page + n + count →
      (t.flags i).free = true) :
    ∃ u, stealRun page n count t = some (true, u) ∧ Took s u page (n + count) := by
  induction count generalizing n t with
  | zero => exact ⟨t, rfl, took⟩
  | succ count ih =>
    obtain ⟨u, steals, one⟩ := stealFree_spec (i := page + n) quiet (by omega)
      (free _ (by omega))
    obtain ⟨v, rest, _⟩ := ih (n := n + 1) one.quiet (took.trans one)
      (by rw [one.rest.managed]; omega) fun i _ => by
        rw [one.flags, onRun_out (by omega)]
        exact free i (by omega)
    refine ⟨v, ?_, by rwa [show n + (count + 1) = n + 1 + count by omega]⟩
    simp only [stealRun, steals, bind_eq_bind, bind_some, if_true, rest]

theorem scanFree_spec {count : Nat} (runs : s.scanFree page i count = some r) :
    r ≤ i + count ∧ ∀ j, i ≤ j ∧ j < r → page + j < s.pageTotal ∧
    (s.flags (page + j)).free = true := by
  induction count generalizing i with
  | zero =>
    simp only [scanFree, Option.some.injEq] at runs
    exact ⟨by omega, fun j => by omega⟩
  | succ count ih =>
    by_cases bound : page + i < s.pageTotal
    · simp only [scanFree, access_eq bound, bind_eq_bind, bind_some] at runs
      split at runs
      · simp only [Option.pure_def, Option.some.injEq] at runs
        exact ⟨by omega, fun j => by omega⟩
      rename_i flags
      obtain ⟨_, all⟩ := ih runs
      refine ⟨by omega, fun j _ => ?_⟩
      by_cases first : j = i
      · subst first
        refine ⟨bound, ?_⟩
        simp only [Bool.or_eq_true, Bool.not_eq_true', not_or, Bool.not_eq_false] at flags
        exact flags.1
      · exact all j (by omega)
    · simp [scanFree, access, bound] at runs

end Granting

section Search
/-- What a search for a contiguous run may answer: the run it found, or nothing and no change. -/
def Answer (s : VmPhys) (n : Nat) (r : Option Nat × VmPhys) : Prop :=
  r = (none, s) ∨ ∃ page t, r = (some page, t) ∧ Granted s t page n

/-- A run of pages that the scan accepts lies inside the segment, wrapped arithmetic included: an
index below the segment would have to be beyond the page array. -/
theorem scan_inside (layout : Layout s) {j : Nat} (named : s.segs[j]? = some seg)
    (positive : 0 < n) (fits : f + n ≤ seg.stop / pageSize)
    (scan : s.scanFree (pageAt seg f) 0 n = some n) :
    pageAt seg f + n ≤ s.managed ∧ ∀ i, pageAt seg f ≤ i ∧ i < pageAt seg f + n →
    (s.flags i).free = true := by
  obtain ⟨_, all⟩ := scanFree_spec scan
  have wf := layout.wf seg (mem_of_getElem? named)
  have frames := wf.frames
  have first := wf.first_le
  have managed := layout.first_le_managed named
  have array := layout.array_fits
  obtain ⟨inArray, _⟩ := all 0 (by omega)
  have index : pageAt seg f + seg.start / pageSize = seg.firstPage + f := by
    simp only [pageAt, u64] at inArray ⊢
    omega
  refine ⟨by omega, fun i member => ?_⟩
  have := (all (i - pageAt seg f) (by omega)).2
  rwa [Nat.add_sub_cancel' member.1] at this

theorem contigSeg_spec (quiet : Quiet s) {j : Nat} (named : s.segs[j]? = some seg)
    (positive : 0 < n) (small : n < 2 ^ 64) (stride : 0 < alignPages ∧ alignPages ≤ 2 ^ 52)
    (near : s.pageTotal < n ∨ f < 2 ^ 60)
    (runs : contigSeg seg n alignPages low high fuel f s = some r) :
    r = none ∨ ∃ answer, r = some answer ∧ Answer s n answer := by
  have layout := quiet.inv.layout
  have array := layout.array_fits
  have frames := (layout.wf seg (mem_of_getElem? named)).frames
  induction fuel generalizing f with
  | zero => simp [contigSeg] at runs
  | succ fuel ih =>
    simp only [contigSeg] at runs
    split at runs
    · rename_i fits
      have bounded : s.pageTotal < n ∨ f + n ≤ seg.stop / pageSize := by
        simp only [u64] at fits
        omega
      split at runs
      · refine ih ?_ runs
        simp only [u64]
        omega
      cases scan : s.scanFree (pageAt seg f) 0 n with
      | none => simp [scan] at runs
      | some i =>
        obtain ⟨_, all⟩ := scanFree_spec scan
        simp only [scan, bind_eq_bind, bind_some] at runs
        split at runs
        · refine ih ?_ runs
          rcases bounded with huge | bounded
          · exact .inl huge
          · refine .inr (lt_of_le_of_lt (Nat.div_mul_le_self _ _) ?_)
            simp only [u64]
            omega
        · rename_i whole
          simp only [not_not] at whole
          subst whole
          have fits : f + i ≤ seg.stop / pageSize := by
            rcases bounded with huge | fits
            · have := (all (i - 1) (by omega)).1
              omega
            · exact fits
          obtain ⟨managed, free⟩ := scan_inside layout named positive fits scan
          have start : Took s s (pageAt seg f) 0 :=
            ⟨quiet, .refl s, by omega, fun i => by omega, by rw [onRun_zero], rfl, rfl⟩
          obtain ⟨t, steals, took⟩ := stealRun_spec i quiet start managed free
          simp only [steals, Option.bind_some, Option.pure_def, Option.some.injEq] at runs
          rw [Nat.zero_add] at took
          exact .inr ⟨_, runs.symm, .inr ⟨_, t, rfl, took.granted⟩⟩
    · simp only [Option.some.injEq] at runs
      exact .inl runs.symm

theorem contigSegs_spec (quiet : Quiet s) (positive : 0 < n) (small : n < 2 ^ 64)
    (alignment_lt : alignment < 2 ^ 64) {segs : List VmPhysSeg} (known : ∀ seg ∈ segs, seg ∈ s.segs)
    (runs : contigSegs n alignment low high segs s = some r) :
    Answer s n r := by
  induction segs with
  | nil =>
    simp only [contigSegs, Option.some.injEq] at runs
    exact .inl runs.symm
  | cons seg segs ih =>
    obtain ⟨j, named⟩ := getElem?_of_mem (known seg (by simp))
    have stride : 0 < (if alignment / pageSize = 0 then 1 else alignment / pageSize) ∧
        (if alignment / pageSize = 0 then 1 else alignment / pageSize) ≤ 2 ^ 52 := by
      by_cases tiny : alignment / pageSize = 0
      · simp only [if_pos tiny]
        omega
      · rw [if_neg tiny]
        simp only [pageSize] at tiny ⊢
        omega
    have near : u64 (seg.start + alignment - 1) / alignment * alignment / pageSize < 2 ^ 60 := by
      have le := Nat.div_mul_le_self (u64 (seg.start + alignment - 1)) alignment
      simp only [u64, pageSize] at le ⊢
      omega
    simp only [contigSegs] at runs
    cases search : contigSeg seg n (if alignment / pageSize = 0 then 1 else alignment / pageSize)
        low high (2 ^ 64) (u64 (seg.start + alignment - 1) / alignment * alignment / pageSize) s with
    | none =>
      rw [search] at runs
      contradiction
    | some answer =>
      simp only [search, bind_eq_bind, bind_some] at runs
      rcases contigSeg_spec quiet named positive small stride (.inr near) search with
        rfl | ⟨found, rfl, holds⟩
      · exact ih (fun g member => known g (mem_cons_of_mem _ member)) runs
      · simp only [Option.pure_def, Option.some.injEq] at runs
        exact runs ▸ holds

theorem searchList_spec (quiet : Quiet s) (alignment low high : Nat) {order fuel : Nat}
    (le : order ≤ k) (size : n ≤ 2 ^ order) (done l : List Nat)
    (linked : Intrusive.Linked s.plinksNext s.plinksPrev (s.freelists k) (done ++ l))
    (heads : ∀ p, p ∈ done ++ l → IsHead s p k) (enough : l.length ≤ fuel) :
    ∃ r, searchList k order n alignment low high fuel l.head? s = some r ∧
      (r = none ∨ ∃ page t, r = some (some page, t) ∧ Granted s t page n) := by
  induction l generalizing done fuel with
  | nil =>
    refine ⟨none, ?_, .inl rfl⟩
    cases fuel <;> rfl
  | cons page l ih =>
    cases fuel with
    | zero => simp at enough
    | succ fuel =>
      have head := heads page (by simp)
      have access := access_eq (quiet.inv.head_total head)
      have next := linked.links_at.2
      have later := ih (done ++ [page]) (by simpa using linked)
        (by simpa using heads) (show l.length ≤ fuel by simpa using enough)
      simp only [head?_cons, searchList, access, bind_eq_bind, next]
      split
      · exact later
      split
      · exact later
      · obtain ⟨t, takes, took⟩ := takeBlock_spec quiet head le
        obtain ⟨u, backs, granted⟩ := giveBack_spec (n := n) quiet (2 ^ order - n)
          (by rw [Nat.add_sub_cancel' size]; exact took.granted)
        refine ⟨_, ?_, .inr ⟨page, u, rfl, granted⟩⟩
        simp only [takes, backs, Option.bind_some, Option.pure_def]

theorem Inv.length_le (inv : Inv s fun _ => False) {l : List Nat} (nodup : l.Nodup)
    (heads : ∀ p ∈ l, IsHead s p k) : l.length ≤ s.pageTotal := by
  have le := (subperm_of_subset nodup fun p member =>
    mem_range.mpr (inv.head_total (heads p member))).length_le
  rwa [length_range] at le

theorem searchOrders_spec (quiet : Quiet s) {order count : Nat} (le : order ≤ k)
    (top : k + count = nFreeOrder) (size : n ≤ 2 ^ order)
    (runs : searchOrders order n alignment low high k count s = some r)
    (fallback : ∀ r, s.allocContigRun n alignment low high = some r → Answer s n r) :
    Answer s n r := by
  induction count generalizing k with
  | zero => exact fallback r runs
  | succ count ih =>
    obtain ⟨l, linked, members, _⟩ := quiet.inv.lists k (by omega)
    obtain ⟨_, walk, answer⟩ := searchList_spec quiet alignment low high
      le size [] l linked (fun p member => (members p).mp member)
      (quiet.inv.length_le linked.nodup fun p member => (members p).mp member)
    rw [← linked.head_eq] at walk
    simp only [searchOrders, walk, bind_eq_bind, bind_some] at runs
    rcases answer with rfl | ⟨page, t, rfl, granted⟩
    · exact ih (by omega) (by omega) runs
    · simp only [Option.pure_def, Option.some.injEq] at runs
      exact .inr ⟨page, t, runs.symm, granted⟩

theorem contigOrder_spec {order : Nat} (found : contigOrder n left order = some k) :
    n ≤ 2 ^ k ∧ k < order + left := by
  induction left generalizing order with
  | zero => simp [contigOrder] at found
  | succ left ih =>
    simp only [contigOrder] at found
    split at found
    · have := ih found
      omega
    · simp only [Option.some.injEq] at found
      subst found
      omega

theorem allocContig_spec (quiet : Quiet s) (small : n < 2 ^ 64) (alignment_lt : alignment < 2 ^ 64)
    (runs : s.allocContig n alignment low high = some r) :
    Answer s n r := by
  simp only [allocContig] at runs
  split at runs
  · simp only [Option.some.injEq] at runs
    exact .inl runs.symm
  have positive : 0 < n := by omega
  have fallback : ∀ r, s.allocContigRun n alignment low high = some r → Answer s n r :=
    fun r runs => contigSegs_spec quiet positive small alignment_lt (fun _ => id) runs
  split at runs
  · exact fallback r runs
  · rename_i order found
    obtain ⟨size, _⟩ := contigOrder_spec found
    exact searchOrders_spec quiet le_rfl (by omega) size runs fallback

end Search

section Releasing
theorem free_spec (quiet : Quiet s) (bound : i < s.managed) :
    (s.free (some i) = some s ∧ ((s.flags i).excluded = true ∨ (s.flags i).free = true)) ∨
    ∃ t, s.free (some i) = some t ∧ Released s t i 1 := by
  have access := access_eq (lt_of_lt_of_le bound quiet.inv.layout.managed_le)
  by_cases excluded : (s.flags i).excluded = true
  · exact .inl ⟨by simp [free, access, excluded], .inl excluded⟩
  by_cases free : (s.flags i).free = true
  · exact .inl ⟨by simp [VmPhys.free, access, free], .inr free⟩
  · rw [Bool.not_eq_true] at excluded free
    obtain ⟨t, runs, released⟩ := freePage_spec quiet bound free excluded
    exact .inr ⟨t, by simp [VmPhys.free, access, excluded, free, runs], released⟩

/-- `t` is `s` after those pages of the run that are in use have been released. -/
structure ReleasedRun (s t : VmPhys) (page n : Nat) : Prop where
  quiet : Quiet t
  rest : SameRest s t
  inside : ∀ i, page ≤ i ∧ i < page + n → (s.flags i).free = false →
    (s.flags i).excluded = false → t.flags i = freeFlags (s.flags i) ∧ t.object i = none ∧
    t.pindex i = 0
  outside : ∀ i, ¬ (page ≤ i ∧ i < page + n) ∨ (s.flags i).free = true ∨
    (s.flags i).excluded = true → t.flags i = s.flags i ∧ t.object i = s.object i ∧
    t.pindex i = s.pindex i

theorem freeContig_spec (quiet : Quiet s) (bound : page + n ≤ s.managed) :
    ∃ t, s.freeContig (some page) n = some t ∧ ReleasedRun s t page n := by
  have total := quiet.inv.layout.managed_le
  obtain ⟨t, runs, last⟩ := Loop.forUp_spec (fun i s => do
      s.access (page + i)
      if (s.flags (page + i)).free || (s.flags (page + i)).excluded then
        return s
      s.freeBlock (page + i) 0) 0 n s (fun j t => ReleasedRun s t page j)
    ⟨quiet, .refl s, fun i => by omega, fun _ _ => ⟨rfl, rfl, rfl⟩⟩
    (by
      intro j t _ _ sofar
      have access : t.access (page + j) = some () :=
        access_eq (by rw [sofar.rest.total]; omega)
      have same := (sofar.outside (page + j) (.inl (by omega))).1
      by_cases skip : ((s.flags (page + j)).free || (s.flags (page + j)).excluded) = true
      · refine ⟨t, by simp only [access, same, skip, if_true, Option.bind_eq_bind, Option.bind_some,
          Option.pure_def], sofar.quiet, sofar.rest, fun i member used kept => ?_, fun i out => ?_⟩
        · refine sofar.inside i ⟨member.1, ?_⟩ used kept
          by_contra last
          obtain rfl : i = page + j := by omega
          simp [used, kept] at skip
        · exact sofar.outside i (out.imp_left fun far => by omega)
      · have flags : (s.flags (page + j)).free = false ∧ (s.flags (page + j)).excluded = false := by
          simpa using skip
        obtain ⟨u, frees, released⟩ := freePage_spec (i := page + j) sofar.quiet
          (by rw [sofar.rest.managed]; omega) (by rw [same]; exact flags.1)
          (by rw [same]; exact flags.2)
        refine ⟨u, by simp only [access, same, skip, Bool.false_eq_true, if_false,
          bind_eq_bind, bind_some, frees], released.quiet,
          sofar.rest.trans released.rest, fun i member used kept => ?_, fun i out => ?_⟩
        · rw [released.flags, released.object, released.pindex]
          by_cases last : i = page + j
          · subst last
            rw [onRun_in le_rfl (by omega), onRun_in le_rfl (by omega), onRun_in le_rfl (by omega), same]
            exact ⟨rfl, rfl, rfl⟩
          · rw [onRun_out (by omega), onRun_out (by omega), onRun_out (by omega)]
            exact sofar.inside i (by omega) used kept
        · have other : i ≠ page + j := by
            rintro rfl
            simp only [flags, Bool.false_eq_true, or_false] at out
            omega
          rw [released.flags, released.object, released.pindex, onRun_out (by omega),
            onRun_out (by omega), onRun_out (by omega)]
          exact sofar.outside i (out.imp_left fun far => by omega))
  rw [Nat.zero_add] at last
  exact ⟨t, runs, last⟩

end Releasing

end Otsos.VmPhys
