import Otsos.Map.Runs

/-! The search of `vm_map.c` for a free range. -/
namespace Otsos.VmMaps
open List Option

variable {s : VmMaps ω} {length : Nat}

/-- `align_up` to a page. -/
def alignUp (addr : Nat) : Nat := pageFloor (u64 (addr + (pageSize - 1)))

/-- The walk of one pass, from an entry on. -/
def findFrom (s : VmMaps ω) (length limit : Nat) : Nat → Nat → Option Nat → Option (Option Nat)
  | 0, _, _ => none
  | _ + 1, cursor, none => some (if cursor ≤ limit - length then some cursor else none)
  | fuel + 1, cursor, some e =>
    if (s.entry e).stop ≤ cursor then findFrom s length limit fuel cursor (s.next e)
    else if cursor > limit - length then some none
    else if u64 (cursor + length) ≤ (s.entry e).start then some (some cursor)
    else findFrom s length limit fuel (alignUp (s.entry e).stop) (s.next e)

/-- One pass, between `cursor` and `limit`. -/
def findPass (s : VmMaps ω) (m length cursor limit : Nat) : Option (Option Nat) :=
  if cursor ≥ limit ∨ length > limit - cursor then some none
  else findFrom s length limit ((s.header m).entryCount + 1) cursor (s.header m).head

/-- Where the first pass starts and the second ends. -/
def searchStart (h : VmMapHeader) : Nat :=
  alignUp (if h.hint < h.minAddr ∨ h.hint ≥ h.maxAddr then h.minAddr else h.hint)

def findFreeLocked (s : VmMaps ω) (m length : Nat) : Option (VmMaps ω × Nat) := do
  let h := s.header m
  if length = 0 ∨ length > h.maxAddr - h.minAddr then return (s, 0)
  let found ← findPass s m length (searchStart h) h.maxAddr
  let found ← if found.isSome then some found else findPass s m length h.minAddr (searchStart h)
  match found with
  | none => return (s, 0)
  | some a =>
    let stop := u64 (a + length)
    return (s.setHeader m fun h => { h with hint := if stop < h.maxAddr then stop else h.minAddr }, a)

def findFree (s : VmMaps ω) (m length : Nat) : Option (VmMaps ω × Nat) :=
  if length = 0 ∨ length % pageSize ≠ 0 then some (s, 0) else s.findFreeLocked m length

/-- The bounds that `vm_map_init` accepts. -/
structure ProperBounds (h : VmMapHeader) : Prop where
  nonempty : h.minAddr < h.maxAddr
  low : pageSize ∣ h.minAddr
  high : pageSize ∣ h.maxAddr

/-- A place for `length` bytes between the entries. -/
structure Gap (s : VmMaps ω) (m : Nat) (l : List Nat) (length a : Nat) : Prop where
  nonempty : 0 < length
  aligned : pageSize ∣ a
  low : (s.header m).minAddr ≤ a
  high : a + length ≤ (s.header m).maxAddr
  unused : Unused s a (a + length) none l

theorem alignUp_spec (inside : addr ≤ limit) (aligned : pageSize ∣ limit) (fits : limit < 2 ^ 64) :
    addr ≤ alignUp addr ∧ alignUp addr ≤ limit ∧ pageSize ∣ alignUp addr ∧
      ∀ a, pageSize ∣ a → addr ≤ a → alignUp addr ≤ a := by
  have small : u64 (addr + (pageSize - 1)) = addr + (pageSize - 1) := by
    simp only [u64, pageSize] at *
    omega
  rw [alignUp]
  simp only [pageFloor, pageSize] at *
  refine ⟨by omega, by omega, Nat.dvd_mul_left _ _, fun a => ?_⟩
  omega

/-- A pass finds the first place from the cursor on. -/
theorem findFrom_spec (fuel : Nat) (inv : MapInv s m (l₁ ++ l₂))
    (proper : ProperBounds (s.header m)) (positive : 0 < length)
    (top : limit ≤ (s.header m).maxAddr) (fits : length ≤ limit) (aligned : pageSize ∣ cursor)
    (bottom : (s.header m).minAddr ≤ cursor) (behind : ∀ e ∈ l₁, (s.entry e).stop ≤ cursor)
    (enough : l₂.length < fuel) :
      ∃ found, findFrom s length limit fuel cursor l₂.head? = some found ∧
      (∀ a, found = some a → Gap s m (l₁ ++ l₂) length a ∧ cursor ≤ a ∧ a + length ≤ limit) ∧
      (found = none → ∀ a, Gap s m (l₁ ++ l₂) length a → cursor ≤ a → limit < a + length) := by
  have bounded := inv.bounded
  induction l₂, fuel, enough using Loop.walk_induction generalizing l₁ cursor with
  | nil =>
    refine ⟨_, rfl, fun a found => ?_, fun none a above => ?_⟩
    · obtain ⟨below, ⟨⟩⟩ := ite_none_right_eq_some.mp found
      refine ⟨⟨positive, aligned, bottom, by omega, fun e member _ => .inr ?_⟩, by omega, by omega⟩
      exact behind e (by simpa using member)
    · have beyond : ¬cursor ≤ limit - length := fun below => by simp [below] at none
      omega
  | cons e l₂ fuel _ ih =>
    obtain ⟨_, next⟩ := inv.shape.thread.toLinked.links_at
    have sorted := (pairwise_append.mp inv.ranges.sorted).2.1
    obtain ⟨_, inside⟩ := inv.ranges.inside e (by simp)
    have nonempty := inv.ranges.nonempty e (by simp)
    have again {cursor} (aligned : pageSize ∣ cursor) (bottom : (s.header m).minAddr ≤ cursor)
        (behind : ∀ x ∈ l₁ ++ [e], (s.entry x).stop ≤ cursor) :=
      ih (show MapInv s m ((l₁ ++ [e]) ++ l₂) by simpa using inv) aligned bottom behind
    simp only [append_assoc] at again
    rw [head?_cons, findFrom, next]
    have small : cursor ≤ limit - length → u64 (cursor + length) = cursor + length := fun _ =>
      Nat.mod_eq_of_lt (by omega)
    split_ifs with passed late fit
    · refine again aligned bottom fun x member => ?_
      rcases mem_append.mp member with old | new
      · exact behind x old
      · exact mem_singleton.mp new ▸ passed
    · exact ⟨_, rfl, nofun, fun a above => by omega⟩
    · rw [small (by omega)] at fit
      refine ⟨_, rfl, fun a found => ?_, nofun⟩
      cases found
      refine ⟨⟨positive, aligned, bottom, by omega, fun x member _ => ?_⟩, Nat.le_refl _, by omega⟩
      rcases mem_append.mp member with old | new
      · exact .inr (behind x old)
      · rcases mem_cons.mp new with rfl | later
        · exact .inl fit
        · have := (pairwise_cons.mp sorted).1 x later
          exact .inl (by omega)
    · obtain ⟨up, -, multiple, least⟩ := alignUp_spec inside proper.high bounded
      obtain ⟨found, walked, gap, none⟩ := again multiple (by omega) fun x member => by
        rcases mem_append.mp member with old | new
        · have := behind x old
          omega
        · exact mem_singleton.mp new ▸ up
      refine ⟨found, walked, fun a hit => ?_, fun missed a free above => ?_⟩
      · obtain ⟨free, above, below⟩ := gap a hit
        exact ⟨free, by omega, below⟩
      · refine none missed a free (least a free.aligned ?_)
        have := free.unused e (by simp) (by simp)
        omega

theorem MapInv.setHint (inv : MapInv s m l) (hint : Nat) :
    MapInv (s.setHeader m fun h => { h with hint }) m l := by
  have kept : (s.setHeader m fun h => { h with hint }).header m = { s.header m with hint } :=
    Function.update_self ..
  refine ⟨?_, ⟨inv.ranges.sorted, inv.ranges.nonempty, ?_⟩, inv.live, ?_⟩
  · exact inv.shape.frame (by rw [kept]) (by rw [kept]) (by rw [kept]) (by rw [kept]) fun _ _ =>
      ⟨⟨rfl, rfl, fun _ => rfl⟩, rfl, rfl⟩
  · rw [kept]
    exact inv.ranges.inside
  · rw [kept]
    exact inv.bounded

section
variable (inv : MapInv s m l) (proper : ProperBounds (s.header m))
include inv proper

theorem findPass_spec (positive : 0 < length) (top : limit ≤ (s.header m).maxAddr)
    (aligned : pageSize ∣ cursor) (bottom : (s.header m).minAddr ≤ cursor) :
    ∃ found, findPass s m length cursor limit = some found ∧
      (∀ a, found = some a → Gap s m l length a ∧ cursor ≤ a ∧ a + length ≤ limit) ∧
      (found = none → ∀ a, Gap s m l length a → cursor ≤ a → limit < a + length) := by
  rw [findPass]
  split_ifs with narrow
  · exact ⟨none, rfl, nofun, fun a => by omega⟩
  · obtain ⟨found, _, gap, none⟩ := findFrom_spec ((s.header m).entryCount + 1)
      (show MapInv s m ([] ++ l) from inv) proper positive top (by omega) aligned bottom (by simp)
      (by rw [inv.shape.count]; omega)
    exact ⟨found, by rwa [inv.shape.thread.head_eq], gap, none⟩

theorem searchStart_spec : pageSize ∣ searchStart (s.header m) ∧
    (s.header m).minAddr ≤ searchStart (s.header m) ∧
    searchStart (s.header m) ≤ (s.header m).maxAddr := by
  obtain ⟨nonempty, -, high⟩ := proper
  rw [searchStart]
  split_ifs with outside
  · obtain ⟨up, below, multiple, -⟩ := alignUp_spec (Nat.le_of_lt nonempty) high inv.bounded
    exact ⟨multiple, up, below⟩
  · obtain ⟨up, below, multiple, -⟩ := alignUp_spec (show (s.header m).hint ≤ _ by omega) high inv.bounded
    exact ⟨multiple, by omega, below⟩

/-- The search answers with a gap, or every gap has the start of the first pass inside. -/
theorem findFree_spec (length : Nat) :
    ∃ s' a, s.findFree m length = some (s', a) ∧
    (a = 0 ∧ s' = s ∧ (pageSize ∣ length → ∀ a, Gap s m l length a →
          a < searchStart (s.header m) ∧ searchStart (s.header m) < a + length) ∨
        Gap s m l length a ∧ (searchStart (s.header m) ≤ a ∨ a + length ≤ searchStart (s.header m)) ∧
          ∃ hint, s' = s.setHeader m (fun h => { h with hint }) ∧
            (s.header m).minAddr ≤ hint ∧ hint < (s.header m).maxAddr) := by
  obtain ⟨multiple, bottom, top⟩ := searchStart_spec inv proper
  have bounded := inv.bounded
  rw [findFree, findFreeLocked]
  by_cases refused : length = 0 ∨ length % pageSize ≠ 0
  · refine ⟨s, 0, if_pos refused, .inl ⟨rfl, rfl, fun _ a free => ?_⟩⟩
    have := free.nonempty
    omega
  rw [if_neg refused]
  by_cases large : length = 0 ∨ length > (s.header m).maxAddr - (s.header m).minAddr
  · refine ⟨s, 0, if_pos large, .inl ⟨rfl, rfl, fun _ a free => ?_⟩⟩
    have := free.low
    have := free.high
    omega
  obtain ⟨up, searched, gapUp, noneUp⟩ := findPass_spec inv proper (show 0 < length by omega)
    (Nat.le_refl _) multiple bottom
  obtain ⟨down, searched', gapDown, noneDown⟩ :=
    findPass_spec inv proper (show 0 < length by omega) top proper.low (Nat.le_refl _)
  have answered : ∀ a, Gap s m l length a → ∃ hint,
      (s.setHeader m fun h => { h with
        hint := if u64 (a + length) < h.maxAddr then u64 (a + length) else h.minAddr }) =
        s.setHeader m (fun h => { h with hint }) ∧
      (s.header m).minAddr ≤ hint ∧ hint < (s.header m).maxAddr := by
    intro a free
    have low := free.low
    have small : u64 (a + length) = a + length := Nat.mod_eq_of_lt (Nat.lt_of_le_of_lt free.high bounded)
    refine ⟨if a + length < (s.header m).maxAddr then a + length else (s.header m).minAddr, ?_, ?_⟩
    · simp only [setHeader, small]
    · split_ifs <;> omega
  simp only [if_neg large, searched, searched', bind_eq_bind]
  cases up with
  | some a =>
    obtain ⟨free, above, -⟩ := gapUp a rfl
    exact ⟨_, a, rfl, .inr ⟨free, .inl above, answered a free⟩⟩
  | none =>
    cases down with
    | some a =>
      obtain ⟨free, -, below⟩ := gapDown a rfl
      exact ⟨_, a, rfl, .inr ⟨free, .inr below, answered a free⟩⟩
    | none =>
      refine ⟨s, 0, rfl, .inl ⟨rfl, rfl, fun _ a free => ?_⟩⟩
      have low := noneUp rfl a free
      have high := noneDown rfl a free free.low
      have := free.high
      omega

/-- Whatever the hint is, an address that the search answers with is a gap, the next insertion there
finds it free, and the new hint is inside the bounds. -/
theorem findFree_sound (length : Nat) : ∃ s' a, s.findFree m length = some (s', a) ∧
      (a ≠ 0 → Gap s m l length a ∧ s'.rangeFreeLocked m a (a + length) none = some true ∧
      (s.header m).minAddr ≤ (s'.header m).hint ∧ (s'.header m).hint < (s.header m).maxAddr) := by
  obtain ⟨s', a, computed, ⟨zero, -⟩ | ⟨free, -, hint, rfl, low, high⟩⟩ :=
    findFree_spec inv proper length
  · exact ⟨s', a, computed, fun nonzero => absurd zero nonzero⟩
  · refine ⟨_, a, computed, fun _ => ⟨free, ?_, by simpa [setHeader] using ⟨low, high⟩⟩⟩
    obtain ⟨_, tested, meaning⟩ := rangeFreeLocked_spec (inv.setHint hint) a (a + length) none
    rw [tested, meaning.mpr]
    have positive := free.nonempty
    exact ⟨by omega, by simpa [setHeader] using free.low, by simpa [setHeader] using free.high, free.unused⟩

/-- The search misses exactly the gaps around its start: it answers zero in spite of a gap if all of
them are there. -/
theorem findFree_complete_iff (positive : 0 < (s.header m).minAddr) (pages : pageSize ∣ length) :
    ((∃ s', s.findFree m length = some (s', 0)) → ∀ a, ¬Gap s m l length a) ↔
      ((∃ a, Gap s m l length a) → ∃ a, Gap s m l length a ∧
        (searchStart (s.header m) ≤ a ∨ a + length ≤ searchStart (s.header m))) := by
  obtain ⟨s', a, computed, ⟨rfl, rfl, around⟩ | ⟨free, beside, -⟩⟩ :=
    findFree_spec inv proper length
  · constructor
    · exact fun complete ⟨a, free⟩ => absurd free (complete ⟨_, computed⟩ a)
    · intro beside _ a free
      obtain ⟨b, free, _⟩ := beside ⟨a, free⟩
      have := around pages b free
      omega
  · have nonzero : a ≠ 0 := Nat.ne_of_gt (Nat.lt_of_lt_of_le positive free.low)
    refine iff_of_true (fun ⟨_, zero⟩ => ?_) fun _ => ⟨a, free, beside⟩
    rw [computed, some.injEq, Prod.mk.injEq] at zero
    exact absurd zero.2 nonzero

end

/-- The search answers with the page behind the first file. -/
theorem findFree_sound_fileRun : ∃ r s', runSeparate fileRun = some r ∧
    r.state.findFree 0 0x1000 = some (s', 0x3000) ∧
    Gap r.state 0 (entries r.state 0) 0x1000 0x3000 ∧
    s'.rangeFreeLocked 0 0x3000 0x4000 none = some true := by
  obtain ⟨r, ran, ready, low, high, answer⟩ : ∃ r, runSeparate fileRun = some r ∧ 0 ∈ r.ready ∧
      (r.state.header 0).minAddr = 0x1000 ∧ (r.state.header 0).maxAddr = 0x100000 ∧
      (r.state.findFree 0 0x1000).map Prod.snd = some 0x3000 := Loop.exists_of_any (by decide +kernel)
  have inv := (run_good (runSeparate_reached ran)).inv ready
  have proper : ProperBounds (r.state.header 0) := by
    constructor <;> simp [low, high, pageSize]
  obtain ⟨s', a, computed, sound⟩ := findFree_sound inv proper 0x1000
  rw [computed, map_some, some.injEq] at answer
  obtain rfl := answer
  obtain ⟨free, tested, -⟩ := sound (by decide)
  exact ⟨r, s', ran, computed, free, tested⟩

/-- The hole between the files is not missed. -/
theorem findFree_complete_fileRun : ∃ r, runSeparate fileRun = some r ∧ pageSize ∣ 0x5000 ∧
    ((∃ s', r.state.findFree 0 0x5000 = some (s', 0)) → ∀ a, ¬Gap r.state 0 (entries r.state 0) 0x5000 a) := by
  obtain ⟨r, ran, ready, low, high, begins, unused⟩ : ∃ r, runSeparate fileRun = some r ∧
      0 ∈ r.ready ∧ (r.state.header 0).minAddr = 0x1000 ∧ (r.state.header 0).maxAddr = 0x100000 ∧
      searchStart (r.state.header 0) ≤ 0x3000 ∧ Unused r.state 0x3000 0x8000 none (entries r.state 0) :=
    Loop.exists_of_any (by decide +kernel)
  have inv := (run_good (runSeparate_reached ran)).inv ready
  have proper : ProperBounds (r.state.header 0) := by
    constructor <;> simp [low, high, pageSize]
  refine ⟨r, ran, by decide, (findFree_complete_iff inv proper (by simp [low]) (by decide)).mpr
    fun _ => ?_⟩
  exact ⟨0x3000, ⟨by decide, by decide, by simp [low], by simp [high], unused⟩, .inl begins⟩

/-- Three free pages, with the hint at the second. -/
def threePages : VmMaps Unit :=
  blank.setHeader 0 fun _ => ⟨none, none, none, 0x1000, 0x4000, 0x2000, 0⟩

/-- All three pages are free, but both passes stop at the hint. -/
theorem findFree_misses : MapInv threePages 0 [] ∧ ProperBounds (threePages.header 0) ∧
    (threePages.findFree 0 0x3000).map Prod.snd = some 0 ∧ Gap threePages 0 [] 0x3000 0x1000 :=
  ⟨.empty blank 0 0x1000 0x4000 0x2000 (by decide),
    ⟨by decide, by decide, by decide⟩, by decide +kernel, by decide, by decide, by decide,
    by decide, by simp [Unused]⟩

end Otsos.VmMaps
