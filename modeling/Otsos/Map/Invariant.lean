import Mathlib.Data.List.Pairwise
import Otsos.Map.Shape

/-! The invariant of a map, what its searches answer under it, and how the maps that share the entry
zone stay out of each other's way. -/
namespace Otsos.VmMaps
open Function (update update_of_ne update_self)
open RedBlack RedBlack.Tree VmMap.RbTree
open List

variable {s : VmMaps ω} {m : Nat}

/-- The ranges of the entries are non-empty, in order, disjoint and inside the bounds of the map. -/
structure Ranges (s : VmMaps ω) (m : Nat) (l : List Nat) : Prop where
  sorted : l.Pairwise fun a b => (s.entry a).stop ≤ (s.entry b).start
  nonempty : ∀ e ∈ l, (s.entry e).start < (s.entry e).stop
  inside : ∀ e ∈ l, (s.header m).minAddr ≤ (s.entry e).start ∧
    (s.entry e).stop ≤ (s.header m).maxAddr

/-- The map `m` has the entries `l`, in the order of their addresses. -/
structure MapInv (s : VmMaps ω) (m : Nat) (l : List Nat) : Prop where
  shape : Shape s m l
  ranges : Ranges s m l
  live : ∀ e ∈ l, s.live e = true
  bounded : (s.header m).maxAddr < 2 ^ 64

/-- The address lies in the range of the entry. -/
def Covers (s : VmMaps ω) (addr e : Nat) : Prop :=
  (s.entry e).start ≤ addr ∧ addr < (s.entry e).stop

instance (s : VmMaps ω) (addr e : Nat) : Decidable (Covers s addr e) :=
  inferInstanceAs (Decidable (_ ∧ _))

theorem not_covers_of_lt (behind : addr < (s.entry e).start) : ¬Covers s addr e :=
  fun covers => Nat.not_le.mpr behind covers.1

theorem not_covers_of_le (ahead : (s.entry e).stop ≤ addr) : ¬Covers s addr e :=
  fun covers => Nat.not_lt.mpr ahead covers.2

theorem lookupFrom_spec (here : At (s.tree m) k t)
    (sorted : t.toList.Pairwise fun a b => (s.entry a).stop ≤ (s.entry b).start)
    (nonempty : ∀ e ∈ t.toList, (s.entry e).start < (s.entry e).stop)
    (enough : t.toList.length < fuel) :
    lookupFrom s addr fuel t.root? = some (t.toList.find? fun e => Covers s addr e) := by
  induction t generalizing k fuel with
  | leaf =>
    obtain ⟨fuel, rfl⟩ := Loop.fuel_succ enough
    rfl
  | node c l x r ihl ihr =>
    obtain ⟨fuel, rfl⟩ := Loop.fuel_succ enough
    simp only [toList, length_append, length_cons] at enough
    simp only [toList, pairwise_append, pairwise_cons, mem_cons] at sorted
    obtain ⟨sortedl, ⟨sortedx, sortedr⟩, across⟩ := sorted
    have left : s.rbChild .left x = l.root? := here.rep.2.2.1
    have right : s.rbChild .right x = r.root? := here.rep.2.2.2.1
    have here' : (s.entry x).start < (s.entry x).stop := nonempty x (by simp [toList])
    have foundl := ihl here.left sortedl (fun e member => nonempty e (by simp [toList, member]))
      (show l.toList.length < fuel by omega)
    have foundr := ihr here.right sortedr (fun e member => nonempty e (by simp [toList, member]))
      (show r.toList.length < fuel by omega)
    have earlier : (s.entry x).start ≤ addr → l.toList.find? (fun e => Covers s addr e) = none := by
      refine fun _ => find?_eq_none.mpr fun e member => ?_
      have := across e member x (.inl rfl)
      simpa using not_covers_of_le (show (s.entry e).stop ≤ addr by omega)
    rw [root?, lookupFrom, left, right, foundl, foundr, toList, find?_append]
    split_ifs with low high
    · -- everything from `x` on starts behind the address
      have later : r.toList.find? (fun e => Covers s addr e) = none := by
        refine find?_eq_none.mpr fun e member => ?_
        have := sortedx e member
        simpa using not_covers_of_lt (show addr < (s.entry e).start by omega)
      simp [later, not_covers_of_lt low]
    · simp [earlier (by omega), not_covers_of_le high]
    · have hit : Covers s addr x := ⟨Nat.not_lt.mp low, Nat.not_le.mp high⟩
      simp [earlier hit.1, hit]

theorem lookupLocked_spec (inv : MapInv s m l) (addr : Nat) :
    s.lookupLocked m addr = some (l.find? fun e => Covers s addr e) := by
  obtain ⟨t, here, _, rfl⟩ := inv.shape.tree
  have root : (s.header m).rbRoot = t.root? := here.path
  rw [lookupLocked, root]
  exact lookupFrom_spec here inv.ranges.sorted inv.ranges.nonempty (by rw [inv.shape.count]; omega)

theorem Ranges.disjoint (ranges : Ranges s m l) (ina : a ∈ l) (inb : b ∈ l) (different : a ≠ b) :
    (s.entry a).stop ≤ (s.entry b).start ∨ (s.entry b).stop ≤ (s.entry a).start := by
  let apart (a b : Nat) : Prop :=
    (s.entry a).stop ≤ (s.entry b).start ∨ (s.entry b).stop ≤ (s.entry a).start
  have : Std.Symm apart := ⟨fun _ _ => Or.symm⟩
  have either : l.Pairwise apart := ranges.sorted.imp fun order => .inl order
  exact either.forall ina inb different

/-- The range overlaps no entry, apart from the ignored one. -/
def Unused (s : VmMaps ω) (start stop : Nat) (ignore : Option Nat) (l : List Nat) : Prop :=
  ∀ e ∈ l, some e ≠ ignore → stop ≤ (s.entry e).start ∨ (s.entry e).stop ≤ start

theorem rangeFreeFrom_spec (start stop fuel : Nat) (ignore : Option Nat)
    (inv : MapInv s m (l₁ ++ l₂)) (enough : l₂.length < fuel) :
    ∃ free, rangeFreeFrom s start stop ignore fuel l₂.head? = some free ∧
      (free = true ↔ Unused s start stop ignore l₂) := by
  induction l₂, fuel, enough using Loop.walk_induction generalizing l₁ with
  | nil =>
    exact ⟨true, rfl, by simp [Unused]⟩
  | cons e l₂ fuel _ ih =>
    obtain ⟨_, next⟩ := inv.shape.thread.toLinked.links_at
    obtain ⟨free, rest, meaning⟩ := ih (show MapInv s m ((l₁ ++ [e]) ++ l₂) by simpa using inv)
    have sorted := (pairwise_append.mp inv.ranges.sorted).2.1
    have nonempty := inv.ranges.nonempty e (by simp)
    rw [head?_cons, rangeFreeFrom, next, rest]
    have unused_cons : Unused s start stop ignore (e :: l₂) ↔
        (some e ≠ ignore → stop ≤ (s.entry e).start ∨ (s.entry e).stop ≤ start) ∧
          Unused s start stop ignore l₂ := by
      simp [Unused]
    rw [unused_cons]
    split_ifs with ignored behind overlap
    · exact ⟨free, rfl, by simp [ignored, meaning]⟩
    · refine ⟨true, rfl, iff_of_true rfl ⟨fun _ => .inl behind, fun a member _ => .inl ?_⟩⟩
      have := (pairwise_cons.mp sorted).1 a member
      omega
    · refine ⟨false, rfl, iff_of_false Bool.false_ne_true fun both => ?_⟩
      have := both.1 ignored
      omega
    · refine ⟨free, rfl, meaning.trans ⟨fun rest => ⟨fun _ => .inr ?_, rest⟩, And.right⟩⟩
      omega

theorem rangeFreeLocked_spec (inv : MapInv s m l) (start stop : Nat) (ignore : Option Nat) :
    ∃ free, s.rangeFreeLocked m start stop ignore = some free ∧ (free = true ↔ start < stop ∧
      (s.header m).minAddr ≤ start ∧ stop ≤ (s.header m).maxAddr ∧ Unused s start stop ignore l) := by
  simp only [rangeFreeLocked]
  split_ifs with outside
  · exact ⟨false, rfl, iff_of_false Bool.false_ne_true (by omega)⟩
  · have enough : l.length < (s.header m).entryCount + 1 := by rw [inv.shape.count]; omega
    obtain ⟨free, found, meaning⟩ := rangeFreeFrom_spec start stop _ ignore
      (show MapInv s m ([] ++ l) from inv) enough
    refine ⟨free, by rw [← found, inv.shape.thread.head_eq], ?_⟩
    rw [meaning]
    constructor
    · exact fun unused => ⟨by omega, by omega, by omega, unused⟩
    · exact fun all => all.2.2.2

/-- An entry has not changed. -/
def SameEntry (s s' : VmMaps ω) (x : Nat) : Prop :=
  SameLinks s s' x ∧ s'.entry x = s.entry x ∧ s'.live x = s.live x

/-- Nothing that the invariant reads of an entry has changed. -/
structure SameRange (s s' : VmMaps ω) (x : Nat) : Prop where
  links : SameLinks s s' x
  start : (s'.entry x).start = (s.entry x).start
  stop : (s'.entry x).stop = (s.entry x).stop
  live : s'.live x = s.live x

theorem SameEntry.range (same : SameEntry s s' x) : SameRange s s' x :=
  ⟨same.1, by rw [same.2.1], by rw [same.2.1], same.2.2⟩

theorem MapInv.frame (inv : MapInv s m l) (header : s'.header m = s.header m)
    (same : ∀ x ∈ l, SameRange s s' x) : MapInv s' m l := by
  refine ⟨?_, ⟨?_, ?_, ?_⟩, fun x member => (same x member).live.trans (inv.live x member),
    header ▸ inv.bounded⟩
  · exact inv.shape.frame (by rw [header]) (by rw [header]) (by rw [header]) (by rw [header])
      fun x member => (same x member).links
  · refine inv.ranges.sorted.imp_of_mem fun {a b} ina inb _ => ?_
    rwa [(same a ina).stop, (same b inb).start]
  · intro x member
    rw [(same x member).start, (same x member).stop]
    exact inv.ranges.nonempty x member
  · intro x member
    rw [(same x member).start, (same x member).stop, header]
    exact inv.ranges.inside x member

/-- The entries of each initialised map. -/
abbrev Owners := Nat → Option (List Nat)

def Owned (own : Owners) (e : Nat) : Prop := ∃ m l, own m = some l ∧ e ∈ l

theorem Owned.ne (owned : Owned own x) (free : ¬Owned own e) : x ≠ e := by
  rintro rfl
  exact free owned

/-- Every initialised map has its invariant, and no entry is in two maps. -/
structure Maps (s : VmMaps ω) (own : Owners) : Prop where
  inv : ∀ m l, own m = some l → MapInv s m l
  apart : ∀ m m' l l', own m = some l → own m' = some l' → m ≠ m' → ∀ e ∈ l, e ∉ l'

theorem Maps.live (maps : Maps s own) (owned : Owned own e) : s.live e = true := by
  obtain ⟨m, l, holds, member⟩ := owned
  exact (maps.inv m l holds).live e member

theorem Maps.frame (maps : Maps s own) (header : ∀ m, (own m).isSome → s'.header m = s.header m)
    (same : ∀ x, Owned own x → SameRange s s' x) : Maps s' own := by
  refine ⟨fun m l holds => ?_, maps.apart⟩
  exact (maps.inv m l holds).frame (header m (by simp [holds])) fun x member =>
    same x ⟨m, l, holds, member⟩

theorem Maps.assign (maps : Maps s own) (inv : MapInv s' m l)
    (fresh : ∀ m' l', m' ≠ m → own m' = some l' → ∀ x ∈ l', x ∉ l)
    (header : ∀ m', m' ≠ m → s'.header m' = s.header m')
    (same : ∀ m' l', m' ≠ m → own m' = some l' → ∀ x ∈ l', SameRange s s' x) :
    Maps s' (update own m (some l)) := by
  constructor
  · intro m' l' holds'
    by_cases here : m' = m
    · subst here
      rw [update_self] at holds'
      cases holds'
      exact inv
    · rw [update_of_ne here] at holds'
      exact (maps.inv m' l' holds').frame (header m' here) (same m' l' here holds')
  · intro m₁ m₂ k₁ k₂ first second different x member
    by_cases here₁ : m₁ = m
    · subst here₁
      rw [update_self] at first
      rw [update_of_ne (Ne.symm different)] at second
      cases first
      exact fun member' => fresh m₂ k₂ (Ne.symm different) second x member' member
    · rw [update_of_ne here₁] at first
      by_cases here₂ : m₂ = m
      · subst here₂
        rw [update_self] at second
        cases second
        exact fresh m₁ k₁ here₁ first x member
      · rw [update_of_ne here₂] at second
        exact maps.apart m₁ m₂ k₁ k₂ first second different x member

theorem Maps.replace (maps : Maps s own) (holds : own m = some l)
    (inv : MapInv s' m l') (fresh : ∀ x ∈ l', x ∉ l → ¬Owned own x)
    (header : ∀ m', m' ≠ m → s'.header m' = s.header m')
    (same : ∀ x, Owned own x → x ∉ l → SameRange s s' x) : Maps s' (update own m (some l')) := by
  have off : ∀ m' k, m' ≠ m → own m' = some k → ∀ x ∈ k, x ∉ l := fun m' k other holds' =>
    maps.apart m' m k l holds' holds other
  refine maps.assign inv ?_ header ?_
  · intro m' k other holds' x member new
    exact fresh x new (off m' k other holds' x member) ⟨m', k, holds', member⟩
  · intro m' k other holds' x member
    exact same x ⟨m', k, holds', member⟩ (off m' k other holds' x member)

theorem split_unique {P : Nat → Prop} {k₁ : List Nat} (same : l₁ ++ l₂ = k₁ ++ k₂)
    (low : ∀ a ∈ l₁, ¬P a) (high : ∀ b ∈ l₂, P b) (low' : ∀ a ∈ k₁, ¬P a) (high' : ∀ b ∈ k₂, P b) :
    l₁ = k₁ ∧ l₂ = k₂ := by
  rcases append_eq_append_iff.mp same with ⟨mid, rfl, rfl⟩ | ⟨mid, rfl, rfl⟩
  · cases mid with
    | nil => simp
    | cons x mid => exact absurd (high x (by simp)) (low' x (by simp))
  · cases mid with
    | nil => simp
    | cons x mid => exact absurd (high' x (by simp)) (low x (by simp))

theorem Maps.link (maps : Maps s own) (holds : own m = some (l₁ ++ l₂)) (free : ¬Owned own e)
    (live : s.live e = true) (nonempty : (s.entry e).start < (s.entry e).stop)
    (inside : (s.header m).minAddr ≤ (s.entry e).start ∧ (s.entry e).stop ≤ (s.header m).maxAddr)
    (below : ∀ a ∈ l₁, (s.entry a).stop ≤ (s.entry e).start)
    (above : ∀ b ∈ l₂, (s.entry e).stop ≤ (s.entry b).start) :
    ∃ s', s.link m e = some s' ∧ Maps s' (update own m (some (l₁ ++ e :: l₂))) ∧
    Relinked s s' m (e :: (l₁ ++ l₂)) := by
  have inv := maps.inv m _ holds
  have fresh : e ∉ l₁ ++ l₂ := fun member => free ⟨m, _, holds, member⟩
  have starts₁ : ∀ a ∈ l₁, ¬(s.entry e).start < (s.entry a).start := fun a member => by
    have := below a member
    have := inv.ranges.nonempty a (by simp [member])
    omega
  have starts₂ : ∀ b ∈ l₂, (s.entry e).start < (s.entry b).start := fun b member => by
    have := above b member
    omega
  have sorted : (l₁ ++ l₂).Pairwise fun a b =>
      (s.entry e).start < (s.entry a).start → (s.entry e).start < (s.entry b).start := by
    refine inv.ranges.sorted.imp_of_mem fun {a b} ina => ?_
    have := inv.ranges.nonempty a ina
    omega
  obtain ⟨s', _, _, computed, same, low, high, shape, relinked⟩ := link_spec inv.shape fresh sorted
  obtain ⟨rfl, rfl⟩ := split_unique same starts₁ starts₂ low high
  have cases_mem : ∀ x ∈ l₁ ++ e :: l₂, x = e ∨ x ∈ l₁ ++ l₂ := by
    intro x member
    simp only [mem_append, mem_cons] at member ⊢
    tauto
  have old := inv.ranges
  refine ⟨s', computed, maps.replace holds ⟨shape, ⟨?_, ?_, ?_⟩, ?_, ?_⟩ ?_ relinked.header ?_,
    relinked⟩
  · rw [relinked.entry]
    have parts := pairwise_append.mp old.sorted
    refine pairwise_append.mpr ⟨parts.1, pairwise_cons.mpr ⟨above, parts.2.1⟩, ?_⟩
    intro a ina b inb
    rcases mem_cons.mp inb with rfl | inb
    · exact below a ina
    · exact parts.2.2 a ina b inb
  · intro x member
    rw [relinked.entry]
    rcases cases_mem x member with rfl | member
    · exact nonempty
    · exact old.nonempty x member
  · intro x member
    rw [relinked.entry, relinked.bounds.1, relinked.bounds.2.1]
    rcases cases_mem x member with rfl | member
    · exact inside
    · exact old.inside x member
  · intro x member
    rw [relinked.live]
    rcases cases_mem x member with rfl | member
    · exact live
    · exact inv.live x member
  · rw [relinked.bounds.2.1]
    exact inv.bounded
  · intro x member off
    rwa [(cases_mem x member).resolve_right off]
  · intro x owned off
    have other := owned.ne free
    exact ⟨relinked.links x (by simp_all), by rw [relinked.entry], by rw [relinked.entry], by rw [relinked.live]⟩

theorem Maps.unlink (maps : Maps s own) (holds : own m = some (l₁ ++ e :: l₂)) :
    ∃ s', s.unlink m e = some s' ∧ Maps s' (update own m (some (l₁ ++ l₂))) ∧
      ¬Owned (update own m (some (l₁ ++ l₂))) e ∧ Relinked s s' m (l₁ ++ e :: l₂) := by
  have inv := maps.inv m _ holds
  obtain ⟨s', computed, shape, relinked⟩ := unlink_spec inv.shape
  have fewer : ∀ x ∈ l₁ ++ l₂, x ∈ l₁ ++ e :: l₂ := by
    intro x member
    simp only [mem_append] at member ⊢
    tauto
  have sub : (l₁ ++ l₂).Sublist (l₁ ++ e :: l₂) := (sublist_cons_self e l₂).append_left l₁
  refine ⟨s', computed, maps.replace holds ⟨shape, ⟨?_, ?_, ?_⟩, ?_, ?_⟩ ?_ relinked.header ?_, ?_,
    relinked⟩
  · rw [relinked.entry]
    exact inv.ranges.sorted.sublist sub
  · rw [relinked.entry]
    exact fun x member => inv.ranges.nonempty x (fewer x member)
  · rw [relinked.entry, relinked.bounds.1, relinked.bounds.2.1]
    exact fun x member => inv.ranges.inside x (fewer x member)
  · rw [relinked.live]
    exact fun x member => inv.live x (fewer x member)
  · rw [relinked.bounds.2.1]
    exact inv.bounded
  · exact fun x member off => absurd (fewer x member) off
  · exact fun x _ off => ⟨relinked.links x off, by rw [relinked.entry], by rw [relinked.entry], by rw [relinked.live]⟩
  · rintro ⟨m', l', holds', member⟩
    by_cases here : m' = m
    · subst here
      rw [update_self] at holds'
      cases holds'
      obtain ⟨off₁, off₂⟩ := inv.shape.thread.toLinked.fresh
      exact (mem_append.mp member).elim off₁ off₂
    · rw [update_of_ne here] at holds'
      exact maps.apart m' m l' _ holds' holds here e member (by simp)

end Otsos.VmMaps
