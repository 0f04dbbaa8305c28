import Otsos.Map.Clip
import Otsos.Map.Find
import Otsos.User.Address

/-! Removal from a map, and the two calls that unmap memory (`api/mmap.c`,
`api/posix/posix_mem.c`). -/
namespace Otsos.VmMaps
open Function (update update_self)
open List Option

variable {s : VmMaps ω} {l : List Nat} {stop : Nat}

def apiErrBadValue : Int := 22
def apiErrBadAddr : Int := 14
def apiErrNotFound : Int := 2
def posixEinval : Int := 22
def posixEfault : Int := 14

/-- Protection, flags, object and page index of an address that the entry covers. -/
def attributes (ent : VmMapEntry) (addr : Nat) : UInt32 × UInt32 × Option Nat × Nat :=
  (ent.prot, ent.flags, (translate ent addr).1, (translate ent addr).2.1)

/-- What the map says of an address; the inner `none` is an unmapped address. -/
def view (s : VmMaps ω) (m addr : Nat) : Option (Option (UInt32 × UInt32 × Option Nat × Nat)) :=
  (s.lookupLocked m addr).map fun found => found.map fun e => attributes (s.entry e) addr

def Mapped (s : VmMaps ω) (m addr : Nat) : Prop := ∃ e, s.lookupLocked m addr = some (some e)

theorem mapped_iff (inv : MapInv s m l) : Mapped s m addr ↔ ∃ e ∈ l, Covers s addr e := by
  constructor
  · rintro ⟨e, found⟩
    by_contra nowhere
    push Not at nowhere
    rw [(lookup_none_iff inv).mpr nowhere] at found
    cases found
  · exact fun ⟨e, member, covers⟩ => ⟨e, lookup_of_covers inv member covers⟩

theorem view_of_covers (inv : MapInv s m l) (member : e ∈ l) (covers : Covers s addr e) :
    view s m addr = some (some (attributes (s.entry e) addr)) := by
  rw [view, lookup_of_covers inv member covers]
  rfl

theorem view_of_not_covers (inv : MapInv s m l) (nowhere : ∀ e ∈ l, ¬Covers s addr e) :
    view s m addr = some none := by
  rw [view, (lookup_none_iff inv).mpr nowhere]
  rfl

theorem mapped_iff_view : Mapped s m addr ↔ ∃ v, view s m addr = some (some v) := by
  simp only [view, map_eq_some_iff]
  constructor
  · exact fun ⟨e, found⟩ => ⟨_, some e, found, e, rfl, rfl⟩
  · exact fun ⟨_, _, found, e, here, _⟩ => ⟨e, here ▸ found⟩

theorem Part.attributes_eq (part : Part ent ent') (covers : ent'.start ≤ addr)
    (small : addr < 2 ^ 64) : attributes ent' addr = attributes ent addr := by
  rw [attributes, part.index_eq covers small, part.prot, part.flags]
  exact congrArg (_, _, ·, _) part.object

theorem Cut.view_eq (inv : MapInv s m l) (inv' : MapInv s' m l') (cut : Cut s l s' l')
    (addr : Nat) : view s' m addr = view s m addr := by
  by_cases mapped : ∃ e' ∈ l', Covers s' addr e'
  · obtain ⟨e', inl', covers⟩ := mapped
    obtain ⟨e, inl, part⟩ := cut.parts e' inl'
    rw [view_of_covers inv' inl' covers, view_of_covers inv inl (part.covers covers),
      part.attributes_eq covers.1 (inv'.lt_of_covers inl' covers)]
  · rw [view_of_not_covers inv' fun e' inl' covers => mapped ⟨e', inl', covers⟩,
      view_of_not_covers inv fun e inl covers => mapped (cut.covered addr e inl covers)]

theorem MapInv.maps (inv : MapInv s m l) : Maps s (update (fun _ => none) m (some l)) :=
  Maps.assign ⟨nofun, nofun⟩ inv nofun (fun _ _ => rfl) nofun

/-- An entry that does not cross a bound of the range lies in it exactly if it meets it. -/
theorem inRange_of_covers (low : ¬Inside s start l) (high : ¬Inside s stop l)
    (member : e ∈ l) (covers : Covers s addr e) : InRange s start stop e ↔ start ≤ addr ∧
    addr < stop := by
  have bottom : ¬((s.entry e).start < start ∧ start < (s.entry e).stop) :=
    fun cross => low ⟨e, member, cross⟩
  have top : ¬((s.entry e).start < stop ∧ stop < (s.entry e).stop) :=
    fun cross => high ⟨e, member, cross⟩
  obtain ⟨_, _⟩ := covers
  simp only [InRange]
  omega

variable (env pick)

/-- If both clips find the entries they need, the removal is exact; otherwise it changes nothing. -/
theorem removeRange_view (inv : MapInv s m l) (proper : start < stop) :
    ∃ s' r l', s.removeRange env pick m start stop = some (s', r) ∧ MapInv s' m l' ∧
      ((s.clipRange env pick m start stop).map Prod.snd = some 0 ∧
          (∀ addr, view s' m addr = if start ≤ addr ∧ addr < stop then some none else view s m addr) ∧
          (r = 0 ↔ ∃ addr, start ≤ addr ∧ addr < stop ∧ Mapped s m addr) ∨
        (s.clipRange env pick m start stop).map Prod.snd ≠ some 0 ∧ (Inside s start l ∨ Inside s stop l) ∧
          r = -1 ∧ s'.entryAlloc pick = none ∧ ∀ addr, view s' m addr = view s m addr) := by
  obtain ⟨s', r, l', clipped, maps', cut, -, outcome⟩ :=
    clipRange_cut env pick inv.maps (update_self m _ _) proper
  have inv' := maps'.inv m l' (update_self m _ _)
  have same := cut.view_eq inv inv'
  rw [removeRange_eq, clipped]
  rcases outcome with ⟨rfl, low, high⟩ | ⟨rfl, full, failed⟩
  · obtain ⟨s₃, removed, walked, maps₃, entry, any⟩ :=
      removeWalk_spec env maps' (update_self m _ _) start stop
    have inv₃ := maps₃.inv m _ (update_self m _ _)
    refine ⟨s₃, if removed then 0 else -1, _, by simp [walked], inv₃,
      .inl ⟨rfl, fun addr => ?_, ?_⟩⟩
    · rw [← same]
      by_cases mapped : ∃ e ∈ l', Covers s' addr e
      · obtain ⟨e, inl', covers⟩ := mapped
        have meets := inRange_of_covers low high inl' covers
        split_ifs with within
        · refine view_of_not_covers inv₃ fun x kept covers' => ?_
          obtain ⟨inx, outside⟩ := mem_filter.mp kept
          rw [Covers, entry] at covers'
          exact absurd ((inRange_of_covers low high inx covers').mpr within) (by simpa using outside)
        · have kept : e ∈ l'.filter fun e => ¬InRange s' start stop e :=
            mem_filter.mpr ⟨inl', decide_eq_true (mt meets.mp within)⟩
          rw [view_of_covers inv₃ kept (by rwa [Covers, entry]), view_of_covers inv' inl' covers, entry]
      · have nowhere : ∀ e ∈ l', ¬Covers s' addr e := fun e inl' covers => mapped ⟨e, inl', covers⟩
        rw [view_of_not_covers inv' nowhere, ite_self]
        exact view_of_not_covers inv₃ fun x kept => by
          rw [Covers, entry]
          exact nowhere x (mem_of_mem_filter kept)
    · have zero : ((if removed then 0 else -1 : Int) = 0) ↔ removed = true := by cases removed <;> simp
      rw [zero, any]
      constructor
      · rintro ⟨e, inl', within⟩
        have nonempty := inv'.ranges.nonempty e inl'
        obtain ⟨x, inl, part⟩ := cut.parts e inl'
        exact ⟨(s'.entry e).start, within.1, Nat.lt_of_lt_of_le nonempty within.2,
          (mapped_iff inv).mpr ⟨x, inl, part.covers ⟨Nat.le_refl _, nonempty⟩⟩⟩
      · rintro ⟨addr, bottom, top, mapped⟩
        obtain ⟨x, inl, covers⟩ := (mapped_iff inv).mp mapped
        obtain ⟨e, inl', covers'⟩ := cut.covered addr x inl covers
        exact ⟨e, inl', (inRange_of_covers low high inl' covers').mpr ⟨bottom, top⟩⟩
  · refine ⟨s', -1, l', by simp, inv', .inr ⟨by simp, ?_, rfl, full, same⟩⟩
    rcases failed with ⟨_, either⟩ | ⟨_, _, inside, _⟩
    · exact either
    · exact .inl inside

/-- The loop of `api_mem_unmap` over the pages of the entry. -/
def unmapPages (ent : VmMapEntry) (addr aligned : Nat) (w : ω) : ω :=
  (((List.range (aligned / pageSize)).map (addr + · * pageSize)).takeWhile (· < ent.stop)).foldl
    (unmapPage env ent.object) w

/-- `api_mem_unmap`, called by a process. -/
def apiMemUnmap (s : VmMaps ω) (m : Nat) (addr length : UInt64) : Option (VmMaps ω × Int) := do
  if addr = 0 ∨ length = 0 then return (s, -apiErrBadValue)
  if addr.toNat % pageSize ≠ 0 then return (s, -apiErrBadValue)
  if !User.isUserAddress addr.toBitVec length.toBitVec then return (s, -apiErrBadAddr)
  match ← s.lookupLocked m addr.toNat with
  | none => return (s, -apiErrNotFound)
  | some e =>
    let s := s.onEnv (unmapPages env (s.entry e) addr.toNat (alignUp length.toNat))
    let (s, _) ← s.remove env m addr.toNat
    return (s, 0)

def alignLength (length : Nat) : Option Nat :=
  if length = 0 ∨ length > 2 ^ 64 - 1 - (pageSize - 1) ∨ alignUp length = 0 then none else some (alignUp length)

/-- One page of `posix_unmap_pages`. -/
def posixUnmapPage (m : Nat) (s : VmMaps ω) (va : Nat) : Option (VmMaps ω) := do
  match ← s.lookupLocked m va with
  | some e => return s.onEnv (unmapPage env (s.entry e).object · va)
  | none => return s.onEnv (env.pmapRemove · va)

def posixUnmapPages (s : VmMaps ω) (m start stop : Nat) : Option (VmMaps ω) :=
  ((List.range ((stop - start + (pageSize - 1)) / pageSize)).map (start + · * pageSize)).foldlM
    (posixUnmapPage env m) s

/-- `posix_munmap`, called by a process. -/
def posixMunmap (s : VmMaps ω) (m : Nat) (addr length : UInt64) :
    Option (VmMaps ω × Int) := do
  if length = 0 then return (s, -posixEinval)
  if addr.toNat % pageSize ≠ 0 then return (s, -posixEinval)
  if !User.isUserAddress addr.toBitVec length.toBitVec then return (s, -posixEfault)
  match ← s.lookupLocked m addr.toNat, alignLength length.toNat with
  | none, _ | _, none => return (s, -posixEinval)
  | some _, some aligned =>
    let stop := u64 (addr.toNat + aligned)
    let s ← posixUnmapPages env s m addr.toNat stop
    let (s, _) ← s.removeRange env pick m addr.toNat stop
    return (s, 0)

theorem MapInv.onEnv (inv : MapInv s m l) (w : ω) : MapInv { s with env := w } m l :=
  inv.frame rfl fun _ _ => .of_links rfl rfl rfl rfl rfl rfl rfl

theorem posixUnmapPages_env (inv : MapInv s m l) (start stop : Nat) :
    ∃ w, posixUnmapPages env s m start stop = some { s with env := w } := by
  obtain ⟨_, ran, w, rfl⟩ :=
    Loop.foldlM_spec (posixUnmapPage env m) _ s (fun _ t => ∃ w, t = { s with env := w }) ⟨s.env, rfl⟩ (by
      rintro _ va _ _ - ⟨w, rfl⟩
      rw [posixUnmapPage, lookupLocked_spec (inv.onEnv w)]
      cases l.find? fun e => Covers { s with env := w } va e <;> exact ⟨_, rfl, _, rfl⟩)
  exact ⟨w, ran⟩

theorem remove_mapped (inv : MapInv s m l) (member : e ∈ l) (covers : Covers s addr e) :
    ∃ s', s.remove env m addr = some (s', 0) ∧ ∀ a, Mapped s' m a ↔ ∃ x ∈ l, x ≠ e ∧
    Covers s a x := by
  obtain ⟨_, _, rfl⟩ := append_of_mem member
  obtain ⟨s₁, unlinked, maps', entry⟩ := inv.maps.discard env (update_self m _ _)
  refine ⟨s₁.entryDestroy env e true, ?_, fun a => ?_⟩
  · simp only [VmMaps.remove, lookup_of_covers inv member covers, unlinked, bind_eq_bind, bind_some]
    rfl
  obtain ⟨off₁, off₂⟩ := inv.shape.thread.toLinked.fresh
  rw [mapped_iff (maps'.inv m _ (update_self m _ _))]
  simp only [Covers, entry, mem_append, mem_cons]
  constructor
  · rintro ⟨x, member | member, covers⟩
    · exact ⟨x, .inl member, ne_of_mem_of_not_mem member off₁, covers⟩
    · exact ⟨x, .inr (.inr member), ne_of_mem_of_not_mem member off₂, covers⟩
  · rintro ⟨x, which, other, covers⟩
    exact ⟨x, which.imp_right fun rest => rest.resolve_left other, covers⟩

theorem apiMemUnmap_spec (inv : MapInv s m l) (addr length : UInt64) :
    ∃ s' r, s.apiMemUnmap env m addr length = some (s', r) ∧
      (r = 0 → ∃ e ∈ l, Covers s addr.toNat e ∧ ∀ a, Mapped s' m a ↔ ∃ x ∈ l, x ≠ e ∧
        Covers s a x) := by
  unfold apiMemUnmap
  split_ifs
  iterate 3
    · exact ⟨s, _, rfl, fun zero => absurd zero (by decide)⟩
  rw [lookupLocked_spec inv]
  cases found : l.find? fun e => Covers s addr.toNat e with
  | none => exact ⟨s, _, rfl, fun zero => absurd zero (by decide)⟩
  | some e =>
    have member := mem_of_find?_eq_some found
    have covers : Covers s addr.toNat e := by simpa using find?_some found
    obtain ⟨s', removed, left⟩ := remove_mapped env
      (inv.onEnv (unmapPages env (s.entry e) addr.toNat (alignUp length.toNat) s.env)) member covers
    exact ⟨s', 0, by simp only [bind_eq_bind, bind_some, onEnv, removed]; rfl,
      fun _ => ⟨e, member, covers, left⟩⟩

/-- The addresses that are still mapped are the old ones outside the range. -/
def Unmaps (s : VmMaps ω) (m start stop : Nat) (s' : VmMaps ω) : Prop :=
  ∀ a, Mapped s' m a ↔ Mapped s m a ∧ ¬(start ≤ a ∧ a < stop)

theorem posixMunmap_spec (inv : MapInv s m l) (addr length : UInt64) :
    ∃ s' r, s.posixMunmap env pick m addr length = some (s', r) ∧
      (r = 0 → Unmaps s m addr.toNat (addr.toNat + alignUp length.toNat) s' ∨
        Inside s addr.toNat l ∨ Inside s (addr.toNat + alignUp length.toNat) l) := by
  unfold posixMunmap
  split_ifs
  iterate 3
    · exact ⟨s, _, rfl, fun zero => absurd zero (by decide)⟩
  next nonempty _ user =>
  have fits : addr.toNat + length.toNat ≤ 2 ^ 47 :=
    User.isUserAddress_le (by simpa using user) fun zero => nonempty (UInt64.toBitVec_inj.mp zero)
  obtain ⟨_, _, -⟩ := alignUp_spec (show length.toNat ≤ 2 ^ 47 by omega) (by decide) (by decide)
  have positive : 0 < length.toNat :=
    Nat.pos_of_ne_zero fun zero => nonempty (UInt64.toNat_inj.mp zero)
  have aligned : alignLength length.toNat = some (alignUp length.toNat) :=
    if_neg (by simp only [pageSize]; omega)
  have small : u64 (addr.toNat + alignUp length.toNat) = addr.toNat + alignUp length.toNat :=
    Nat.mod_eq_of_lt (by omega)
  simp only [lookupLocked_spec inv, aligned, bind_eq_bind]
  cases l.find? fun e => Covers s addr.toNat e with
  | none => exact ⟨s, _, rfl, fun zero => absurd zero (by decide)⟩
  | some e =>
    obtain ⟨w, pages⟩ := posixUnmapPages_env env inv addr.toNat (addr.toNat + alignUp length.toNat)
    obtain ⟨s', r, _, removed, _, outcome⟩ := removeRange_view env pick (inv.onEnv w)
      (show addr.toNat < addr.toNat + alignUp length.toNat by omega)
    refine ⟨s', 0, ?_, fun _ => outcome.imp (fun done a => ?_) fun failed => failed.2.1⟩
    · simp only [small, pages, removed, bind_some]
      rfl
    · have same : Mapped { s with env := w } m a ↔ Mapped s m a :=
        (mapped_iff (inv.onEnv w)).trans (mapped_iff inv).symm
      rw [← same, mapped_iff_view, mapped_iff_view, done.2.1]
      split_ifs with within <;> simp [within]

/-- The two calls agree exactly when the range takes in one entry, which starts at the address, and
meets no other: `api_mem_unmap` removes the entry at the address whatever the length is. -/
theorem unmaps_agree_iff (inv : MapInv s m l) (addr length : UInt64) :
    ∃ t r u q, s.apiMemUnmap env m addr length = some (t, r) ∧
      s.posixMunmap env pick m addr length = some (u, q) ∧
        (r = 0 → q = 0 → (Unmaps s m addr.toNat (addr.toNat + alignUp length.toNat) t ∧
        Unmaps s m addr.toNat (addr.toNat + alignUp length.toNat) u ↔
        ∃ e ∈ l, (s.entry e).start = addr.toNat ∧ (s.entry e).stop ≤ addr.toNat + alignUp length.toNat ∧
          ∀ x ∈ l, x ≠ e → (s.entry x).stop ≤ addr.toNat ∨ addr.toNat + alignUp length.toNat ≤ (s.entry x).start)) := by
  obtain ⟨t, r, native, removes⟩ := apiMemUnmap_spec env inv addr length
  obtain ⟨u, q, posix, exact⟩ := posixMunmap_spec env pick inv addr length
  refine ⟨t, r, u, q, native, posix, fun ok ok' => ?_⟩
  obtain ⟨e, member, covers, left⟩ := removes ok
  have apart := fun x inx => inv.ranges.disjoint (a := x) (b := e) inx member
  have nonempty := inv.ranges.nonempty e member
  obtain ⟨_, _⟩ := covers
  generalize addr.toNat + alignUp length.toNat = stop at *
  generalize addr.toNat = start at *
  constructor
  · rintro ⟨whole, -⟩
    have gone : ∀ a, Covers s a e → start ≤ a ∧ a < stop := by
      intro a here
      by_contra outside
      obtain ⟨x, inx, other, also⟩ := (left a).mp ((whole a).mpr ⟨(mapped_iff inv).mpr ⟨e, member, here⟩, outside⟩)
      have := apart x inx other
      simp only [Covers] at here also
      omega
    have first := gone (s.entry e).start ⟨Nat.le_refl _, nonempty⟩
    have last := gone ((s.entry e).stop - 1) ⟨by omega, by omega⟩
    refine ⟨e, member, by omega, by omega, fun x inx other => ?_⟩
    by_contra meets
    have := inv.ranges.nonempty x inx
    have kept :=
      (left (max (s.entry x).start start)).mpr ⟨x, inx, other, by simp only [Covers]; omega⟩
    exact ((whole _).mp kept).2 (by omega)
  · rintro ⟨e', member', here, whole, others⟩
    have same : e' = e := by
      by_contra different
      have := apart e' member' different
      have := inv.ranges.nonempty e' member'
      omega
    subst same
    refine ⟨fun a => ?_, (exact ok').resolve_right ?_⟩
    · rw [left, mapped_iff inv]
      constructor
      · rintro ⟨x, inx, other, also⟩
        refine ⟨⟨x, inx, also⟩, fun _ => ?_⟩
        have := others x inx other
        simp only [Covers] at also
        omega
      · rintro ⟨⟨x, inx, also⟩, outside⟩
        refine ⟨x, inx, ?_, also⟩
        rintro rfl
        simp only [Covers] at also
        omega
    · rintro (⟨x, inx, cross⟩ | ⟨x, inx, cross⟩)
      all_goals
        by_cases same : x = e'
        · subst same
          omega
        · have := others x inx same
          omega

/-- Both calls on the whole of the first file. -/
theorem unmaps_agree_whole : ∃ r t u, runSeparate fileRun = some r ∧
    r.state.apiMemUnmap stateless 0 0x1000 0x2000 = some (t, 0) ∧
    r.state.posixMunmap stateless firstUnused 0 0x1000 0x2000 = some (u, 0) ∧
    Unmaps r.state 0 0x1000 0x3000 t ∧ Unmaps r.state 0 0x1000 0x3000 u := by
  obtain ⟨r, ran, ready, ok, ok', one⟩ : ∃ r, runSeparate fileRun = some r ∧ 0 ∈ r.ready ∧
      (r.state.apiMemUnmap stateless 0 0x1000 0x2000).map Prod.snd = some 0 ∧
      (r.state.posixMunmap stateless firstUnused 0 0x1000 0x2000).map Prod.snd = some 0 ∧
      ∃ e ∈ entries r.state 0, (r.state.entry e).start = 0x1000 ∧ (r.state.entry e).stop ≤ 0x3000 ∧
        ∀ x ∈ entries r.state 0, x ≠ e → (r.state.entry x).stop ≤ 0x1000 ∨ 0x3000 ≤ (r.state.entry x).start :=
    Loop.exists_of_any (by decide +kernel)
  have inv := (run_good (runSeparate_reached ran)).inv ready
  obtain ⟨t, q, u, _, native, posix, agree⟩ :=
    unmaps_agree_iff stateless firstUnused inv 0x1000 0x2000
  rw [native, map_some, some.injEq] at ok
  rw [posix, map_some, some.injEq] at ok'
  exact ⟨r, t, u, ran, ok ▸ native, ok' ▸ posix, (agree ok ok').mpr one⟩

/-- The first page of the second file: `api_mem_unmap` takes the other pages as well. -/
theorem unmap_takes_whole_entry : ∃ r t u, runSeparate fileRun = some r ∧
    r.state.apiMemUnmap stateless 0 0x8000 0x1000 = some (t, 0) ∧
    r.state.posixMunmap stateless firstUnused 0 0x8000 0x1000 = some (u, 0) ∧
    Mapped r.state 0 0x9000 ∧ ¬Mapped t 0 0x9000 ∧ Mapped u 0 0x9000 := by
  obtain ⟨r, ran, before, first, second⟩ : ∃ r, runSeparate fileRun = some r ∧
      r.state.lookupLocked 0 0x9000 = some (some 1) ∧
      ((r.state.apiMemUnmap stateless 0 0x8000 0x1000).any fun answer =>
        answer.2 = 0 ∧ answer.1.lookupLocked 0 0x9000 = some none) ∧
      (r.state.posixMunmap stateless firstUnused 0 0x8000 0x1000).any fun answer =>
        answer.2 = 0 ∧ answer.1.lookupLocked 0 0x9000 = some (some 2) := Loop.exists_of_any (by decide +kernel)
  obtain ⟨⟨t, _⟩, native, rfl, gone⟩ := Loop.exists_of_any first
  obtain ⟨⟨u, _⟩, posix, rfl, kept⟩ := Loop.exists_of_any second
  exact ⟨r, t, u, ran, native, posix, ⟨1, before⟩, by simp [Mapped, gone], ⟨2, kept⟩⟩

end Otsos.VmMaps
