import Otsos.Map.Operations

/-! `vm_map_fork`: the copies are made outside of any map and then linked into the child. -/
namespace Otsos.VmMaps
open Function (update update_self)
open List
attribute [local simp] setEntry

variable {s : VmMaps ω} {own : Owners} {env : Backing ω}

/-- Apart from the copy and from objects, entries and maps have not changed. -/
structure Forked (s s' : VmMaps ω) (copy : Nat) : Prop where
  header : s'.header = s.header
  next : ∀ x, x ≠ copy → s'.next x = s.next x
  same : ∀ x, x ≠ copy → SameRange s s' x

theorem forkObject_spec (env : Backing ω) (other : e ≠ copy) :
    Forked s (forkObject env s e copy).1 copy ∧ ((forkObject env s e copy).2 = true →
      (forkObject env s e copy).1.live copy = s.live copy ∧
      ((forkObject env s e copy).1.entry copy).start = (s.entry copy).start ∧
      ((forkObject env s e copy).1.entry copy).stop = (s.entry copy).stop) := by
  unfold forkObject
  cases (s.entry e).object with
  | none => exact ⟨⟨rfl, fun _ _ => rfl, fun x _ => .of_links rfl rfl rfl rfl rfl rfl rfl⟩, by simp⟩
  | some object =>
    dsimp only
    split_ifs
    · obtain ⟨w, same⟩ := shmAttachEntry_env env
        ((s.setEntry copy fun c => { c with object := some object }).onEnv (env.objectRef · object)) copy
      rw [same]
      refine ⟨⟨rfl, fun _ _ => rfl, fun x ne => ?_⟩, fun _ => ⟨rfl, ?_, ?_⟩⟩
      · refine .of_links rfl rfl rfl rfl rfl ?_ rfl
        simp [onEnv, ne]
      · simp [onEnv]
      · simp [onEnv]
    · have released : ∀ w, Forked s ({ s with env := w }.entryRelease copy) copy := fun w =>
        ⟨rfl, fun _ _ => rfl, fun x ne =>
          .of_links rfl rfl rfl rfl rfl rfl (by simp [entryRelease, ne])⟩
      rcases env.createShadow s.env object with ⟨w, _ | _⟩
      · exact ⟨released w, by simp⟩
      dsimp only
      rcases env.createShadow w object with ⟨_, _ | _⟩
      · exact ⟨released _, by simp⟩
      refine ⟨⟨rfl, fun _ _ => rfl, fun x ne => ⟨⟨⟨rfl, rfl, fun _ => rfl⟩, rfl, rfl⟩, ?_, ?_,
        rfl⟩⟩, fun _ => ⟨rfl, ?_, ?_⟩⟩
      iterate 2
        · by_cases here : x = e <;> simp [ne, here, other]
      · simp [Ne.symm other]
      · simp [Ne.symm other]

theorem Forked.trans (first : Forked s s' copy) (second : Forked s' s'' copy) :
    Forked s s'' copy := by
  refine ⟨second.header.trans first.header, fun x ne => (second.next x ne).trans (first.next x ne),
    fun x ne => ?_⟩
  have a := first.same x ne
  have b := second.same x ne
  exact ⟨a.links.trans b.links, b.start.trans a.start, b.stop.trans a.stop, b.live.trans a.live⟩

theorem Forked.maps (forked : Forked s s' copy) (free : ¬Owned own copy) (maps : Maps s own) :
    Maps s' own :=
  maps.frame (fun m _ => by rw [forked.header]) fun x owned => forked.same x (owned.ne free)

def range (s : VmMaps ω) (x : Nat) : Nat × Nat := ((s.entry x).start, (s.entry x).stop)

theorem SameRange.range_eq (same : SameRange s s' x) : s'.range x = s.range x := by
  rw [range, range, same.start, same.stop]

/-- Copies that are in no map yet. -/
structure Copies (s : VmMaps ω) (own : Owners) (cs : List Nat) : Prop where
  nodup : cs.Nodup
  free : ∀ c ∈ cs, ¬Owned own c
  live : ∀ c ∈ cs, s.live c = true

variable {cs : List Nat}

theorem forkCopies_spec (env : Backing ω) (pick : VmMaps ω → Option Nat) (fuel : Nat)
    (maps : Maps s own) (holds : own p = some (l₁ ++ l₂)) (copies : Copies s own cs)
    (ranges : cs.map s.range = l₁.map s.range) (enough : l₂.length < fuel) :
    ∃ s' cs' done, forkCopies env pick fuel s l₂.head? cs = some (s', cs', done) ∧ Maps s' own ∧
      Copies s' own cs' ∧ s'.header = s.header ∧ (∀ x, Owned own x → s'.range x = s.range x) ∧
      (done = true → cs'.map s'.range = (l₁ ++ l₂).map s'.range) := by
  induction l₂, fuel, enough using Loop.walk_induction generalizing s l₁ cs with
  | nil =>
    exact ⟨s, cs, true, rfl, maps, copies, rfl, fun _ _ => rfl, fun _ => by simpa using ranges⟩
  | cons e l₂ fuel _ ih =>
    have inv := maps.inv p _ holds
    obtain ⟨_, next⟩ := inv.shape.thread.toLinked.links_at
    simp only [head?_cons, forkCopies]
    cases answer : s.entryAlloc pick with
    | none => exact ⟨s, cs, false, rfl, maps, copies, rfl, fun _ _ => rfl, by simp⟩
    | some result =>
      obtain ⟨s₁, copy⟩ := result
      have allocated := entryAlloc_spec answer
      obtain ⟨_, free⟩ := allocated.maps maps
      have owned : Owned own e := ⟨p, _, holds, by simp⟩
      have other : e ≠ copy := owned.ne free
      dsimp only
      set s₂ := s₁.setEntry copy fun _ => { s₁.entry e with object := none } with s₂_eq
      obtain ⟨forked, granted⟩ := forkObject_spec (s := s₂) env other
      have start : Forked s s₂ copy := by
        refine ⟨allocated.header, fun x ne => (allocated.same x ne).1.2.1, fun x ne => ?_⟩
        obtain ⟨links, entry, live⟩ := allocated.same x ne
        have same : s₂.entry x = s.entry x := by simpa [s₂_eq, ne] using entry
        exact ⟨links, by rw [same], by rw [same], live⟩
      have whole := start.trans forked
      generalize forkObject env s₂ e copy = outcome at *
      obtain ⟨s₃, done⟩ := outcome
      have maps₃ : Maps s₃ own := whole.maps free maps
      have kept : ∀ c ∈ cs, c ≠ copy := by
        rintro c member rfl
        exact Bool.false_ne_true (allocated.unused.symm.trans (copies.live c member))
      have copies₃ : Copies s₃ own cs := ⟨copies.nodup, copies.free, fun c member =>
        (whole.same c (kept c member)).live.trans (copies.live c member)⟩
      have same : ∀ x, Owned own x → s₃.range x = s.range x := fun x owned =>
        (whole.same x (owned.ne free)).range_eq
      cases done with
      | false => exact ⟨s₃, cs, false, rfl, maps₃, copies₃, whole.header, same, by simp⟩
      | true =>
        obtain ⟨live, start_eq, stop_eq⟩ := granted rfl
        have copied : s₃.range copy = s₃.range e := by
          have entry : s₁.entry e = s.entry e := (allocated.same e other).2.1
          rw [same e owned, range, start_eq, stop_eq]
          simp [s₂_eq, entry, range]
        have more : Copies s₃ own (cs ++ [copy]) := by
          refine ⟨?_, ?_, ?_⟩
          · exact nodup_append.mpr ⟨copies.nodup, by simp, by simpa using kept⟩
          · simpa [or_imp, forall_and] using ⟨copies.free, free⟩
          · simpa [or_imp, forall_and] using ⟨copies₃.live, live.trans allocated.live⟩
        have ranges₃ : (cs ++ [copy]).map s₃.range = (l₁ ++ [e]).map s₃.range := by
          have first : cs.map s₃.range = cs.map s.range := map_congr_left fun c member =>
            (whole.same c (kept c member)).range_eq
          have second : l₁.map s₃.range = l₁.map s.range := map_congr_left fun x member =>
            same x ⟨p, _, holds, by simp [member]⟩
          simp only [map_append, map_cons, first, second, ranges, copied]
        obtain ⟨s', cs', done', run, maps', copies', header', same', result⟩ := ih maps₃
          (show own p = some ((l₁ ++ [e]) ++ l₂) by simpa using holds) more ranges₃
        refine ⟨s', cs', done', ?_, maps', copies', header'.trans whole.header,
          fun x owned => (same' x owned).trans (same x owned), by simpa using result⟩
        have nextNode : s₃.next e = l₂.head? := (whole.next e other).trans next
        dsimp only
        rw [nextNode]
        exact run

theorem linkCopies_spec (maps : Maps s own) (holds : own c = some lc)
    (copies : Copies s own cs) (nonempty : ∀ x ∈ cs, (s.entry x).start < (s.entry x).stop)
    (inside : ∀ x ∈ cs, (s.header c).minAddr ≤ (s.entry x).start ∧ (s.entry x).stop ≤ (s.header c).maxAddr)
    (sorted : cs.Pairwise fun a b => (s.entry a).stop ≤ (s.entry b).start)
    (apart : ∀ x ∈ cs, Unused s (s.entry x).start (s.entry x).stop none lc) :
    ∃ s' lc', cs.foldlM (fun s copy => s.link c copy) s = some s' ∧
    Maps s' (update own c (some lc')) := by
  induction cs generalizing s own lc with
  | nil => exact ⟨s, lc, rfl, by rwa [update_holds holds]⟩
  | cons x cs ih =>
    have inv := maps.inv c lc holds
    obtain ⟨first, _⟩ := pairwise_cons.mp sorted
    obtain ⟨new, nodup⟩ := nodup_cons.mp copies.nodup
    have free := copies.free x (by simp)
    obtain ⟨l₁, l₂, rfl, below, above⟩ := inv.ranges.cut (apart x (by simp))
    obtain ⟨_, linked, maps₁, relinked⟩ := maps.link holds free (copies.live x (by simp))
      (nonempty x (by simp)) (inside x (by simp)) below above
    have holds₁ : update own c (some (l₁ ++ x :: l₂)) c = some (l₁ ++ x :: l₂) :=
      update_self c _ _
    have unowned : ∀ y ∈ cs, ¬Owned (update own c (some (l₁ ++ x :: l₂))) y := by
      rintro y member ⟨m, l, holdsm, inl⟩
      have freey := copies.free y (by simp [member])
      by_cases here : m = c
      · subst here
        rw [update_self] at holdsm
        cases holdsm
        simp only [mem_append, mem_cons] at inl
        rcases inl with inl | rfl | inl
        · exact freey ⟨m, _, holds, by simp [inl]⟩
        · exact new member
        · exact freey ⟨m, _, holds, by simp [inl]⟩
      · rw [Function.update_of_ne here] at holdsm
        exact freey ⟨m, l, holdsm, inl⟩
    obtain ⟨s', lc', run, maps'⟩ := ih maps₁ holds₁
      ⟨nodup, unowned, fun y member => by rw [relinked.live]; exact copies.live y (by simp [member])⟩
      (fun y member => by rw [relinked.entry]; exact nonempty y (by simp [member]))
      (fun y member => by
        rw [relinked.entry, relinked.bounds.1, relinked.bounds.2.1]
        exact inside y (by simp [member]))
      (by rwa [relinked.entry])
      (fun y member z inl _ => by
        rw [relinked.entry]
        simp only [mem_append, mem_cons] at inl
        rcases inl with inl | rfl | inl
        · exact apart y (by simp [member]) z (by simp [inl]) (by simp)
        · exact .inr (first y member)
        · exact apart y (by simp [member]) z (by simp [inl]) (by simp))
    rw [Function.update_idem] at maps'
    exact ⟨s', lc', by simp [linked, run], maps'⟩

theorem Maps.destroyAll (maps : Maps s own) (free : ∀ c ∈ cs, ¬Owned own c) :
    Maps (cs.foldl (fun s copy => s.entryDestroy env copy false) s) own := by
  induction cs generalizing s with
  | nil => exact maps
  | cons x cs ih =>
    exact ih (maps.destroy (free x (by simp)) false) fun c member => free c (by simp [member])

theorem Maps.rebound (maps : Maps s own) (holds : own c = some lc) (low high hint : Nat)
    (bounded : high < 2 ^ 64) (inside : ∀ x ∈ lc, low ≤ (s.entry x).start ∧
      (s.entry x).stop ≤ high) :
    Maps (s.setHeader c fun h => { h with minAddr := low, maxAddr := high, hint := hint }) own := by
  have inv := maps.inv c lc holds
  rw [← update_holds holds]
  refine maps.replace holds ⟨?_, ⟨inv.ranges.sorted, inv.ranges.nonempty, fun x member => ?_⟩,
      inv.live, by simpa [setHeader] using bounded⟩
    (fun x member off => absurd member off) (fun m other => ?_)
    fun x _ _ => .of_links rfl rfl rfl rfl rfl rfl rfl
  · exact inv.shape.frame (by simp [setHeader]) (by simp [setHeader]) (by simp [setHeader])
      (by simp [setHeader]) fun x _ => ⟨⟨rfl, rfl, fun _ => rfl⟩, rfl, rfl⟩
  · simpa [setHeader] using inside x member
  · simp [setHeader, other]

/-- A fork into a child whose entries, if it has any, overlap none of the parent's and fit into the
parent's bounds. -/
theorem fork_spec (env : Backing ω) (pick : VmMaps ω → Option Nat) {lp : List Nat}
    (maps : Maps s own) (holdsp : own p = some lp) (holdsc : own c = some lc)
    (apart : ∀ x ∈ lp, Unused s (s.entry x).start (s.entry x).stop none lc)
    (inside : ∀ y ∈ lc, (s.header p).minAddr ≤ (s.entry y).start ∧ (s.entry y).stop ≤ (s.header p).maxAddr) :
    Kept own c (s.fork env pick p c) := by
  by_cases self : p = c
  · exact .refused maps holdsc (by simp [fork, self])
  have inv := maps.inv p lp holdsp
  have none : Copies s own [] := ⟨nodup_nil, by simp, by simp⟩
  obtain ⟨s₁, cs, done, copied, maps₁, copies, _, same, result⟩ := forkCopies_spec env pick
    ((s.header p).entryCount + 1) maps (show own p = some ([] ++ lp) from holdsp) none rfl
    (by rw [inv.shape.count]; omega)
  rw [← inv.shape.thread.head_eq] at copied
  cases done with
  | false =>
    exact .refused (maps₁.destroyAll copies.free) holdsc (by simp [fork, self, copied]; rfl)
  | true =>
    -- the copies have the ranges of the parent's entries
    have ranges : cs.map s₁.range = lp.map s.range := by
      rw [result rfl]
      exact map_congr_left fun x member => same x ⟨p, lp, holdsp, member⟩
    have partner : ∀ x ∈ cs, ∃ y ∈ lp, s₁.range x = s.range y := by
      intro x member
      have image : s₁.range x ∈ lp.map s.range := ranges ▸ mem_map_of_mem member
      obtain ⟨y, inl, equal⟩ := mem_map.mp image
      exact ⟨y, inl, equal.symm⟩
    set s₂ := s₁.setHeader c fun h => { h with
      minAddr := (s.header p).minAddr, maxAddr := (s.header p).maxAddr, hint := (s.header p).hint }
      with s₂_eq
    have maps₂ : Maps s₂ own := by
      refine maps₁.rebound holdsc _ _ _ inv.bounded fun y inl => ?_
      have := same y ⟨c, lc, holdsc, inl⟩
      simp only [range, Prod.mk.injEq] at this
      rw [this.1, this.2]
      exact inside y inl
    have sorted : cs.Pairwise fun a b => (s₂.entry a).stop ≤ (s₂.entry b).start := by
      have parents : (lp.map s.range).Pairwise fun a b => a.2 ≤ b.1 :=
        pairwise_map.mpr inv.ranges.sorted
      rw [← ranges] at parents
      exact pairwise_map.mp parents
    have copies₂ : Copies s₂ own cs := ⟨copies.nodup, copies.free, copies.live⟩
    have bounds : (s₂.header c).minAddr = (s.header p).minAddr ∧
        (s₂.header c).maxAddr = (s.header p).maxAddr := by
      simp [s₂_eq, setHeader]
    have of_partner : ∀ x ∈ cs, ∃ y ∈ lp, (s₂.entry x).start = (s.entry y).start ∧
        (s₂.entry x).stop = (s.entry y).stop := by
      intro x member
      obtain ⟨y, inl, equal⟩ := partner x member
      simp only [range, Prod.mk.injEq] at equal
      exact ⟨y, inl, equal⟩
    obtain ⟨s', lc', linked, maps'⟩ := linkCopies_spec maps₂ holdsc copies₂
      (by
        intro x member
        obtain ⟨y, inl, start, stop⟩ := of_partner x member
        rw [start, stop]
        exact inv.ranges.nonempty y inl)
      (by
        intro x member
        obtain ⟨y, inl, start, stop⟩ := of_partner x member
        rw [start, stop, bounds.1, bounds.2]
        exact inv.ranges.inside y inl)
      sorted
      (by
        intro x member z inlc _
        obtain ⟨y, inl, start, stop⟩ := of_partner x member
        have kept := same z ⟨c, lc, holdsc, inlc⟩
        simp only [range, Prod.mk.injEq] at kept
        rw [start, stop]
        change _ ≤ (s₁.entry z).start ∨ (s₁.entry z).stop ≤ _
        rw [kept.1, kept.2]
        exact apart y inl z inlc (by simp))
    exact ⟨s', 0, lc', by simp [fork, self, copied, ← s₂_eq, linked], maps'⟩

end Otsos.VmMaps
