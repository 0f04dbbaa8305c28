import Otsos.Map.Invariant

/-! What each map operation does to the maps. -/
namespace Otsos.VmMaps
open Function (update update_idem update_of_ne update_self)
open RedBlack RedBlack.Tree VmMap.RbTree
open List Option

variable {own : Owners} {env : Backing ω}

theorem SameRange.of_links (child : s'.rbChild = s.rbChild) (parent : s'.rbParent = s.rbParent)
    (color : s'.rbColor = s.rbColor) (next : s'.next = s.next) (prev : s'.prev = s.prev)
    (entry : s'.entry x = s.entry x) (live : s'.live x = s.live x) : SameRange s s' x :=
  ⟨⟨⟨congrFun color x, congrFun parent x, fun d => congrFun (congrFun child d) x⟩,
    congrFun next x, congrFun prev x⟩, by rw [entry], by rw [entry], live⟩

/-- Only the state of the other components has changed. -/
def OnlyEnv (s s' : VmMaps ω) : Prop := ∃ w, s' = { s with env := w }

theorem OnlyEnv.trans (first : OnlyEnv s s') (second : OnlyEnv s' s'') : OnlyEnv s s'' := by
  obtain ⟨w, rfl⟩ := first
  obtain ⟨w', rfl⟩ := second
  exact ⟨w', rfl⟩

theorem OnlyEnv.maps (only : OnlyEnv s s') (maps : Maps s own) : Maps s' own := by
  obtain ⟨w, rfl⟩ := only
  exact maps.frame (fun _ _ => rfl) fun _ _ => .of_links rfl rfl rfl rfl rfl rfl rfl

section
variable (env)

section
variable (s : VmMaps ω) (e : Nat)

theorem shmAttachEntry_env : OnlyEnv s (shmAttachEntry env s e) := by
  unfold shmAttachEntry
  cases (s.entry e).object with
  | none => exact ⟨s.env, rfl⟩
  | some object => dsimp only; split <;> exact ⟨_, rfl⟩

theorem shmDetachEntry_env : OnlyEnv s (shmDetachEntry env s e) := by
  unfold shmDetachEntry
  cases (s.entry e).object with
  | none => exact ⟨s.env, rfl⟩
  | some object => dsimp only; split <;> exact ⟨_, rfl⟩

theorem refEntry_env : OnlyEnv s (refEntry env s e) := by
  unfold refEntry
  cases (s.entry e).object <;> exact ⟨_, rfl⟩

theorem unrefEntry_env : OnlyEnv s (unrefEntry env s e) := by
  unfold unrefEntry
  cases (s.entry e).object <;> exact ⟨_, rfl⟩

theorem entryDestroy_eq (removePmap : Bool) : ∃ w, entryDestroy env s e removePmap =
    { s with env := w, live := update s.live e false } := by
  have first : OnlyEnv s (if removePmap then unmapRange env s e else s) := by
    cases removePmap <;> exact ⟨_, rfl⟩
  obtain ⟨w, same⟩ := (first.trans (shmDetachEntry_env env _ e)).trans (unrefEntry_env env _ e)
  refine ⟨w, ?_⟩
  unfold entryDestroy
  dsimp only
  rw [same]
  rfl

end

end

theorem Maps.destroy (maps : Maps s own) (free : ¬Owned own e) (removePmap : Bool) :
    Maps (entryDestroy env s e removePmap) own := by
  obtain ⟨w, same⟩ := entryDestroy_eq env s e removePmap
  rw [same]
  refine maps.frame (fun _ _ => rfl) fun x owned => .of_links rfl rfl rfl rfl rfl rfl ?_
  exact update_of_ne (owned.ne free) _ _

/-- What the zone answers. -/
structure Allocated (s s' : VmMaps ω) (e : Nat) : Prop where
  unused : s.live e = false
  live : s'.live e = true
  header : s'.header = s.header
  env : s'.env = s.env
  same : ∀ x, x ≠ e → SameEntry s s' x

theorem entryAlloc_spec (answer : s.entryAlloc pick = some (s', e)) : Allocated s s' e := by
  unfold entryAlloc at answer
  cases picked : pick s with
  | none => simp [picked] at answer
  | some x =>
    cases live : s.live x with
    | true => simp [picked, live] at answer
    | false =>
      simp only [picked, live] at answer
      obtain ⟨rfl, rfl⟩ := answer
      refine ⟨live, by simp, rfl, rfl, fun y other => ⟨⟨⟨?_, ?_, fun d => ?_⟩, ?_, ?_⟩, ?_, ?_⟩⟩
      all_goals simp [tree, other]

theorem Allocated.maps (allocated : Allocated s s' e) (maps : Maps s own) :
    Maps s' own ∧ ¬Owned own e := by
  have free : ¬Owned own e := fun owned =>
    Bool.false_ne_true (allocated.unused.symm.trans (maps.live owned))
  refine ⟨maps.frame (fun m _ => by rw [allocated.header]) fun x owned => ?_, free⟩
  exact (allocated.same x (owned.ne free)).range

theorem Maps.setEntry (maps : Maps s own) (free : ¬Owned own e) (f : VmMapEntry → VmMapEntry) :
    Maps (s.setEntry e f) own := by
  refine maps.frame (fun _ _ => rfl) fun x owned => .of_links rfl rfl rfl rfl rfl ?_ rfl
  exact update_of_ne (owned.ne free) _ _

theorem update_holds (holds : own m = some l) : update own m (some l) = own :=
  Function.update_eq_self_iff.mpr holds.symm

/-- The call answers, and the maps stay in order, whatever entries `m` then has. -/
def Kept (own : Owners) (m : Nat) (answer : Option (VmMaps ω × Int)) : Prop :=
  ∃ s' r l', answer = some (s', r) ∧ Maps s' (update own m (some l'))

theorem Kept.refused (maps : Maps s own) (holds : own m = some l)
    (refuses : answer = some (s, -1)) : Kept own m answer :=
  ⟨s, -1, l, refuses, by rwa [update_holds holds]⟩

theorem Maps.shrink (maps : Maps s own) (holds : own m = some l) (member : e ∈ l)
    (low : (s.entry e).start < addr) (high : addr ≤ (s.entry e).stop) :
    Maps (s.setEntry e fun ent => { ent with stop := addr }) own := by
  have inv := maps.inv m l holds
  have kept : ∀ x, ((s.setEntry e fun ent => { ent with stop := addr }).entry x).start =
      (s.entry x).start ∧ ((s.setEntry e fun ent => { ent with stop := addr }).entry x).stop ≤
      (s.entry x).stop := by
    intro x
    by_cases here : x = e
    · subst here
      simp [VmMaps.setEntry, high]
    · simp [VmMaps.setEntry, here]
  rw [← update_holds holds]
  refine maps.replace holds ⟨?_, ⟨?_, ?_, ?_⟩, inv.live, inv.bounded⟩
    (fun x member off => absurd member off) (fun _ _ => rfl) fun x _ off =>
    .of_links rfl rfl rfl rfl rfl ?_ rfl
  · exact inv.shape.frame rfl rfl rfl rfl fun _ _ => ⟨⟨rfl, rfl, fun _ => rfl⟩, rfl, rfl⟩
  · refine inv.ranges.sorted.imp fun {a b} order => ?_
    rw [(kept b).1]
    exact Nat.le_trans (kept a).2 order
  · intro x inl
    by_cases here : x = e
    · subst here
      simpa [VmMaps.setEntry] using low
    · simpa [VmMaps.setEntry, here] using inv.ranges.nonempty x inl
  · intro x inl
    obtain ⟨bottom, top⟩ := inv.ranges.inside x inl
    rw [(kept x).1]
    exact ⟨bottom, Nat.le_trans (kept x).2 top⟩
  · exact update_of_ne (ne_of_mem_of_not_mem member off).symm _ _

/-- The entry `left` was cut at `addr`; the part from there on is the new entry `right`. -/
structure Split (s s' : VmMaps ω) (left right addr : Nat) : Prop where
  unused : s.live right = false
  low : (s.entry left).start < addr
  high : addr < (s.entry left).stop
  left_eq : s'.entry left = { s.entry left with stop := addr }
  right_eq : s'.entry right = { s.entry left with
    start := addr, objectBase := u64 ((s.entry left).objectBase + (addr - (s.entry left).start)) }
  others : ∀ x, x ≠ left → x ≠ right → s'.entry x = s.entry x

/-- The address is inside an entry, not at its start. -/
def Inside (s : VmMaps ω) (addr : Nat) (l : List Nat) : Prop :=
  ∃ e ∈ l, (s.entry e).start < addr ∧ addr < (s.entry e).stop

/-- The three outcomes of a clip. -/
inductive ClipOutcome (s : VmMaps ω) (pick : VmMaps ω → Option Nat) (own : Owners) (m addr : Nat)
    (l : List Nat) : VmMaps ω → Int → Prop
  | boundary (apart : ¬Inside s addr l) : ClipOutcome s pick own m addr l s 0
  | noMemory (inside : Inside s addr l) (full : s.entryAlloc pick = none) : ClipOutcome s pick own m addr l s (-1)
  | split (l₁ l₂ : List Nat) (left right : Nat) (parts : l = l₁ ++ left :: l₂)
      (granted : s.entryAlloc pick ≠ none) (split : Split s s' left right addr)
      (maps : Maps s' (update own m (some (l₁ ++ left :: right :: l₂)))) :
      ClipOutcome s pick own m addr l s' 0

theorem ClipOutcome.maps (outcome : ClipOutcome s pick own m addr l s' r)
    (maps : Maps s own) (holds : own m = some l) : ∃ l', Maps s' (update own m (some l')) := by
  cases outcome with
  | boundary => exact ⟨l, by rwa [update_holds holds]⟩
  | noMemory => exact ⟨l, by rwa [update_holds holds]⟩
  | split l₁ l₂ left right parts granted split maps' => exact ⟨_, maps'⟩

variable (env) (pick : VmMaps ω → Option Nat) {s : VmMaps ω}

theorem Ranges.cut (ranges : Ranges s m l) (unused : Unused s start stop none l) : ∃ l₁ l₂, l = l₁ ++ l₂ ∧
      (∀ a ∈ l₁, (s.entry a).stop ≤ start) ∧ ∀ b ∈ l₂, stop ≤ (s.entry b).start := by
  induction l with
  | nil => exact ⟨[], [], rfl, by simp, by simp⟩
  | cons a l ih =>
    obtain ⟨first, sorted⟩ := pairwise_cons.mp ranges.sorted
    rcases unused a (by simp) (by simp) with behind | ahead
    · refine ⟨[], a :: l, rfl, by simp, fun b member => ?_⟩
      rcases mem_cons.mp member with rfl | member
      · exact behind
      · have := first b member
        have := ranges.nonempty a (by simp)
        omega
    · have rest : Ranges s m l := ⟨sorted, fun e member => ranges.nonempty e (by simp [member]),
        fun e member => ranges.inside e (by simp [member])⟩
      obtain ⟨l₁, l₂, rfl, below, above⟩ := ih rest fun b member => unused b (by simp [member])
      exact ⟨a :: l₁, l₂, rfl, by simpa using ⟨ahead, below⟩, above⟩

theorem Maps.discard (maps : Maps s own) (holds : own m = some (l₁ ++ e :: l₂)) :
    ∃ s₁, s.unlink m e = some s₁ ∧ Maps (s₁.entryDestroy env e true) (update own m (some (l₁ ++ l₂))) ∧
      (s₁.entryDestroy env e true).entry = s.entry := by
  obtain ⟨s₁, computed, maps₁, free, relinked⟩ := maps.unlink holds
  refine ⟨s₁, computed, maps₁.destroy free true, ?_⟩
  obtain ⟨w, same⟩ := entryDestroy_eq env s₁ e true
  rw [same]
  exact relinked.entry

/-- The entry lies in the removed range. -/
def InRange (s : VmMaps ω) (start stop e : Nat) : Prop :=
  start ≤ (s.entry e).start ∧ (s.entry e).stop ≤ stop

instance (s : VmMaps ω) (start stop e : Nat) : Decidable (InRange s start stop e) :=
  inferInstanceAs (Decidable (_ ∧ _))

theorem removeFrom_spec (start stop fuel : Nat) (removed : Bool) (maps : Maps s own)
    (holds : own m = some (l₁ ++ l₂)) (enough : l₂.length < fuel) :
    ∃ s' removed', removeFrom env m start stop fuel s l₂.head? removed = some (s', removed') ∧
      Maps s' (update own m (some (l₁ ++ l₂.filter fun e => ¬InRange s start stop e))) ∧
      s'.entry = s.entry ∧ (removed' ↔ removed ∨ ∃ e ∈ l₂, InRange s start stop e) := by
  induction l₂, fuel, enough using Loop.walk_induction generalizing s own l₁ removed with
  | nil =>
    exact ⟨s, removed, rfl, by rwa [filter_nil, update_holds holds], rfl, by simp⟩
  | cons e l₂ fuel _ ih =>
    have inv := maps.inv m _ holds
    obtain ⟨_, next⟩ := inv.shape.thread.toLinked.links_at
    simp only [head?_cons, removeFrom, next]
    split_ifs with behind inside
    · -- the walk stops; the remaining entries lie behind the range
      have sorted := (pairwise_append.mp inv.ranges.sorted).2.1
      have outside : ∀ a ∈ e :: l₂, ¬InRange s start stop a := by
        intro a member within
        have nonempty := inv.ranges.nonempty a (mem_append_right l₁ member)
        have order : (s.entry e).start ≤ (s.entry a).start := by
          rcases mem_cons.mp member with rfl | member
          · exact Nat.le_refl _
          · have := (pairwise_cons.mp sorted).1 a member
            have := inv.ranges.nonempty e (by simp)
            omega
        have := within.2
        omega
      have kept : (e :: l₂).filter (fun e => ¬InRange s start stop e) = e :: l₂ :=
        filter_eq_self.mpr (by simpa using outside)
      exact ⟨s, removed, rfl, by rwa [kept, update_holds holds], rfl, .inl, fun any =>
        any.elim id fun ⟨a, member, within⟩ => absurd within (outside a member)⟩
    · have within : InRange s start stop e := inside
      obtain ⟨s₁, computed, maps₁, entry₁⟩ := maps.discard env holds
      obtain ⟨s', removed', rest, maps', entry', some'⟩ := ih true maps₁ (update_self m _ _)
      refine ⟨s', removed', by simp [computed, rest], ?_, entry'.trans entry₁, by simp [some', within]⟩
      rw [update_idem] at maps'
      have same : ∀ x, InRange (s₁.entryDestroy env e true) start stop x ↔ InRange s start stop x :=
        fun x => by rw [InRange, InRange, entry₁]
      simp only [same] at maps'
      rwa [filter_cons_of_neg (by simpa using within)]
    · obtain ⟨s', removed', rest, maps', entry', some'⟩ :=
        ih removed maps (show own m = some ((l₁ ++ [e]) ++ l₂) by simpa using holds)
      have kept : ¬InRange s start stop e := inside
      exact ⟨s', removed', rest, by simpa [kept] using maps', entry', by simpa [kept] using some'⟩

/-- The removal is the walk over the map that the clips of the range leave. -/
theorem removeRange_eq (s : VmMaps ω) (m start stop : Nat) :
    s.removeRange env pick m start stop = (s.clipRange env pick m start stop).bind fun (s, clipped) =>
      if clipped ≠ 0 then some (s, -1)
      else (removeFrom env m start stop ((s.header m).entryCount + 1) s (s.header m).head false).map
        fun (s, removed) => (s, if removed then 0 else -1) := by
  unfold removeRange clipRange
  by_cases empty : stop ≤ start
  · simp [empty]
  rcases s.clipLocked env pick m start with _ | ⟨s₁, first⟩
  · simp [empty]
  by_cases ok : first = 0
  · simp only [empty, if_false, ok, ne_eq, not_true_eq_false, if_true, bind_eq_bind, bind_some,
      map_eq_bind]
    rfl
  · simp [empty, ok]

section
variable (maps : Maps s own) (holds : own m = some l)
include maps holds

theorem clipLocked_spec (addr : Nat) :
    ∃ s' r, s.clipLocked env pick m addr = some (s', r) ∧ ClipOutcome s pick own m addr l s' r := by
  have inv := maps.inv m l holds
  rw [clipLocked, lookupLocked_spec inv addr]
  simp only [bind_eq_bind, bind_some]
  cases found : l.find? (fun e => Covers s addr e) with
  | none =>
    refine ⟨s, 0, rfl, .boundary ?_⟩
    rintro ⟨e, member, low, high⟩
    have missed := find?_eq_none.mp found e member
    exact missed (by simpa using ⟨Nat.le_of_lt low, high⟩)
  | some left =>
    have member := mem_of_find?_eq_some found
    have covers : Covers s addr left := by simpa using find?_some found
    dsimp only
    split_ifs with edge
    · -- the address is the start of the entry that covers it, so it is inside no other
      refine ⟨s, 0, rfl, .boundary ?_⟩
      rintro ⟨e, member', low, high⟩
      have other : e ≠ left := by
        rintro rfl
        omega
      have := inv.ranges.disjoint member' member other
      have := covers.2
      omega
    · have low : (s.entry left).start < addr := by
        have := covers.1
        omega
      cases answer : s.entryAlloc pick with
      | none => exact ⟨s, -1, rfl, .noMemory ⟨left, member, low, covers.2⟩ answer⟩
      | some result =>
        obtain ⟨s₁, right⟩ := result
        have allocated := entryAlloc_spec answer
        obtain ⟨maps₁, free⟩ := allocated.maps maps
        obtain ⟨l₁, l₂, parts⟩ := append_of_mem member
        have other : left ≠ right := Owned.ne ⟨m, l, holds, member⟩ free
        set s₂ := s₁.splitEntry left right addr with s₂_eq
        have old : ∀ x, x ≠ right → s₁.entry x = s.entry x := fun x ne => (allocated.same x ne).2.1
        have left_eq : s₂.entry left = { s.entry left with stop := addr } := by
          simp [s₂_eq, splitEntry, setEntry, other, old left other]
        have right_eq : s₂.entry right = { s.entry left with
            start := addr
            objectBase := u64 ((s.entry left).objectBase + (addr - (s.entry left).start)) } := by
          simp [s₂_eq, splitEntry, setEntry, other.symm, old left other]
        have rest : ∀ x, x ≠ left → x ≠ right → s₂.entry x = s.entry x := by
          intro x nel ner
          simp [s₂_eq, splitEntry, setEntry, nel, ner, old x ner]
        have maps₂ : Maps s₂ own := by
          refine ((maps₁.setEntry free _).setEntry free _).shrink holds member ?_ ?_
          · simpa [setEntry, other, old left other] using low
          · simpa [setEntry, other, old left other] using Nat.le_of_lt covers.2
        obtain ⟨w, same⟩ := (refEntry_env env s₂ right).trans
          (shmAttachEntry_env env _ right)
        have maps₃ : Maps { s₂ with env := w } own := OnlyEnv.maps ⟨w, rfl⟩ maps₂
        subst parts
        have holds' : own m = some ((l₁ ++ [left]) ++ l₂) := by simpa using holds
        have sorted := pairwise_append.mp inv.ranges.sorted
        have header : s₂.header = s.header := allocated.header
        have right_start : (s₂.entry right).start = addr := by rw [right_eq]
        have right_stop : (s₂.entry right).stop = (s.entry left).stop := by rw [right_eq]
        have off : ∀ x ∈ l₁ ++ left :: l₂, x ≠ right := fun x inl => Owned.ne ⟨m, _, holds, inl⟩ free
        obtain ⟨off₁, off₂⟩ := inv.shape.thread.toLinked.fresh
        obtain ⟨s', linked, maps', relinked⟩ := maps₃.link (e := right) holds' free
          (show s₁.live right = true from allocated.live)
          (show (s₂.entry right).start < (s₂.entry right).stop by rw [right_start, right_stop]; exact covers.2)
          (show (s₂.header m).minAddr ≤ (s₂.entry right).start ∧
              (s₂.entry right).stop ≤ (s₂.header m).maxAddr by
            rw [header]
            have := inv.ranges.inside left member
            omega)
          (by
            intro a ina
            rw [right_start]
            rcases mem_append.mp ina with ina | ina
            · rw [rest a (ne_of_mem_of_not_mem ina off₁) (off a (by simp [ina]))]
              have := sorted.2.2 a ina left (by simp)
              omega
            · obtain rfl := mem_singleton.mp ina
              exact Nat.le_of_eq (congrArg VmMapEntry.stop left_eq))
          (by
            intro b inb
            rw [right_stop, rest b (ne_of_mem_of_not_mem inb off₂) (off b (by simp [inb]))]
            exact (pairwise_cons.mp sorted.2.1).1 b inb)
        refine ⟨s', 0, ?_, .split l₁ l₂ left right rfl (by simp [answer])
          ⟨allocated.unused, low, covers.2, ?_, ?_, fun x nel ner => ?_⟩ (by simpa using maps')⟩
        · dsimp only
          rw [same, linked]
          rfl
        · rw [relinked.entry]
          exact left_eq
        · rw [relinked.entry]
          exact right_eq
        · rw [relinked.entry]
          exact rest x nel ner

theorem clipRange_spec (start stop : Nat) : Kept own m (s.clipRange env pick m start stop) := by
  by_cases empty : stop ≤ start
  · exact .refused maps holds (by simp [clipRange, empty])
  obtain ⟨s₁, r₁, first, outcome⟩ := clipLocked_spec env pick maps holds start
  obtain ⟨l₁, maps₁⟩ := outcome.maps maps holds
  by_cases ok : r₁ = 0
  · obtain ⟨s₂, r₂, second, outcome₂⟩ := clipLocked_spec env pick maps₁ (update_self m _ _) stop
    obtain ⟨l₂, maps₂⟩ := outcome₂.maps maps₁ (update_self m _ _)
    rw [update_idem] at maps₂
    exact ⟨s₂, r₂, l₂, by simp [clipRange, empty, first, ok, second], maps₂⟩
  · exact ⟨s₁, r₁, l₁, by simp [clipRange, empty, first, ok], maps₁⟩

section
variable (start stop : Nat) (prot flags gemHandle : UInt32) (object : Option Nat)
  (objectOffset : Nat)

theorem insertLocked_spec :
    Kept own m (s.insertLocked env pick m start stop prot flags gemHandle object objectOffset) := by
  cases object with
  | none => exact .refused maps holds rfl
  | some object =>
    have inv := maps.inv m l holds
    obtain ⟨free, found, meaning⟩ := rangeFreeLocked_spec inv start stop none
    cases free with
    | false => exact .refused maps holds (by simp [insertLocked, found])
    | true =>
      obtain ⟨nonempty, bottom, top, unused⟩ := meaning.mp rfl
      cases answer : s.entryAlloc pick with
      | none => exact .refused maps holds (by simp [insertLocked, found, answer])
      | some result =>
        obtain ⟨s₁, e⟩ := result
        have allocated := entryAlloc_spec answer
        obtain ⟨maps₁, unowned⟩ := allocated.maps maps
        obtain ⟨l₁, l₂, rfl, below, above⟩ := inv.ranges.cut unused
        set fresh : VmMapEntry := ⟨start, stop, prot, flags, gemHandle, 0, objectOffset, some object⟩
        set s₂ := s₁.setEntry e fun _ => fresh with s₂_eq
        have maps₂ : Maps s₂ own := maps₁.setEntry unowned _
        obtain ⟨w, same⟩ := OnlyEnv.trans (s := s₂) ⟨_, rfl⟩
          (shmAttachEntry_env env (s₂.onEnv (env.objectRef · object)) e)
        have maps₃ : Maps { s₂ with env := w } own := OnlyEnv.maps ⟨w, rfl⟩ maps₂
        have here : s₂.entry e = fresh := by simp [s₂_eq, setEntry]
        have rest : ∀ x ∈ l₁ ++ l₂, s₂.entry x = s.entry x := by
          intro x member
          have ne : x ≠ e := Owned.ne ⟨m, _, holds, member⟩ unowned
          simpa [s₂_eq, setEntry, ne] using (allocated.same x ne).2.1
        obtain ⟨s', linked, maps', _⟩ := maps₃.link (e := e) holds unowned allocated.live
          (show (s₂.entry e).start < (s₂.entry e).stop by rw [here]; exact nonempty)
          (show (s₁.header m).minAddr ≤ (s₂.entry e).start ∧ (s₂.entry e).stop ≤ (s₁.header m).maxAddr by
            rw [here, allocated.header]; exact ⟨bottom, top⟩)
          (fun a ina => show (s₂.entry a).stop ≤ (s₂.entry e).start by
            rw [here, rest a (by simp [ina])]; exact below a ina)
          (fun b inb => show (s₂.entry e).stop ≤ (s₂.entry b).start by
            rw [here, rest b (by simp [inb])]; exact above b inb)
        refine ⟨s', 0, _, ?_, maps'⟩
        simp only [insertLocked, found, answer]
        rw [same, linked]
        rfl

theorem insert_spec :
    Kept own m (s.insert env pick m start stop prot flags gemHandle object objectOffset) := by
  unfold insert
  split_ifs
  · exact .refused maps holds rfl
  · exact insertLocked_spec env pick maps holds start stop prot flags gemHandle object objectOffset

end

theorem remove_spec (addr : Nat) : Kept own m (s.remove env m addr) := by
  have inv := maps.inv m l holds
  rw [VmMaps.remove, lookupLocked_spec inv addr]
  cases found : l.find? (fun e => Covers s addr e) with
  | none => exact .refused maps holds rfl
  | some e =>
    obtain ⟨l₁, l₂, rfl⟩ := append_of_mem (mem_of_find?_eq_some found)
    obtain ⟨_, computed, maps', _⟩ := maps.discard env holds
    exact ⟨_, 0, l₁ ++ l₂, by simp [computed], maps'⟩

theorem removeWalk_spec (start stop : Nat) :
    ∃ s' removed, removeFrom env m start stop ((s.header m).entryCount + 1) s (s.header m).head false =
      some (s', removed) ∧ Maps s' (update own m (some (l.filter fun e => ¬InRange s start stop e))) ∧
      s'.entry = s.entry ∧ (removed ↔ ∃ e ∈ l, InRange s start stop e) := by
  have inv := maps.inv m l holds
  obtain ⟨s', removed, walked, maps', entry, any⟩ := removeFrom_spec env start stop
    ((s.header m).entryCount + 1) false maps (show own m = some ([] ++ l) from holds)
    (by rw [inv.shape.count]; omega)
  rw [← inv.shape.thread.head_eq] at walked
  exact ⟨s', removed, walked, maps', entry, by simpa using any⟩

theorem removeRange_spec (start stop : Nat) : Kept own m (s.removeRange env pick m start stop) := by
  obtain ⟨s₁, r₁, l₁, clipped, maps₁⟩ := clipRange_spec env pick maps holds start stop
  rw [removeRange_eq, clipped]
  by_cases ok : r₁ = 0
  · obtain ⟨s₂, removed, walked, maps₂, _⟩ := removeWalk_spec env maps₁ (update_self m _ _) start stop
    rw [update_idem] at maps₂
    exact ⟨s₂, if removed then 0 else -1, _, by simp [ok, walked], maps₂⟩
  · exact ⟨s₁, -1, l₁, by simp [ok], maps₁⟩

theorem relocate_spec (member : e ∈ l) (newStart newStop : Nat) :
    Kept own m (s.relocate m e newStart newStop) := by
  by_cases bad : newStop ≤ newStart ∨ newStart % pageSize ≠ 0 ∨ newStop % pageSize ≠ 0
  · exact .refused maps holds (by simp [relocate, bad])
  have inv := maps.inv m l holds
  obtain ⟨free, found, meaning⟩ := rangeFreeLocked_spec inv newStart newStop (some e)
  cases free with
  | false => exact .refused maps holds (by simp [relocate, found])
  | true =>
    obtain ⟨nonempty, bottom, top, unused⟩ := meaning.mp rfl
    obtain ⟨k₁, k₂, rfl⟩ := append_of_mem member
    obtain ⟨s₁, unlinked, maps₁, unowned, relinked⟩ := maps.unlink holds
    obtain ⟨off₁, off₂⟩ := inv.shape.thread.toLinked.fresh
    have holds₁ : update own m (some (k₁ ++ k₂)) m = some (k₁ ++ k₂) := update_self m _ _
    have unused₁ : Unused s₁ newStart newStop none (k₁ ++ k₂) := by
      intro x inl _
      have other : x ≠ e := by
        rintro rfl
        exact (mem_append.mp inl).elim off₁ off₂
      rw [relinked.entry]
      exact unused x (by simp only [mem_append] at inl ⊢; tauto) (by simpa using other)
    obtain ⟨l₁, l₂, parts, below, above⟩ := (maps₁.inv m _ holds₁).ranges.cut unused₁
    set s₂ := s₁.setEntry e fun ent => { ent with start := newStart, stop := newStop } with s₂_eq
    have maps₂ : Maps s₂ (update own m (some (k₁ ++ k₂))) := maps₁.setEntry unowned _
    have rest : ∀ x ∈ l₁ ++ l₂, s₂.entry x = s₁.entry x := by
      intro x inl
      have ne : x ≠ e := Owned.ne ⟨m, _, holds₁, parts ▸ inl⟩ unowned
      simp [s₂_eq, setEntry, ne]
    have start_eq : (s₂.entry e).start = newStart := by simp [s₂_eq, setEntry]
    have stop_eq : (s₂.entry e).stop = newStop := by simp [s₂_eq, setEntry]
    obtain ⟨s', linked, maps', _⟩ := maps₂.link (e := e) (holds₁.trans (congrArg some parts)) unowned
      (show s₁.live e = true by rw [relinked.live]; exact inv.live e (by simp))
      (by rw [start_eq, stop_eq]; exact nonempty)
      (show (s₁.header m).minAddr ≤ _ ∧ _ ≤ (s₁.header m).maxAddr by
        rw [start_eq, stop_eq, relinked.bounds.1, relinked.bounds.2.1]; exact ⟨bottom, top⟩)
      (fun a ina => by rw [start_eq, rest a (by simp [ina])]; exact below a ina)
      (fun b inb => by rw [stop_eq, rest b (by simp [inb])]; exact above b inb)
    rw [update_idem] at maps'
    exact ⟨s', 0, _, by simp [relocate, bad, found, unlinked, ← s₂_eq, linked], maps'⟩

end

theorem freeFrom_spec (fuel : Nat) (maps : Maps s own) (holds : own m = some l)
    (enough : l.length < fuel) : ∃ s', freeFrom env m fuel s = some s' ∧
    Maps s' (update own m (some [])) := by
  induction l, fuel, enough using Loop.walk_induction generalizing s own with
  | nil =>
    have head : (s.header m).head = none := (maps.inv m _ holds).shape.thread.head_eq
    exact ⟨s, by simp [freeFrom, head], by rwa [update_holds holds]⟩
  | cons e l fuel _ ih =>
    have head : (s.header m).head = some e := (maps.inv m _ holds).shape.thread.head_eq
    obtain ⟨_, unlinked, maps₁, _⟩ :=
      maps.discard env (show own m = some ([] ++ e :: l) from holds)
    obtain ⟨s', rest, maps'⟩ := ih maps₁ (update_self m _ _)
    rw [update_idem] at maps'
    exact ⟨s', by simp [freeFrom, head, unlinked, rest], maps'⟩

end Otsos.VmMaps
