import Otsos.Map.Runs

/-! What an address of a map means to `vm_map_fault`, and what clips do to it. -/
namespace Otsos.VmMaps
open Function (update update_idem update_self)
open List Option

variable {s s' : VmMaps ω} {own : Owners} {env : Backing ω}

/-- The object, the page index in it and the offset in its file that `vm_map_fault` computes from
the entry covering an address. -/
def translate (ent : VmMapEntry) (addr : Nat) : Option Nat × Nat × Nat :=
  let mapOff := u64 (2 ^ 64 + pageFloor addr - ent.start)
  (ent.object, u64 (ent.objectBase + mapOff) / pageSize, u64 (ent.objectOffset + mapOff))

/-- The translation of an address; the inner `none` is an unmapped address. -/
def target (s : VmMaps ω) (m addr : Nat) : Option (Option (Option Nat × Nat × Nat)) :=
  (s.lookupLocked m addr).map fun found => found.map fun e => translate (s.entry e) addr

/-- Every address mapped in `s'` has the meaning it had in `s`. -/
def SameMeaning (s s' : VmMaps ω) (m : Nat) : Prop :=
  ∀ addr, target s' m addr ≠ some none → target s' m addr = target s m addr

theorem lookup_of_covers (inv : MapInv s m l) (member : e ∈ l)
    (covers : Covers s addr e) : s.lookupLocked m addr = some (some e) := by
  rw [lookupLocked_spec inv]
  cases found : l.find? (fun e => Covers s addr e) with
  | none => exact absurd covers (by simpa using find?_eq_none.mp found e member)
  | some x =>
    have hit : Covers s addr x := by simpa using find?_some found
    by_contra different
    have := inv.ranges.disjoint (mem_of_find?_eq_some found) member fun same => different (by rw [same])
    obtain ⟨_, _⟩ := hit
    obtain ⟨_, _⟩ := covers
    omega

/-- In every run, the descent through the tree of an initialised map ends, and finds the entry that
covers the address, if there is one. -/
theorem run_lookup (run : Relation.ReflTransGen (SeparateStep env) ⟨s₀, []⟩ r) (ready : m ∈ r.ready)
    (addr : Nat) : ∃ found, r.state.lookupLocked m addr = some found ∧
      ∀ e, found = some e ↔ e ∈ entries r.state m ∧ Covers r.state addr e := by
  have inv := (run_good run).inv ready
  have looked := lookupLocked_spec inv addr
  refine ⟨_, looked, fun e => ⟨fun found => ?_, fun ⟨member, covers⟩ => ?_⟩⟩
  · exact ⟨mem_of_find?_eq_some found, by simpa using find?_some found⟩
  · exact Option.some.inj (looked.symm.trans (lookup_of_covers inv member covers))

theorem run_lookup_forkRun :
    ∃ r : Session Unit, 0 ∈ r.ready ∧ ∃ e, r.state.lookupLocked 0 0x1000 = some e ∧ ∀ x,
    e = some x ↔ x ∈ entries r.state 0 ∧ Covers r.state 0x1000 x := by
  obtain ⟨r, ran, ready⟩ : ∃ r, runSeparate forkRun = some r ∧ 0 ∈ r.ready :=
    Loop.exists_of_any (by decide +kernel)
  exact ⟨r, ready, run_lookup (runSeparate_reached ran) ready 0x1000⟩

theorem lookup_none_iff (inv : MapInv s m l) :
    s.lookupLocked m addr = some none ↔ ∀ e ∈ l, ¬Covers s addr e := by
  simp [lookupLocked_spec inv]

theorem target_of_covers (inv : MapInv s m l) (member : e ∈ l)
    (covers : Covers s addr e) : target s m addr = some (some (translate (s.entry e) addr)) := by
  rw [target, lookup_of_covers inv member covers]
  rfl

theorem exists_covers (inv : MapInv s m l) (mapped : target s m addr ≠ some none) :
    ∃ e ∈ l, Covers s addr e := by
  by_contra nowhere
  push Not at nowhere
  exact mapped (by rw [target, (lookup_none_iff inv).mpr nowhere]; rfl)

/-- The second entry is a piece of the first, cut out of it by clips. -/
structure Piece (ent ent' : VmMapEntry) : Prop where
  object : ent'.object = ent.object
  low : ent.start ≤ ent'.start
  high : ent'.stop ≤ ent.stop
  base : u64 ent'.objectBase = u64 (ent.objectBase + (ent'.start - ent.start))
  offset : ent'.objectOffset = ent.objectOffset

theorem Piece.refl (ent : VmMapEntry) : Piece ent ent :=
  ⟨rfl, Nat.le_refl _, Nat.le_refl _, by simp, rfl⟩

theorem Piece.trans (first : Piece a b) (second : Piece b c) : Piece a c := by
  refine ⟨second.object.trans first.object, Nat.le_trans first.low second.low,
    Nat.le_trans second.high first.high, ?_, second.offset.trans first.offset⟩
  have base := first.base
  have base' := second.base
  have := first.low
  have := second.low
  simp only [u64] at base base' ⊢
  omega

theorem Piece.covers (piece : Piece (s.entry e) (s'.entry e')) (covers : Covers s' addr e') :
    Covers s addr e :=
  ⟨Nat.le_trans piece.low covers.1, Nat.lt_of_lt_of_le covers.2 piece.high⟩

theorem MapInv.lt_of_covers (inv : MapInv s m l) (member : e ∈ l) (covers : Covers s addr e) :
    addr < 2 ^ 64 := by
  have := (inv.ranges.inside e member).2
  have := inv.bounded
  have := covers.2
  omega

/-- A piece means the same page of the object. -/
theorem Piece.index_eq (piece : Piece ent ent') (covers : ent'.start ≤ addr)
    (small : addr < 2 ^ 64) : (translate ent' addr).2.1 = (translate ent addr).2.1 := by
  have base := piece.base
  have low := piece.low
  refine congrArg (· / pageSize) ?_
  simp only [u64] at base ⊢
  omega

/-- A piece always means the same page of the same object; its file offset is right exactly when it
has kept the start of the whole. -/
theorem Piece.translate_eq (piece : Piece ent ent')
    (covers : ent'.start ≤ addr) (small : addr < 2 ^ 64) : (translate ent' addr).1 = (translate ent addr).1 ∧
      (translate ent' addr).2.1 = (translate ent addr).2.1 ∧
      ((translate ent' addr).2.2 = (translate ent addr).2.2 ↔ ent'.start = ent.start) := by
  have low := piece.low
  have offset := piece.offset
  refine ⟨piece.object, piece.index_eq covers small, ?_⟩
  simp only [translate, u64, pageFloor] at offset ⊢
  omega

/-- Every entry of the second list is a piece of one of the first. -/
def Pieces (s : VmMaps ω) (l : List Nat) (s' : VmMaps ω) (l' : List Nat) : Prop :=
  ∀ e' ∈ l', ∃ e ∈ l, Piece (s.entry e) (s'.entry e')

theorem sameMeaning_iff (inv : MapInv s m l) (inv' : MapInv s' m l') (pieces : Pieces s l s' l') :
    SameMeaning s s' m ↔ ∀ e' ∈ l', ∃ e ∈ l, (s.entry e).start = (s'.entry e').start := by
  constructor
  · intro same e' member
    obtain ⟨e, inl, piece⟩ := pieces e' member
    have covers : Covers s' (s'.entry e').start e' := ⟨Nat.le_refl _, inv'.ranges.nonempty e' member⟩
    have here := target_of_covers inv' member covers
    have before := target_of_covers inv inl (piece.covers covers)
    have equal := same _ (by rw [here]; simp)
    rw [here, before, some.injEq, some.injEq] at equal
    obtain ⟨_, _, offset⟩ := piece.translate_eq covers.1 (inv'.lt_of_covers member covers)
    exact ⟨e, inl, (offset.mp (congrArg (·.2.2) equal)).symm⟩
  · intro starts addr mapped
    obtain ⟨e', member, covers⟩ := exists_covers inv' mapped
    obtain ⟨e, inl, piece⟩ := pieces e' member
    -- the entry that starts there can only be the one the piece was cut from
    have start : (s'.entry e').start = (s.entry e).start := by
      obtain ⟨x, inx, same⟩ := starts e' member
      by_cases here : x = e
      · rw [← same, here]
      have apart := inv.ranges.disjoint inx inl here
      have := inv.ranges.nonempty x inx
      have := inv'.ranges.nonempty e' member
      have := piece.low
      have := piece.high
      omega
    obtain ⟨object, index, offset⟩ := piece.translate_eq covers.1 (inv'.lt_of_covers member covers)
    rw [target_of_covers inv' member covers, target_of_covers inv inl (piece.covers covers)]
    exact congrArg (fun t => some (some t)) (Prod.ext object (Prod.ext index (offset.mpr start)))

theorem not_start_of_inside (inv : MapInv s m l) (inside : Inside s addr l) :
    ∀ e ∈ l, (s.entry e).start ≠ addr := by
  rintro e member rfl
  obtain ⟨x, inx, _⟩ := inside
  have different : x ≠ e := by
    rintro rfl
    omega
  have := inv.ranges.disjoint inx member different
  have := inv.ranges.nonempty e member
  omega

/-- A piece with the protection and the flags of the whole. -/
structure Part (ent ent' : VmMapEntry) : Prop extends Piece ent ent' where
  prot : ent'.prot = ent.prot
  flags : ent'.flags = ent.flags

/-- The entries of the second list are parts of those of the first and cover the same addresses. -/
structure Cut (s : VmMaps ω) (l : List Nat) (s' : VmMaps ω) (l' : List Nat) : Prop where
  parts : ∀ e' ∈ l', ∃ e ∈ l, Part (s.entry e) (s'.entry e')
  covered : ∀ addr, ∀ e ∈ l, Covers s addr e → ∃ e' ∈ l', Covers s' addr e'

theorem Cut.refl (s : VmMaps ω) (l : List Nat) : Cut s l s l :=
  ⟨fun e member => ⟨e, member, .refl _, rfl, rfl⟩, fun _ e member covers => ⟨e, member, covers⟩⟩

theorem Cut.trans (first : Cut s l s' l') (second : Cut s' l' s'' l'') : Cut s l s'' l'' := by
  refine ⟨fun e'' member => ?_, fun addr e member covers => ?_⟩
  · obtain ⟨e', member', part'⟩ := second.parts e'' member
    obtain ⟨e, member, part⟩ := first.parts e' member'
    exact ⟨e, member, part.toPiece.trans part'.toPiece, part'.prot.trans part.prot, part'.flags.trans part.flags⟩
  · obtain ⟨e', member', covers'⟩ := first.covered addr e member covers
    exact second.covered addr e' member' covers'

theorem Cut.pieces (cut : Cut s l s' l') : Pieces s l s' l' := fun e' member =>
  let ⟨e, inl, part⟩ := cut.parts e' member
  ⟨e, inl, part.toPiece⟩

theorem Pieces.inside (pieces : Pieces s l s' l') (inside : Inside s' addr l') :
    Inside s addr l := by
  obtain ⟨e', member, low, high⟩ := inside
  obtain ⟨e, inl, piece⟩ := pieces e' member
  exact ⟨e, inl, Nat.lt_of_le_of_lt piece.low low, Nat.lt_of_lt_of_le high piece.high⟩

/-- An address that is no longer inside an entry is now the start of one. -/
theorem Cut.starts_at (cut : Cut s l s' l') (inside : Inside s addr l)
    (apart : ¬Inside s' addr l') : ∃ x ∈ l', (s'.entry x).start = addr := by
  obtain ⟨e, inl, low, high⟩ := inside
  obtain ⟨x, inl', bottom, top⟩ := cut.covered addr e inl ⟨Nat.le_of_lt low, high⟩
  refine ⟨x, inl', Nat.le_antisymm bottom (Nat.not_lt.mp fun below => ?_)⟩
  exact apart ⟨x, inl', below, top⟩

theorem mem_split {x : α} : x ∈ l₁ ++ left :: right :: l₂ ↔ x = right ∨ x ∈ l₁ ++ left :: l₂ := by
  simp only [mem_append, mem_cons]
  tauto

theorem Split.cut (split : Split s s' left right addr) (fresh : right ∉ l₁ ++ left :: l₂) :
    Cut s (l₁ ++ left :: l₂) s' (l₁ ++ left :: right :: l₂) := by
  have low := split.low
  have high := split.high
  have others : ∀ x ∈ l₁ ++ left :: l₂, x ≠ left → s'.entry x = s.entry x := fun x inl other =>
    split.others x other (ne_of_mem_of_not_mem inl fresh)
  refine ⟨fun x inl' => ?_, fun a x inl covers => ?_⟩
  · rcases mem_split.mp inl' with rfl | inl
    · refine ⟨left, by simp, ?_⟩
      rw [split.right_eq]
      exact ⟨⟨rfl, Nat.le_of_lt low, Nat.le_refl _, by simp [u64], rfl⟩, rfl, rfl⟩
    refine ⟨x, inl, ?_⟩
    by_cases here : x = left
    · rw [here, split.left_eq]
      exact ⟨⟨rfl, Nat.le_refl _, Nat.le_of_lt high, by simp, rfl⟩, rfl, rfl⟩
    · rw [others x inl here]
      exact ⟨.refl _, rfl, rfl⟩
  · by_cases here : x = left
    · subst here
      by_cases behind : a < addr
      · exact ⟨x, by simp, by rw [Covers, split.left_eq]; exact ⟨covers.1, behind⟩⟩
      · exact ⟨right, by simp, by rw [Covers, split.right_eq]; exact ⟨Nat.not_lt.mp behind, covers.2⟩⟩
    · exact ⟨x, mem_split.mpr (.inr inl), by rwa [Covers, others x inl here]⟩

/-- Every entry starts where one started before, or at `addr`, which was inside one. -/
def StartsFrom (s : VmMaps ω) (l : List Nat) (addr : Nat) (s' : VmMaps ω) (l' : List Nat) : Prop :=
  ∀ x ∈ l', (∃ e ∈ l, (s.entry e).start = (s'.entry x).start) ∨
    ((s'.entry x).start = addr ∧ Inside s addr l)

variable (env pick)

theorem clipLocked_cut (maps : Maps s own) (holds : own m = some l) (addr : Nat) :
    ∃ s' r l', s.clipLocked env pick m addr = some (s', r) ∧ Maps s' (update own m (some l')) ∧
      Cut s l s' l' ∧ StartsFrom s l addr s' l' ∧
      (r = 0 ∧ ¬Inside s' addr l' ∧ (s' = s ∧ l' = l ∨ Inside s addr l ∧ s.entryAlloc pick ≠ none) ∨
        r = -1 ∧ s' = s ∧ l' = l ∧ Inside s addr l ∧ s.entryAlloc pick = none) := by
  obtain ⟨s', r, computed, outcome⟩ := clipLocked_spec env pick maps holds addr
  have unchanged : Maps s (update own m (some l)) := by rwa [update_holds holds]
  have old : StartsFrom s l addr s l := fun x member => .inl ⟨x, member, rfl⟩
  cases outcome with
  | boundary apart =>
    exact ⟨s, 0, l, computed, unchanged, .refl s l, old, .inl ⟨rfl, apart, .inl ⟨rfl, rfl⟩⟩⟩
  | noMemory inside full =>
    exact ⟨s, -1, l, computed, unchanged, .refl s l, old, .inr ⟨rfl, rfl, rfl, inside, full⟩⟩
  | split l₁ l₂ left right parts granted split maps' =>
    subst parts
    have fresh : right ∉ l₁ ++ left :: l₂ := fun member =>
      Bool.false_ne_true (split.unused.symm.trans ((maps.inv m _ holds).live right member))
    have inside : Inside s addr (l₁ ++ left :: l₂) := ⟨left, by simp, split.low, split.high⟩
    have right_start : (s'.entry right).start = addr := by rw [split.right_eq]
    refine ⟨s', 0, _, computed, maps', split.cut fresh, fun x inl' => ?_,
      .inl ⟨rfl, fun still => ?_, .inr ⟨inside, granted⟩⟩⟩
    · rcases mem_split.mp inl' with rfl | inl
      · exact .inr ⟨right_start, inside⟩
      · refine .inl ⟨x, inl, ?_⟩
        by_cases here : x = left
        · rw [here, split.left_eq]
        · rw [split.others x here (ne_of_mem_of_not_mem inl fresh)]
    · exact not_start_of_inside (maps'.inv m _ (update_self m _ _)) still right (by simp) right_start

/-- Both clips of a range. They fail when the entry for the first is missing, or the one for the
second after the first has cut. -/
theorem clipRange_cut (maps : Maps s own) (holds : own m = some l) (proper : start < stop) :
    ∃ s' r l', s.clipRange env pick m start stop = some (s', r) ∧ Maps s' (update own m (some l')) ∧
      Cut s l s' l' ∧ (∀ x ∈ l', (∃ e ∈ l, (s.entry e).start = (s'.entry x).start) ∨
        s.entryAlloc pick ≠ none ∧ ((s'.entry x).start = start ∧ Inside s start l ∨
          (s'.entry x).start = stop ∧ Inside s stop l)) ∧
      (r = 0 ∧ ¬Inside s' start l' ∧ ¬Inside s' stop l' ∨
        r = -1 ∧ s'.entryAlloc pick = none ∧ (s' = s ∧ (Inside s start l ∨ Inside s stop l) ∨
          s.entryAlloc pick ≠ none ∧ ¬Inside s' start l' ∧ Inside s start l ∧ Inside s stop l)) := by
  obtain ⟨s₁, _, l₁, first, maps₁, cut₁, starts₁, outcome₁⟩ :=
    clipLocked_cut env pick maps holds start
  have empty := Nat.not_le.mpr proper
  rcases outcome₁ with ⟨rfl, apart, done⟩ | ⟨rfl, rfl, rfl, inside, full⟩
  · obtain ⟨s₂, r₂, l₂, second, maps₂, cut₂, starts₂, outcome₂⟩ :=
      clipLocked_cut env pick maps₁ (update_self m _ _) stop
    rw [update_idem] at maps₂
    refine ⟨s₂, r₂, l₂, by simp [clipRange, empty, first, second], maps₂, cut₁.trans cut₂, ?_, ?_⟩
    · intro x inl₂
      rcases done with ⟨rfl, rfl⟩ | ⟨inside, granted⟩
      · rcases starts₂ x inl₂ with old | new
        · exact .inl old
        · rcases outcome₂ with ⟨_, _, ⟨rfl, rfl⟩ | ⟨_, granted⟩⟩ | ⟨_, rfl, rfl, _⟩
          · exact .inl ⟨x, inl₂, rfl⟩
          · exact .inr ⟨granted, .inr new⟩
          · exact .inl ⟨x, inl₂, rfl⟩
      · rcases starts₂ x inl₂ with ⟨e, inl₁, same⟩ | ⟨here, inside'⟩
        · rw [← same]
          exact (starts₁ e inl₁).imp_right fun new => ⟨granted, .inl new⟩
        · exact .inr ⟨granted, .inr ⟨here, cut₁.pieces.inside inside'⟩⟩
    · rcases outcome₂ with ⟨rfl, apart', _⟩ | ⟨rfl, rfl, rfl, inside', full⟩
      · exact .inl ⟨rfl, fun inside => apart (cut₂.pieces.inside inside), apart'⟩
      · refine .inr ⟨rfl, full, ?_⟩
        rcases done with ⟨rfl, rfl⟩ | ⟨inside, granted⟩
        · exact .inl ⟨rfl, .inr inside'⟩
        · exact .inr ⟨granted, apart, inside, cut₁.pieces.inside inside'⟩
  · exact ⟨s₁, -1, l₁, by simp [clipRange, first], maps₁, cut₁,
      fun x member => .inl ⟨x, member, rfl⟩, .inr ⟨rfl, full, .inl ⟨rfl, .inl inside⟩⟩⟩

/-- The calls that clip, on one map. -/
inductive ClipOp (ω : Type) where
  | clipRange (pick : VmMaps ω → Option Nat) (start stop : UInt64)
  | removeRange (pick : VmMaps ω → Option Nat) (start stop : UInt64)

namespace ClipOp

def apply (env : Backing ω) (m : Nat) (s : VmMaps ω) : ClipOp ω → Option (VmMaps ω)
  | .clipRange pick start stop => (s.clipRange env pick m start.toNat stop.toNat).map Prod.fst
  | .removeRange pick start stop => (s.removeRange env pick m start.toNat stop.toNat).map Prod.fst

/-- The call leaves an entry that was cut off from the start of another. The lower cut of a removal
does no harm, because the part above it is removed, unless the upper cut is inside an entry too. -/
def Shifts (m : Nat) (s : VmMaps ω) : ClipOp ω → Prop
  | .clipRange pick start stop => start < stop ∧ s.entryAlloc pick ≠ none ∧
      (Inside s start.toNat (entries s m) ∨ Inside s stop.toNat (entries s m))
  | .removeRange pick start stop => start < stop ∧ s.entryAlloc pick ≠ none ∧ Inside s stop.toNat (entries s m)

end ClipOp

/-- A call of the sequence leaves the map in order; its addresses keep their meaning exactly when it
does not shift an entry. -/
structure ClipStep (s : VmMaps ω) (own : Owners) (m : Nat) (l : List Nat) (s' : VmMaps ω)
    (shifts : Prop) : Prop where
  maps : ∃ l', Maps s' (update own m (some l')) ∧ Pieces s l s' l'
  meaning : SameMeaning s s' m ↔ ¬shifts

theorem Pieces.filter (pieces : Pieces s l s' l') (entry : s''.entry = s'.entry) (p : Nat → Bool) :
    Pieces s l s'' (l'.filter p) := by
  intro e member
  rw [entry]
  exact pieces e (mem_of_mem_filter member)

section Steps
variable (env : Backing ω) (pick : VmMaps ω → Option Nat)
variable (maps : Maps s own) (holds : own m = some l)
include maps holds

theorem ClipStep.unchanged (quiet : ¬shifts) : ClipStep s own m l s shifts :=
  ⟨⟨l, by rwa [update_holds holds], fun e member => ⟨e, member, .refl _⟩⟩,
    iff_of_true (fun _ _ => rfl) quiet⟩

theorem clipRange_step (start stop : Nat) :
    ∃ s' r, s.clipRange env pick m start stop = some (s', r) ∧
      ClipStep s own m l s' (start < stop ∧ s.entryAlloc pick ≠ none ∧ (Inside s start l ∨ Inside s stop l)) := by
  by_cases empty : stop ≤ start
  · exact ⟨s, -1, by simp [clipRange, empty], .unchanged maps holds fun _ => by omega⟩
  have inv := maps.inv m l holds
  obtain ⟨s', r, l', clipped, maps', cut, starts, outcome⟩ :=
    clipRange_cut env pick maps holds (Nat.not_le.mp empty)
  refine ⟨s', r, clipped, ⟨l', maps', cut.pieces⟩, ?_⟩
  rw [sameMeaning_iff inv (maps'.inv m l' (update_self m _ _)) cut.pieces]
  constructor
  · rintro same ⟨_, granted, either⟩
    -- a bound that cuts is the start of an entry afterwards
    have new : ∀ {addr}, Inside s addr l → ¬¬Inside s' addr l' := fun inside apart => by
      obtain ⟨x, inl', rfl⟩ := cut.starts_at inside apart
      obtain ⟨e, inl, equal⟩ := same x inl'
      exact not_start_of_inside inv inside e inl equal
    rcases outcome with ⟨_, low, high⟩ | ⟨_, full, ⟨rfl, _⟩ | ⟨_, low, inside, _⟩⟩
    · exact either.elim (new · low) (new · high)
    · exact granted full
    · exact new inside low
  · intro quiet x inl'
    refine (starts x inl').resolve_right ?_
    rintro ⟨granted, which⟩
    exact quiet ⟨Nat.not_le.mp empty, granted, which.imp And.right And.right⟩

/-- The removal proper: it shifts an entry exactly when one that it leaves does not start where an
entry started. -/
theorem ClipStep.walk (start stop : Nat) (maps' : Maps s' (update own m (some l')))
    (pieces : Pieces s l s' l') (shifts : Prop)
      (meaning : shifts ↔ ∃ x ∈ l', ¬InRange s' start stop x ∧
      ∀ e ∈ l, (s.entry e).start ≠ (s'.entry x).start) :
    ∃ s₃ removed, removeFrom env m start stop ((s'.header m).entryCount + 1) s' (s'.header m).head
      false = some (s₃, removed) ∧ ClipStep s own m l s₃ shifts := by
  obtain ⟨s₃, removed, walked, maps₃, entry, _⟩ :=
    removeWalk_spec env maps' (update_self m _ _) start stop
  rw [update_idem] at maps₃
  have pieces₃ := pieces.filter entry fun e => decide ¬InRange s' start stop e
  refine ⟨s₃, removed, walked, ⟨_, maps₃, pieces₃⟩, ?_⟩
  rw [sameMeaning_iff (maps.inv m l holds) (maps₃.inv m _ (update_self m _ _)) pieces₃, meaning,
    entry]
  constructor
  · rintro starts ⟨x, member, outside, new⟩
    obtain ⟨e, inl, same⟩ := starts x (mem_filter.mpr ⟨member, by simpa using outside⟩)
    exact new e inl same
  · intro old x member
    obtain ⟨inl', outside⟩ := mem_filter.mp member
    by_contra absent
    exact old ⟨x, inl', by simpa using outside, fun e inl same => absent ⟨e, inl, same⟩⟩

theorem removeRange_step (start stop : Nat) :
    ∃ s' r, s.removeRange env pick m start stop = some (s', r) ∧
      ClipStep s own m l s' (start < stop ∧ s.entryAlloc pick ≠ none ∧ Inside s stop l) := by
  by_cases empty : stop ≤ start
  · exact ⟨s, -1, by simp [removeRange, empty], .unchanged maps holds fun shifts => by omega⟩
  have proper : start < stop := Nat.not_le.mp empty
  have inv := maps.inv m l holds
  obtain ⟨s', r, l', clipped, maps', cut, starts, outcome⟩ :=
    clipRange_cut env pick maps holds proper
  have inv' := maps'.inv m l' (update_self m _ _)
  rw [removeRange_eq, clipped]
  rcases outcome with ⟨rfl, low, high⟩ | ⟨rfl, full, failed⟩
  · obtain ⟨s₃, removed, walked, step⟩ := ClipStep.walk env maps holds start stop maps' cut.pieces
      (start < stop ∧ s.entryAlloc pick ≠ none ∧ Inside s stop l) (by
        constructor
        · rintro ⟨_, _, inside⟩
          obtain ⟨x, inl', here⟩ := cut.starts_at inside high
          refine ⟨x, inl', fun within => ?_, fun e inl same => ?_⟩
          · have := inv'.ranges.nonempty x inl'
            have := within.2
            omega
          · exact not_start_of_inside inv inside e inl (same.trans here)
        · rintro ⟨x, inl', outside, new⟩
          rcases starts x inl' with ⟨e, inl, same⟩ | ⟨granted, ⟨here, _⟩ | ⟨_, inside⟩⟩
          · exact absurd same (new e inl)
          · -- the part above the lower cut lies in the range
            refine absurd ⟨Nat.le_of_eq here.symm, Nat.not_lt.mp fun above => ?_⟩ outside
            exact high ⟨x, inl', by rwa [here], above⟩
          · exact ⟨proper, granted, inside⟩)
    exact ⟨s₃, if removed then 0 else -1, by simp [walked], step⟩
  · refine ⟨s', -1, by simp, ?_⟩
    rcases failed with ⟨rfl, _⟩ | ⟨granted, low, inside, inside'⟩
    · exact .unchanged maps holds fun shifts => shifts.2.1 full
    · refine ⟨⟨l', maps', cut.pieces⟩, iff_of_false (fun same => ?_) (not_not.mpr ⟨proper, granted, inside'⟩)⟩
      obtain ⟨x, inl', here⟩ := cut.starts_at inside low
      obtain ⟨e, inl, equal⟩ := (sameMeaning_iff inv inv' cut.pieces).mp same x inl'
      exact not_start_of_inside inv inside e inl (equal.trans here)

end Steps

theorem ClipOp.apply_step (env : Backing ω) (maps : Maps s own) (holds : own m = some l)
    (op : ClipOp ω) : ∃ s', op.apply env m s = some s' ∧ ClipStep s own m l s' (op.Shifts m s) := by
  have same := (maps.inv m l holds).entries_eq
  cases op with
  | clipRange pick start stop =>
    obtain ⟨s', r, computed, step⟩ := clipRange_step env pick maps holds start.toNat stop.toNat
    exact ⟨s', by simp [ClipOp.apply, computed], by rwa [ClipOp.Shifts, same]⟩
  | removeRange pick start stop =>
    obtain ⟨s', r, computed, step⟩ := removeRange_step env pick maps holds start.toNat stop.toNat
    exact ⟨s', by simp [ClipOp.apply, computed], by rwa [ClipOp.Shifts, same]⟩

/-- After every call of the sequence the mapped addresses mean what they meant in `s₀`. -/
def MeaningKept (env : Backing ω) (m : Nat) (s₀ : VmMaps ω) : VmMaps ω → List (ClipOp ω) → Prop
  | _, [] => True
  | s, op :: ops => ∃ s', op.apply env m s = some s' ∧ SameMeaning s₀ s' m ∧ MeaningKept env m s₀ s' ops

/-- No call of the sequence shifts an entry. -/
def NeverShifts (env : Backing ω) (m : Nat) : VmMaps ω → List (ClipOp ω) → Prop
  | _, [] => True
  | s, op :: ops => ¬op.Shifts m s ∧ ∀ s', op.apply env m s = some s' → NeverShifts env m s' ops

theorem SameMeaning.step (inv : MapInv s m l) (inv' : MapInv s' m l') (pieces : Pieces s l s' l')
    (before : SameMeaning s₀ s m) : SameMeaning s₀ s' m ↔ SameMeaning s s' m := by
  have mapped : ∀ addr, target s' m addr ≠ some none → target s m addr = target s₀ m addr := by
    intro addr now
    obtain ⟨e', member, covers⟩ := exists_covers inv' now
    obtain ⟨e, inl, piece⟩ := pieces e' member
    exact before addr (by rw [target_of_covers inv inl (piece.covers covers)]; simp)
  constructor
  · exact fun same addr now => (same addr now).trans (mapped addr now).symm
  · exact fun same addr now => (same addr now).trans (mapped addr now)

theorem meaningKept_iff (maps : Maps s own) (holds : own m = some l)
    (before : SameMeaning s₀ s m) (ops : List (ClipOp ω)) :
    MeaningKept env m s₀ s ops ↔ NeverShifts env m s ops := by
  induction ops generalizing s own l with
  | nil => exact Iff.rfl
  | cons op ops ih =>
    obtain ⟨_, computed, ⟨l', maps', pieces⟩, meaning⟩ := op.apply_step env maps holds
    have inv := maps.inv m l holds
    have inv' := maps'.inv m l' (update_self m _ _)
    have step := before.step inv inv' pieces
    have rest := fun kept => ih maps' (update_self m _ _) kept
    simp only [MeaningKept, NeverShifts, computed, some.injEq, exists_eq_left', forall_eq']
    rw [← meaning, ← step]
    exact and_congr_right rest

/-- For every map that a run can produce and every sequence of clips: the mapped
addresses keep object, page index and file offset throughout exactly when no clip leaves an entry
that was cut off from the start of another. -/
theorem clips_keep_meaning_iff (env : Backing ω) (s₀ : VmMaps ω) (r : Session ω)
    (run : Relation.ReflTransGen (SeparateStep env) ⟨s₀, []⟩ r) (m : Nat) (ready : m ∈ r.ready)
    (ops : List (ClipOp ω)) :
    MeaningKept env m r.state r.state ops ↔ NeverShifts env m r.state ops := by
  obtain ⟨_, maps, domain⟩ := run_good run
  obtain ⟨l, holds⟩ := isSome_iff_exists.mp ((domain m).mp ready)
  exact meaningKept_iff env maps holds (fun _ _ => rfl) ops

section Concrete

def Aligned (s : VmMaps ω) (l : List Nat) : Prop := ∀ e ∈ l, (s.entry e).start % pageSize = 0

instance (s : VmMaps ω) (l : List Nat) : Decidable (Aligned s l) :=
  inferInstanceAs (Decidable (∀ e ∈ l, _))

instance (s : VmMaps ω) (addr : Nat) (l : List Nat) : Decidable (Inside s addr l) :=
  inferInstanceAs (Decidable (∃ e ∈ l, _))

instance (m : Nat) (s : VmMaps ω) : (op : ClipOp ω) → Decidable (op.Shifts m s)
  | .clipRange .. | .removeRange .. => inferInstanceAs (Decidable (_ ∧ _ ∧ _))

/-- Cutting off the end of the second file and clipping at the bounds of the first is harmless. -/
theorem clips_keep_meaning_at_bounds : ∃ r : Session Unit,
    Relation.ReflTransGen (SeparateStep stateless) ⟨blank, []⟩ r ∧ 0 ∈ r.ready ∧ MeaningKept stateless 0 r.state r.state
        [.removeRange firstUnused 0xa000 0xc000, .clipRange firstUnused 0x1000 0x3000] := by
  obtain ⟨r, ran, ready, first, rest⟩ : ∃ r, runSeparate fileRun = some r ∧ 0 ∈ r.ready ∧
      ¬(ClipOp.removeRange firstUnused 0xa000 0xc000).Shifts 0 r.state ∧
      ((ClipOp.removeRange firstUnused 0xa000 0xc000).apply stateless 0 r.state).any fun s' =>
        ¬(ClipOp.clipRange firstUnused 0x1000 0x3000).Shifts 0 s' := Loop.exists_of_any (by decide +kernel)
  obtain ⟨s', computed, second⟩ := Loop.exists_of_any rest
  have reached := runSeparate_reached ran
  refine ⟨r, reached, ready, (clips_keep_meaning_iff stateless blank r reached 0 ready _).mpr
    ⟨first, fun _ computed' => ⟨?_, fun _ _ => trivial⟩⟩⟩
  rw [computed, some.injEq] at computed'
  exact computed' ▸ second

/-- A clip in the middle of a mapped file: the second page of the mapping then reads the first page
of the file. -/
theorem clip_loses_file_offset : ∃ (r : Session Unit) (s' : VmMaps Unit),
    Relation.ReflTransGen (SeparateStep stateless) ⟨blank, []⟩ r ∧ 0 ∈ r.ready ∧ Aligned r.state (entries r.state 0) ∧
      (ClipOp.clipRange firstUnused 0x2000 0x3000).apply stateless 0 r.state = some s' ∧
      target r.state 0 0x2000 = some (some (some 0, 1, 0x1000)) ∧
      target s' 0 0x2000 = some (some (some 0, 1, 0)) ∧
      ¬MeaningKept stateless 0 r.state r.state [.clipRange firstUnused 0x2000 0x3000] := by
  obtain ⟨r, ran, ready, aligned, before, rest⟩ : ∃ r, runSeparate fileRun = some r ∧ 0 ∈ r.ready ∧
      Aligned r.state (entries r.state 0) ∧ target r.state 0 0x2000 = some (some (some 0, 1, 0x1000)) ∧
      ((ClipOp.clipRange firstUnused 0x2000 0x3000).apply stateless 0 r.state).any fun s' =>
        target s' 0 0x2000 = some (some (some 0, 1, 0)) := Loop.exists_of_any (by decide +kernel)
  obtain ⟨s', computed, after⟩ := Loop.exists_of_any rest
  refine ⟨r, s', runSeparate_reached ran, ready, aligned, computed, before, after, ?_⟩
  rintro ⟨_, computed', same, _⟩
  rw [computed, some.injEq] at computed'
  subst computed'
  have equal := same 0x2000 (by rw [after]; simp)
  rw [before, after] at equal
  simp at equal

end Concrete

end Otsos.VmMaps
