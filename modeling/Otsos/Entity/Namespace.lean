import Otsos.Entity.Api
import Mathlib.Data.List.TakeWhile

/-! The names of entities (`kernel/entity/entity_ns.c`) and the two calls by which a process binds
one. The names under `/Entity/Interface/` are the kernel's; whether a process may bind a name is
decided on the text it gives, while the name stored is its canonical form. -/
namespace Otsos.Entity
open Function (update)
open List

def slash : UInt8 := 0x2f

/-- `ENTITY_NS_PREFIX`, the text `/Entity`. -/
def nsPrefix : List UInt8 := [0x2f, 0x45, 0x6e, 0x74, 0x69, 0x74, 0x79]

/-- The text `Interface`. -/
def interfaceName : List UInt8 := [0x49, 0x6e, 0x74, 0x65, 0x72, 0x66, 0x61, 0x63, 0x65]

/-- The text `/Entity/Interface/`. -/
def reservedPrefix : List UInt8 := nsPrefix ++ slash :: interfaceName ++ [slash]

def entityPathMax : Nat := 256
def entityNsComponentMax : Nat := 63
def entityMaxNsNodes : Nat := 8192
def entityArchMax : Nat := 63
def entityArchNbInterface : Nat := 13
def entityArchPty : Nat := 18
def entityArchNbDevice : Nat := 19

def errPerm : Int := -1
def errTooBig : Int := -7
def errNoDevice : Int := -19
def errNoSpace : Int := -28

def nsComponentValid (comp : List UInt8) : Bool :=
  0 < comp.length && comp.length < entityNsComponentMax && comp != [0x2e] && comp != [0x2e, 0x2e]

/-- The loop of `entity_ns_canonical`; `out` is what has been written so far. -/
def nsCanonicalFrom (outSize : Nat) : Nat → List UInt8 → List UInt8 → Except Int (List UInt8)
  | 0, _, out => .ok out
  | left + 1, p, out =>
    let p := p.dropWhile (· = slash)
    if p = [] then .ok out
    else
      let comp := p.takeWhile (· ≠ slash)
      if !nsComponentValid comp then .error errBadValue
      else if out.length + 1 + comp.length + 1 > outSize then .error errTooBig
      else nsCanonicalFrom outSize left (p.dropWhile (· ≠ slash)) (out ++ slash :: comp)

def nsCanonical (path : List UInt8) : Except Int (List UInt8) :=
  let p := path.drop nsPrefix.length
  if !nsPrefix.isPrefixOf path then .error errBadValue
  else if p ≠ [] ∧ p.head? ≠ some slash then .error errBadValue
  else nsCanonicalFrom entityPathMax p.length p nsPrefix

def nsIsPath (path : List UInt8) : Bool := (nsCanonical path).isOk

/-- `entity_ns_kernel_reserved`, on the text as it was given. -/
def nsKernelReserved (name : List UInt8) : Bool := reservedPrefix.isPrefixOf name

/-- The nodes in use, with the entity and the name of each, and the list of free ones. -/
structure Namespace where
  node : Nat → Option (UInt64 × List UInt8)
  freeNext : Nat → Option Nat
  freeHead : Option Nat

namespace Namespace

def init : Namespace where
  node := fun _ => none
  freeNext := fun i => if i + 1 < entityMaxNsNodes then some (i + 1) else none
  freeHead := some 0

def hasName (ns : Namespace) (name : List UInt8) : Bool :=
  (range entityMaxNsNodes).any fun i => (ns.node i).any fun n => n.2 == name

/-- `entity_ns_bind`: the name stored. -/
def bind (ns : Namespace) (path : List UInt8) (id : UInt64) : Except Int (Namespace × List UInt8) :=
  if id = 0 then .error errBadValue
  else
    match nsCanonical path with
    | .error e => .error e
    | .ok canon =>
      if ns.hasName canon then .error errExists
      else
        match ns.freeHead with
        | none => .error errNoSpace
        | some slot =>
          .ok (⟨update ns.node slot (some (id, canon)), update ns.freeNext slot none, ns.freeNext slot⟩, canon)

end Namespace

/-- A string of a user program: the bytes before its NUL, or before the first that is not the
program's. -/
structure UserString where
  bytes : List UInt8
  terminated : Bool

/-- `entity_copy_user_string` into a buffer of `ENTITY_PATH_MAX` bytes. -/
def copyUserString (user : Option UserString) : Except Int (List UInt8) :=
  match user with
  | none => .error errBadAddr
  | some s =>
    if s.bytes.length ≥ entityPathMax then .error errTooBig
    else if s.terminated then .ok s.bytes
    else .error errBadAddr

/-- What the calls find: the credentials and the entities, and the outcomes of making an entity, a
terminal and a handle. -/
structure NsWorld extends World where
  arch : UInt64 → Nat
  ptyMaster : Bool
  handle : Int

/-- May the process bind names of the kernel? -/
def NsWorld.trusted (w : NsWorld) (p : Owner) : Bool := p.any fun p => (w.creds p).kusrAuth

/-- What a call returns, the namespace behind it, and the name that it stored. -/
structure Bound where
  ret : Int
  ns : Namespace
  name : Option (List UInt8)

def Bound.error (ns : Namespace) (e : Int) : Bound := ⟨e, ns, none⟩

/-- The checks of `api_entity_create` on a name; an empty one is not bound. -/
def createName (w : NsWorld) (p : Owner) (user : Option UserString) : Except Int (List UInt8) :=
  match user with
  | none => .ok []
  | some s =>
    match copyUserString (some s) with
    | .error e => .error e
    | .ok name =>
      if name ≠ [] ∧ !nsIsPath name then .error errBadValue
      else if name ≠ [] ∧ nsKernelReserved name ∧ !w.trusted p then .error errPerm
      else .ok name

/-- `api_entity_create`; when it fails behind the binding, the entity is destroyed and the name goes
with it, but it was there. -/
def apiEntityCreate (w : NsWorld) (p : Owner) (arch : Nat) (access : UInt32)
    (user : Option UserString) (ns : Namespace) : Bound :=
  if arch = 0 ∨ arch > entityArchMax then .error ns errBadValue
  else if arch = entityArchNbDevice ∨ arch = entityArchNbInterface then .error ns errPerm
  else if !entityAccessValid access then .error ns errBadValue
  else
    match createName w p user with
    | .error e => .error ns e
    | .ok name =>
      match w.created with
      | none => .error ns errNoMemory
      | some id =>
        if arch = entityArchPty ∧ !w.ptyMaster then .error ns errNoDevice
        else if name = [] then .error ns w.handle
        else
          match ns.bind name id with
          | .error e => .error ns e
          | .ok (next, canon) => if w.handle < 0 then ⟨w.handle, ns, some canon⟩ else ⟨w.handle, next, some canon⟩

/-- `api_entity_ctl` with `ENTITY_CTL_BIND`, for the entity and access of a handle. -/
def apiEntityBind (w : NsWorld) (p : Owner) (handle : Except Int (UInt64 × UInt32))
    (user : Option UserString) (ns : Namespace) : Bound :=
  match handle with
  | .error e => .error ns e
  | .ok (id, access) =>
    if access &&& entityAccessWrite = 0 then .error ns errAccess
    else if (w.arch id = entityArchNbDevice ∨ w.arch id = entityArchNbInterface) ∧ !w.trusted p then .error ns errPerm
    else if entityAccess w.toWorld p id entityAccessWrite ≠ 0 then
      .error ns (entityAccess w.toWorld p id entityAccessWrite)
    else
      match copyUserString user with
      | .error e => .error ns e
      | .ok name =>
        if !nsIsPath name then .error ns errBadValue
        else if nsKernelReserved name ∧ !w.trusted p then .error ns errPerm
        else
          match ns.bind name id with
          | .error e => .error ns e
          | .ok (next, canon) => ⟨0, next, some canon⟩

/-- The two calls that bind a name of a process. -/
inductive Binding where
  | create (arch : Nat) (access : UInt32) (user : Option UserString)
  | ctlBind (handle : Except Int (UInt64 × UInt32)) (user : Option UserString)

def Binding.run (w : NsWorld) (p : Owner) (ns : Namespace) : Binding → Bound
  | create arch access user => apiEntityCreate w p arch access user ns
  | ctlBind handle user => apiEntityBind w p handle user ns

def Binding.user : Binding → Option UserString
  | create _ _ user => user
  | ctlBind _ user => user

variable {ns next : Namespace} {id : UInt64} {call : Binding}

theorem Namespace.bind_name (ran : ns.bind path id = .ok (next, name)) :
    nsCanonical path = .ok name := by
  unfold Namespace.bind at ran
  split at ran
  · cases ran
  split at ran
  · cases ran
  next canon same =>
  split at ran
  · cases ran
  split at ran
  · cases ran
  · cases ran
    exact same

theorem copyUserString_ok (copied : copyUserString user = .ok name) :
    ∃ s, user = some s ∧ s.bytes = name := by
  unfold copyUserString at copied
  split at copied
  · cases copied
  next s =>
  split at copied
  · cases copied
  split at copied
  · cases copied
    exact ⟨s, rfl, rfl⟩
  · cases copied

theorem createName_ok (checked : createName w p user = .ok name) (some_ : name ≠ [])
    (untrusted : w.trusted p = false) : ∃ s, user = some s ∧ s.bytes = name ∧
    nsKernelReserved name = false := by
  unfold createName at checked
  split at checked
  · cases checked
    exact absurd rfl some_
  next s =>
  split at checked
  · cases checked
  next copied =>
  split at checked
  · cases checked
  split at checked
  · cases checked
  next passed =>
  cases checked
  obtain ⟨_, same, bytes⟩ := copyUserString_ok copied
  cases same
  refine ⟨s, rfl, bytes, ?_⟩
  cases reserved : nsKernelReserved name with
  | false => rfl
  | true => exact absurd ⟨some_, reserved, by simp [untrusted]⟩ passed

theorem Binding.run_name (bound : (call.run w p ns).name = some name)
    (untrusted : w.trusted p = false) : ∃ s, call.user = some s ∧ nsCanonical s.bytes = .ok name ∧
    nsKernelReserved s.bytes = false := by
  cases call with
  | create arch access user =>
    change (apiEntityCreate w p arch access user ns).name = some name at bound
    unfold apiEntityCreate at bound
    iterate 4
      split at bound
      · cases bound
    next text checked =>
    split at bound
    · cases bound
    next id =>
    split at bound
    · cases bound
    split at bound
    · cases bound
    next some_ =>
    split at bound
    · cases bound
    next next canon ran =>
    have stored : canon = name := by
      split at bound <;> exact Option.some.inj bound
    obtain ⟨s, given, rfl, passed⟩ := createName_ok checked some_ untrusted
    exact ⟨s, given, stored ▸ Namespace.bind_name ran, passed⟩
  | ctlBind handle user =>
    change (apiEntityBind w p handle user ns).name = some name at bound
    unfold apiEntityBind at bound
    split at bound
    · cases bound
    next id access =>
    iterate 4
      split at bound
      · cases bound
    next text copied =>
    split at bound
    · cases bound
    split at bound
    · cases bound
    next passed =>
    split at bound
    · cases bound
    next next canon ran =>
    obtain ⟨s, given, rfl⟩ := copyUserString_ok copied
    cases bound
    refine ⟨s, given, Namespace.bind_name ran, ?_⟩
    cases reserved : nsKernelReserved s.bytes with
    | false => rfl
    | true => exact absurd ⟨reserved, by simp [untrusted]⟩ passed

/-- The components of a text, as the loop of `entity_ns_canonical` finds them. -/
def nsComponents : Nat → List UInt8 → List (List UInt8)
  | 0, _ => []
  | left + 1, p =>
    if p.dropWhile (· = slash) = [] then []
    else (p.dropWhile (· = slash)).takeWhile (· ≠ slash) ::
      nsComponents left ((p.dropWhile (· = slash)).dropWhile (· ≠ slash))

theorem nsCanonicalFrom_ok (ran : nsCanonicalFrom outSize left text out = .ok name) :
    name = out ++ (nsComponents left text).flatMap (slash :: ·) := by
  induction left generalizing text out with
  | zero =>
    cases ran
    simp [nsComponents]
  | succ left ih =>
    rw [nsCanonicalFrom] at ran
    rw [nsComponents]
    split at ran
    · next empty =>
      cases ran
      simp [empty]
    next some_ =>
    dsimp only at ran
    split at ran
    · cases ran
    split at ran
    · cases ran
    · rw [ih ran]
      simp [some_]

theorem nsComponents_plain (member : comp ∈ nsComponents left text) : slash ∉ comp := by
  induction left generalizing text with
  | zero => cases member
  | succ left ih =>
    rw [nsComponents] at member
    split at member
    · cases member
    rcases mem_cons.mp member with rfl | later
    · intro inside
      simpa using mem_takeWhile_imp inside
    · exact ih later

theorem nsCanonical_ok (ran : nsCanonical path = .ok name) :
    ∃ text, path = nsPrefix ++ text ∧ (text = [] ∨ text.head? = some slash) ∧
      name = nsPrefix ++ (nsComponents text.length text).flatMap (slash :: ·) := by
  unfold nsCanonical at ran
  dsimp only at ran
  split at ran
  · cases ran
  next begins =>
  split at ran
  · cases ran
  next slashed =>
  obtain ⟨text, rfl⟩ : nsPrefix <+: path := isPrefixOf_iff_prefix.mp (by simpa using begins)
  refine ⟨text, rfl, ?_, nsCanonicalFrom_ok ran⟩
  by_cases empty : text = []
  · exact .inl empty
  · exact .inr (not_not.mp fun other => slashed ⟨empty, other⟩)

theorem reserved_iff (plain : ∀ comp ∈ comps, slash ∉ comp) :
    reservedPrefix <+: nsPrefix ++ comps.flatMap (slash :: ·) ↔ ∃ d rest,
    comps = interfaceName :: d :: rest := by
  have cut : reservedPrefix <+: nsPrefix ++ comps.flatMap (slash :: ·) ↔
      slash :: interfaceName ++ [slash] <+: comps.flatMap (slash :: ·) := by
    exact prefix_append_right_inj nsPrefix
  rw [cut]
  constructor
  · intro begins
    cases comps with
    | nil => simp at begins
    | cons c comps =>
      rw [flatMap_cons, cons_append, cons_append, cons_prefix_cons] at begins
      -- what stands before the first slash is the first component
      obtain ⟨more, same⟩ := begins.2
      have until_ : ∀ l m : List UInt8, slash ∉ l → (l ++ slash :: m).takeWhile (· ≠ slash) = l := by
        intro l m clean
        rw [takeWhile_append_of_pos (fun x member => by
          simpa using fun equal : x = slash => clean (equal ▸ member))]
        simp
      have left_ : (interfaceName ++ [slash] ++ more).takeWhile (· ≠ slash) = interfaceName := by
        rw [append_assoc]
        exact until_ _ _ (by decide)
      cases comps with
      | nil =>
        have inside : slash ∈ c := by
          rw [flatMap_nil, append_nil] at same
          rw [← same]
          simp
        exact absurd inside (plain c (by simp))
      | cons d rest =>
        rw [flatMap_cons, cons_append] at same
        rw [same, until_ c _ (plain c (by simp))] at left_
        exact ⟨d, rest, by rw [left_]⟩
  · rintro ⟨d, rest, rfl⟩
    exact ⟨d ++ rest.flatMap (slash :: ·), by simp⟩

/-- The text names a place under `/Entity/Interface/` with more than one slash before
`Interface`. -/
def Respelled (path : List UInt8) : Prop :=
  ∃ k m tail, 2 ≤ k ∧ 1 ≤ m ∧ tail ≠ [] ∧ tail.head? ≠ some slash ∧
    path = nsPrefix ++ (replicate k slash ++ (interfaceName ++ (replicate m slash ++ tail)))

variable {tail : List UInt8}

theorem dropWhile_slashes (k : Nat) (other : tail.head? ≠ some slash) :
    (replicate k slash ++ tail).dropWhile (· = slash) = tail := by
  rw [dropWhile_append_of_pos (fun x member => by simpa using eq_of_mem_replicate member)]
  cases tail with
  | nil => rfl
  | cons c tail =>
    simpa using other

theorem eq_slashes (text : List UInt8) :
    ∃ k tail, text = replicate k slash ++ tail ∧ text.dropWhile (· = slash) = tail ∧
    tail.head? ≠ some slash := by
  refine ⟨(text.takeWhile (· = slash)).length, text.dropWhile (· = slash), ?_, rfl, ?_⟩
  · have slashes : text.takeWhile (· = slash) = replicate (text.takeWhile (· = slash)).length slash :=
      eq_replicate_iff.mpr ⟨rfl, fun c member => by simpa using mem_takeWhile_imp member⟩
    rw [← slashes]
    exact takeWhile_append_dropWhile.symm
  · intro first
    have wrong := head?_dropWhile_not (· = slash) text
    rw [first] at wrong
    simp at wrong

theorem interfaceName_plain : ∀ c ∈ interfaceName, decide (c ≠ slash) = true := by
  simp [interfaceName, slash]

theorem nsComponents_of_respelled (some_ : tail ≠ []) (other : tail.head? ≠ some slash)
    (fuel : 2 ≤ left) (back : 1 ≤ m) :
    ∃ d rest, nsComponents left (replicate k slash ++ (interfaceName ++ (replicate m slash ++ tail))) =
      interfaceName :: d :: rest := by
  obtain ⟨left, rfl⟩ := Nat.exists_eq_add_of_le' fuel
  obtain ⟨m, rfl⟩ := Nat.exists_eq_add_of_le' back
  have first : (interfaceName ++ (replicate (m + 1) slash ++ tail)).takeWhile (· ≠ slash) = interfaceName := by
    rw [takeWhile_append_of_pos interfaceName_plain, replicate_succ]
    simp
  have behind : (interfaceName ++ (replicate (m + 1) slash ++ tail)).dropWhile (· ≠ slash) =
      replicate (m + 1) slash ++ tail := by
    rw [dropWhile_append_of_pos interfaceName_plain, replicate_succ]
    simp
  rw [nsComponents, dropWhile_slashes k (by simp [interfaceName, slash]), if_neg (by simp), behind,
    nsComponents, dropWhile_slashes (m + 1) other, if_neg some_]
  exact ⟨_, _, rfl⟩

theorem respelled_of_reserved (slashed : text = [] ∨ text.head? = some slash)
    (passed : nsKernelReserved (nsPrefix ++ text) = false)
    (comps : nsComponents left text = interfaceName :: d :: rest) :
    Respelled (nsPrefix ++ text) := by
  cases left with
  | zero => cases comps
  | succ left =>
  obtain ⟨k, p, rfl, dropped, other⟩ := eq_slashes text
  rw [nsComponents, dropped] at comps
  split at comps
  · cases comps
  obtain ⟨first, more⟩ := cons.inj comps
  cases left with
  | zero => cases more
  | succ left =>
  obtain ⟨m, tail, behind, dropped', other'⟩ := eq_slashes (p.dropWhile (· ≠ slash))
  rw [nsComponents, dropped'] at more
  split at more
  · cases more
  next some_ =>
  have whole : p = interfaceName ++ (replicate m slash ++ tail) := by
    rw [← first, ← behind]
    exact takeWhile_append_dropWhile.symm
  -- a component ends at a slash
  have back : 1 ≤ m := by
    rcases Nat.eq_zero_or_pos m with rfl | positive
    · have begins := head?_dropWhile_not (· ≠ slash) p
      rw [behind, replicate_zero] at begins
      cases tail with
      | nil => exact absurd rfl some_
      | cons c tail =>
        have here : c = slash := by simpa using begins
        exact absurd (by rw [here]; rfl) other'
    · exact positive
  obtain ⟨m, rfl⟩ := Nat.exists_eq_add_of_le' back
  have front : 2 ≤ k := by
    rcases Nat.lt_or_ge 1 k with enough | _
    · exact enough
    exfalso
    rcases slashed with empty | begins
    · rw [whole] at empty
      simp at empty
    obtain rfl | rfl : k = 0 ∨ k = 1 := by omega
    · exact other begins
    · have reserved : reservedPrefix <+: nsPrefix ++ (replicate 1 slash ++ p) :=
        ⟨replicate m slash ++ tail, by
          rw [whole, replicate_succ (n := m)]
          simp [reservedPrefix]⟩
      rw [nsKernelReserved, isPrefixOf_iff_prefix.mpr reserved] at passed
      cases passed
  exact ⟨k, m + 1, tail, front, by omega, some_, other', by rw [whole]⟩

/-- A process that is not trusted gets a name under `/Entity/Interface/` exactly by writing more
than one slash before `Interface`. -/
theorem reserved_unbound_iff (untrusted : w.trusted p = false) :
    (∀ name, (call.run w p ns).name = some name → ¬reservedPrefix <+: name) ↔
      ∀ s, call.user = some s → (call.run w p ns).name.isSome → ¬Respelled s.bytes := by
  constructor
  · rintro safe s given bound ⟨k, m, tail, _, back, some_, other, same⟩
    obtain ⟨name, bound⟩ := Option.isSome_iff_exists.mp bound
    obtain ⟨_, given', canon, -⟩ := Binding.run_name bound untrusted
    cases given.symm.trans given'
    obtain ⟨text, cut, -, stored⟩ := nsCanonical_ok canon
    obtain rfl := append_cancel_left (cut.symm.trans same)
    have long : 2 ≤ (replicate k slash ++ (interfaceName ++ (replicate m slash ++ tail))).length := by
      simp only [length_append, length_replicate]
      omega
    apply safe name bound
    rw [stored]
    exact (reserved_iff fun _ => nsComponents_plain).mpr (nsComponents_of_respelled some_ other long back)
  · intro spelled name bound reserved
    obtain ⟨s, given, canon, passed⟩ := Binding.run_name bound untrusted
    obtain ⟨text, cut, slashed, stored⟩ := nsCanonical_ok canon
    rw [stored] at reserved
    obtain ⟨d, _, comps⟩ := (reserved_iff fun _ => nsComponents_plain).mp reserved
    apply spelled s given (by rw [bound]; rfl)
    rw [cut] at passed ⊢
    exact respelled_of_reserved slashed passed comps

/-- A process without rights, and room for whatever it makes. -/
def plainNsWorld : NsWorld where
  creds := fun _ => ⟨false, 1000, 1000⟩
  ids := fun _ => some ⟨1000, 1000, 1000, 1000⟩
  isPath := nsIsPath
  nsLookup := fun _ => .error errNotFound
  isShm := fun _ => false
  segments := []
  backing := fun _ => none
  userAddress := true
  memory := true
  created := some 0x0001000100000000
  arch := fun _ => 1
  ptyMaster := true
  handle := 0x10000

/-- The text `/Entity//Interface/x`. -/
def doubledPath : List UInt8 := nsPrefix ++ [slash, slash] ++ interfaceName ++ [slash, 0x78]

theorem doubledPath_bound : plainNsWorld.trusted (some ⟨2, by decide⟩) = false ∧
    ∃ name, ((Binding.create 1 1 (some ⟨doubledPath, true⟩)).run plainNsWorld (some ⟨2, by decide⟩)
        .init).name = some name ∧ reservedPrefix <+: name :=
  ⟨rfl, reservedPrefix ++ [0x78], by decide +kernel, by decide⟩

/-- The text `/Entity/x`. -/
def plainPath : List UInt8 := nsPrefix ++ [slash, 0x78]

/-- A name outside of the kernel's is bound as it is given. -/
theorem plainPath_unbound : plainNsWorld.trusted (some ⟨2, by decide⟩) = false ∧
    ((Binding.create 1 1 (some ⟨plainPath, true⟩)).run plainNsWorld (some ⟨2, by decide⟩) .init).name = some plainPath ∧
    ∀ name, ((Binding.create 1 1 (some ⟨plainPath, true⟩)).run plainNsWorld (some ⟨2, by decide⟩)
      .init).name = some name → ¬reservedPrefix <+: name := by
  refine ⟨rfl, by decide +kernel, (reserved_unbound_iff rfl).mpr ?_⟩
  rintro s given - ⟨k, m, tail, two, -, -, -, same⟩
  cases given
  obtain ⟨k, rfl⟩ : ∃ j, k = j + 2 := ⟨k - 2, by omega⟩
  -- the second byte behind `/Entity` is no slash
  cases append_cancel_left same

end Otsos.Entity
