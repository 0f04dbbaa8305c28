import Otsos.Entity.Handle

/-! The calls by which user programs get handles: `api_entity_open`, `api_entity_dup`,
`api_shm_get`, `api_data_pipe` and fork. Each checks its arguments and then calls the handle
table. -/
namespace Otsos.Entity
open Function (update)

def entityAccessRead : UInt32 := 1
def entityAccessWrite : UInt32 := 2
def entityAccessExec : UInt32 := 4
def entityAccessAll : UInt32 := entityAccessRead ||| entityAccessWrite ||| entityAccessExec

def shmCreat : UInt32 := 0x200
def shmExcl : UInt32 := 0x400
def shmRdonly : UInt32 := 0x1000
def shmPrivate : UInt64 := 0

def apiMapRead : UInt32 := 1
def apiMapWrite : UInt32 := 2

def errNotFound : Int := -2
def errAccess : Int := -13
def errBadAddr : Int := -14
def errExists : Int := -17

structure Creds where
  kusrAuth : Bool
  (euid egid : UInt32)

/-- The ids in the record of an entity. -/
structure EntityIds where
  (uid gid euid egid : UInt32)

structure ShmSegment where
  (used removed : Bool)
  (key size : UInt64)
  mode : UInt32
  entity : UInt64

/-- What a call finds outside the handle table: the processes, the entities and their names, the
segments, and the answers to its requests for memory and for a new entity. -/
structure World where
  creds : Pid → Creds
  ids : UInt64 → Option EntityIds
  isPath : List UInt8 → Bool
  nsLookup : List UInt8 → Except Int UInt64
  isShm : UInt64 → Bool
  segments : List ShmSegment
  backing : UInt64 → Option ShmSegment
  (userAddress memory : Bool)
  created : Option UInt64

def entityAccessValid (access : UInt32) : Bool := access ≠ 0 ∧ access &&& ~~~entityAccessAll = 0

variable (w : World)
/-- The access that is wanted is not looked at. -/
def entityAccess (p : Owner) (id : UInt64) (_want : UInt32) : Int :=
  match p with
  | none => 0
  | some p =>
    match w.ids id with
    | none => errBadHandle
    | some ids =>
      if (w.creds p).kusrAuth ∨ (w.creds p).euid = 0 then 0
      else if (w.creds p).euid = ids.euid then 0
      else if (w.creds p).egid = ids.egid then 0
      else errAccess

/-- `api_entity_open`, up to the handle. The name is what `entity_copy_user_string` gave. -/
def apiEntityOpen (p : Pid) (uname : Except Int (List UInt8)) (access : UInt32) : Except Int Call :=
  if !entityAccessValid access then .error errBadValue
  else do
    let name ← uname
    if !w.isPath name then throw errBadValue
    let id ← w.nsLookup name
    let ret := entityAccess w (some p) id access
    if ret ≠ 0 then throw ret
    return .alloc (some p) id access

def shmAccessAllowed (seg : ShmSegment) (p : Pid) (required : UInt32) : Bool :=
  let creds := w.creds p
  if creds.kusrAuth ∨ creds.euid = 0 then true
  else
    let mode :=
      if creds.euid = (w.ids seg.entity).elim 0 (·.uid) then (seg.mode >>> 6) &&& 7
      else if creds.egid = (w.ids seg.entity).elim 0 (·.gid) then (seg.mode >>> 3) &&& 7
      else seg.mode &&& 7
    if required &&& entityAccessRead ≠ 0 ∧ mode &&& 4 = 0 then false
    else if required &&& entityAccessWrite ≠ 0 ∧ mode &&& 2 = 0 then false
    else true

/-- The access that `api_shm_get` asks for and that `shm_get_or_create` checks. -/
def shmAccess (flags : UInt32) : UInt32 :=
  if flags &&& shmRdonly ≠ 0 then entityAccessRead else entityAccessRead ||| entityAccessWrite

/-- A new segment, with the entity that stands for it. -/
def shmCreate (size : UInt64) : Except Int UInt64 :=
  if size = 0 then .error errBadValue
  else if w.segments.all (·.used) then .error errNoMemory
  else if !w.memory then .error errNoMemory
  else w.created.elim (.error errNoMemory) .ok

/-- `shm_get_or_create`, with the entity of the segment. -/
def shmGetOrCreate (p : Pid) (key size : UInt64) (flags : UInt32) : Except Int UInt64 :=
  if key = shmPrivate then shmCreate w size
  else
    match w.segments.find? fun seg => seg.used && !seg.removed && seg.key == key with
    | some seg =>
      if flags &&& shmCreat ≠ 0 ∧ flags &&& shmExcl ≠ 0 then .error errExists
      else if size > seg.size then .error errBadValue
      else if !shmAccessAllowed w seg p (shmAccess flags) then .error errAccess
      else .ok seg.entity
    | none => if flags &&& shmCreat = 0 then .error errNotFound else shmCreate w size

/-- `api_shm_get`, up to the handle. -/
def apiShmGet (p : Pid) (key size : UInt64) (flags : UInt32) : Except Int Call :=
  if !w.userAddress then .error errBadAddr
  else (shmGetOrCreate w p key size flags).map fun entity => .alloc (some p) entity
    (shmAccess flags)

/-- The segment of a handle with the access required. -/
def shmHandleGet (t : HandleTable) (p : Pid) (handle : Int) (required : UInt32)
    (allowRemoved : Bool) : Option ShmSegment :=
  match t.lookup (some p) handle with
  | .error _ => none
  | .ok (id, access) =>
    if !w.isShm id ∨ access &&& required ≠ required then none
    else (w.backing id).filter fun seg => seg.used && (allowRemoved || !seg.removed)

/-- `api_shm_map`, up to the mapping of the segment. -/
def apiShmMap (t : HandleTable) (p : Pid) (handle : Int) (prot : UInt32) : Except Int ShmSegment :=
  if !w.userAddress then .error errBadAddr
  else
    let access := (if prot &&& apiMapRead ≠ 0 then entityAccessRead else 0) |||
      (if prot &&& apiMapWrite ≠ 0 then entityAccessWrite else 0)
    if access = 0 then .error errBadValue
    else (shmHandleGet w t p handle access false).elim (.error errBadHandle) .ok

/-- What a thread does when the call of the handle table has returned. -/
inductive After where
  | return
  | pipeWrite (p : Pid) (id : UInt64)
  | pipeUndo (p : Pid) (readHandle : Int)

/-- `api_data_pipe` has a second handle to make, and gives the first one back if it fails. -/
def After.resume : After → Int → Option (Call × After)
  | .return, _ => none
  | .pipeWrite p id, ret => if ret < 0 then none else some (.alloc (some p) id entityAccessWrite, .pipeUndo p ret)
  | .pipeUndo p readHandle, ret => if ret < 0 then some (.free (some p) (.ofInt readHandle), .return) else none

inductive Api where
  | entityOpen (uname : Except Int (List UInt8)) (access : UInt32)
  | entityDup (handle : Int32) (access : UInt32)
  | entityClose (handle : Int32)
  | shmGet (key size : UInt64) (flags : UInt32)
  | dataPipe
  | fork (child : Pid)
  | exit

/-- The first call of the handle table that a user-facing call makes. -/
def Api.begin (p : Pid) : Api → Except Int (Call × After)
  | entityOpen uname access => (apiEntityOpen w p uname access).map (·, .return)
  | entityDup handle access => .ok (.dup (some p) handle access, .return)
  | entityClose handle => .ok (.free (some p) handle, .return)
  | shmGet key size flags => (apiShmGet w p key size flags).map (·, .return)
  | dataPipe =>
    if !w.userAddress then .error errBadAddr
    else
      match w.created with
      | none => .error errNoMemory
      | some id =>
        if !w.memory then .error errNoMemory
        else .ok (.alloc (some p) id entityAccessRead, .pipeWrite p id)
  | fork child => .ok (.copyAll (some child) (some p), .return)
  | exit => .ok (.releaseAll (some p), .return)

/-- The handle table with the threads of user programs. -/
structure ApiConfig where
  config : Config
  after : Nat → After

namespace ApiConfig

def init : ApiConfig := ⟨.init, fun _ => .return⟩

/-- The thread makes this call of the handle table, and goes on with `after`. -/
def call (s : ApiConfig) (n : Nat) (c : Call) (after : After) : ApiConfig :=
  ⟨(s.config.step (.call n c)).1, update s.after n after⟩

end ApiConfig

/-- What user programs do, step by step, with what happens to the handles: a process is set up, a
thread begins a call, goes on with the next call of the handle table, or makes a step in it. -/
inductive ApiRun : ApiConfig → List Happening → ApiConfig → Prop where
  | nil (s : ApiConfig) : ApiRun s [] s
  | setUp {s' : ApiConfig} {hs : List Happening} (n : Nat) (p : Pid)
    (allowed : s.config.Allowed (.call n (.initProcess p)))
    (rest : ApiRun (s.call n (.initProcess p) .return) hs s') : ApiRun s hs s'
  | begin {s' : ApiConfig} {hs : List Happening} (n : Nat) (p : Pid) (w : World) (a : Api) {c : Call} {after : After}
    (idle : s.after n = .return) (granted : a.begin w p = .ok (c, after))
    (allowed : s.config.Allowed (.call n c))
    (rest : ApiRun (s.call n c after) hs s') : ApiRun s hs s'
  | resume {s' : ApiConfig} {hs : List Happening} (n : Nat) {ret : Int} {c : Call} {after : After}
    (done : s.config.threads n = .done ret) (next : (s.after n).resume ret = some (c, after))
    (allowed : s.config.Allowed (.call n c)) (rest : ApiRun (s.call n c after) hs s') : ApiRun s hs s'
  | finish {s' : ApiConfig} {hs : List Happening} (n : Nat) {ret : Int} (done : s.config.threads n = .done ret)
    (next : (s.after n).resume ret = none)
    (rest : ApiRun ⟨s.config, update s.after n .return⟩ hs s') : ApiRun s hs s'
  | step {s' : ApiConfig} {hs : List Happening} (n : Nat) (o : Outcome)
    (rest : ApiRun ⟨(s.config.step (.step n o)).1, s.after⟩ hs s') :
    ApiRun s ((s.config.step (.step n o)).2.toList ++ hs) s'

end Otsos.Entity
