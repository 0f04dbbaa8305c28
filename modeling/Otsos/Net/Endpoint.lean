import Mathlib.Data.List.Perm.Subperm
import Mathlib.Logic.Function.Iterate
import Otsos.Foundation.Chain
import Otsos.Foundation.Transition

/-! Endpoints: the hash in which the endpoint of a segment is looked up, and the port that an
endpoint without one gets. -/
namespace Otsos.Net
open List Intrusive Transition

inductive Proto where
  | udp | tcp
deriving DecidableEq

inductive Mode where
  | dgram | stream
deriving DecidableEq

inductive TcpState where
  | closed | listen | synSent | synReceived | established | finWait1 | finWait2 | closeWait | closing | lastAck | timeWait
deriving DecidableEq

structure Endpoint where
  used : Bool
  proto : Proto
  mode : Mode
  tcpState : TcpState
  (localIp peerIp : UInt32)
  (localPort peerPort : UInt16)
  (hashNextListener hashNextConnected : Option Nat)

def netEndpointMax : Nat := 64

def hashSize : Nat := 67

structure Table where
  endpoints : Nat → Endpoint
  (connHead listHead : Nat → Option Nat)
  initialized : Bool
  nextEphemeral : UInt16

/-! ### Looking up -/

def hashMix (data : List UInt8) (seed : UInt32) : UInt32 :=
  data.foldl (fun hash byte => (hash ^^^ byte.toUInt32) * 16777619) seed

def portKey (port : UInt16) : List UInt8 := [(port >>> 8).toUInt8, port.toUInt8]

def ipKey (ip : UInt32) : List UInt8 :=
  [(ip >>> 24).toUInt8, (ip >>> 16).toUInt8, (ip >>> 8).toUInt8, ip.toUInt8]

def connBucket (localIp peerIp : UInt32) (localPort peerPort : UInt16) : Nat :=
  (hashMix (portKey localPort ++ portKey peerPort ++ ipKey peerIp ++ ipKey localIp)
    2166136261).toNat % hashSize

def listBucket (localIp : UInt32) (localPort : UInt16) : Nat :=
  (hashMix (portKey localPort ++ ipKey localIp) 2166136261).toNat % hashSize

def Endpoint.tcpStream (ep : Endpoint) : Bool := ep.used && ep.proto == .tcp && ep.mode == .stream

/-- The endpoints that `net_endpoint_hash_insert` puts into a bucket of listeners. -/
def Endpoint.listens (ep : Endpoint) : Bool :=
  ep.tcpStream && ep.tcpState == .listen

/-- The endpoints that it puts into a bucket of connections. -/
def Endpoint.connects (ep : Endpoint) : Bool :=
  ep.tcpStream && ep.tcpState != .listen && ep.localPort != 0 && ep.peerPort != 0

def Endpoint.listensAt (localIp : UInt32) (localPort : UInt16) (ep : Endpoint) : Bool :=
  ep.listens && ep.localPort == localPort && (ep.localIp == 0 || ep.localIp == localIp)

def Endpoint.connectsAt (localIp peerIp : UInt32) (localPort peerPort : UInt16) (ep : Endpoint) :
    Bool :=
  ep.tcpStream && ep.tcpState != .listen && ep.localPort == localPort &&
    ep.peerPort == peerPort && ep.peerIp == peerIp && (ep.localIp == 0 || ep.localIp == localIp)

/-- The loop over a bucket; `none` is a loop that does not end. -/
def Table.walk (t : Table) (next : Endpoint → Option Nat) (hit : Endpoint → Bool) :
    Nat → Option Nat → Option (Option Nat)
  | _, none => some none
  | 0, some _ => none
  | fuel + 1, some slot =>
    if hit (t.endpoints slot) then some (some slot)
      else t.walk next hit fuel (next (t.endpoints slot))

def Table.find (t : Table) (localIp peerIp : UInt32) (localPort peerPort : UInt16) :
    Option (Option Nat) :=
  if !t.initialized then some none
  else t.walk (·.hashNextConnected) (·.connectsAt localIp peerIp localPort peerPort) netEndpointMax
    (t.connHead (connBucket localIp peerIp localPort peerPort))

def Table.findListener (t : Table) (localIp : UInt32) (localPort : UInt16) : Option (Option Nat) :=
  if !t.initialized then some none
  else t.walk (·.hashNextListener) (·.listensAt localIp localPort) netEndpointMax
    (t.listHead (listBucket localIp localPort))

/-- Each bucket chains the endpoints that hash to it. -/
def Table.Chained (t : Table) (next : Endpoint → Option Nat) (head : Nat → Option Nat)
    (hashed : Endpoint → Bool) (bucket : Endpoint → Nat) : Prop :=
  ∀ b < hashSize, ∃ l, Chain (fun i => next (t.endpoints i)) (head b) l ∧
    ∀ i, i ∈ l ↔ i < netEndpointMax ∧ hashed (t.endpoints i) ∧ bucket (t.endpoints i) = b

structure Table.Consistent (t : Table) : Prop where
  initialized : t.initialized
  listeners : t.Chained (·.hashNextListener) t.listHead (·.listens) fun ep =>
    listBucket ep.localIp ep.localPort
  connected : t.Chained (·.hashNextConnected) t.connHead (·.connects)
    fun ep => connBucket ep.localIp ep.peerIp ep.localPort ep.peerPort

/-- A search answers with an endpoint exactly if the linear one does. -/
def Table.Exact (t : Table) (hit : Endpoint → Bool) (found : Option (Option Nat)) : Prop :=
  ∃ answer, found = some answer ∧ (answer.isSome ↔ ∃ i < netEndpointMax, hit (t.endpoints i))

variable {t : Table} {next : Endpoint → Option Nat} {head : Nat → Option Nat} {l : List Nat}

theorem Table.walk_spec (chain : Chain (fun i => next (t.endpoints i)) link l)
    (enough : l.length ≤ fuel) :
    t.walk next hit fuel link = some (l.find? fun i => hit (t.endpoints i)) := by
  induction l generalizing link fuel with
  | nil =>
    cases chain
    rw [walk]
    rfl
  | cons i l ih =>
    obtain ⟨rfl, rest⟩ := chain
    cases fuel with
    | zero => cases enough
    | succ fuel =>
      rw [walk, find?_cons]
      cases hit (t.endpoints i) with
      | true => rfl
      | false => exact ih rest (Nat.le_of_succ_le_succ enough)

/-- What the code misses are the endpoints that hash to another bucket than what is looked for. -/
theorem Table.Chained.walk_exact (chained : t.Chained next head hashed bucket)
    (inside : b < hashSize) : t.Exact hit (t.walk next hit netEndpointMax (head b)) ↔
      ((∃ i < netEndpointMax, hit (t.endpoints i)) →
      ∃ i < netEndpointMax, hit (t.endpoints i) ∧ hashed (t.endpoints i) ∧
      bucket (t.endpoints i) = b) := by
  obtain ⟨l, chain, members⟩ := chained b inside
  have short : l.length ≤ netEndpointMax := by
    have slots :=
      (subperm_of_subset chain.nodup fun i member => mem_range.mpr ((members i).mp member).1).length_le
    rwa [length_range] at slots
  have met : (l.find? fun i => hit (t.endpoints i)).isSome ↔
      ∃ i < netEndpointMax, hit (t.endpoints i) ∧ hashed (t.endpoints i) ∧
      bucket (t.endpoints i) = b := by
    simp only [find?_isSome, members]
    exact exists_congr fun i => by tauto
  rw [walk_spec chain short]
  constructor
  · rintro ⟨answer, found, same⟩ some_
    rw [← Option.some.inj found] at same
    exact met.mp (same.mpr some_)
  · intro some_
    refine ⟨_, rfl, fun found => ?_, fun any => met.mpr (some_ any)⟩
    obtain ⟨i, here, hits, -⟩ := met.mp found
    exact ⟨i, here, hits⟩

/-- The part of a key that a wildcard does not share is the local address. -/
theorem Table.Chained.exact_iff (chained : t.Chained next head hashed bucket)
    (hit : Endpoint → Bool) (key : UInt32 → Nat) (ip : UInt32) (proper : Prop)
      (inside : key ip < hashSize) (shape : ∀ ep, hit ep →
      (hashed ep ↔ proper) ∧ bucket ep = key ep.localIp ∧ (ep.localIp = 0 ∨ ep.localIp = ip)) :
    t.Exact hit (t.walk next hit netEndpointMax (head (key ip))) ↔
      ((∃ i < netEndpointMax, hit (t.endpoints i)) →
      proper ∧ ((∃ i < netEndpointMax, hit (t.endpoints i) ∧ (t.endpoints i).localIp = ip) ∨ key 0 = key ip)) := by
  rw [chained.walk_exact inside]
  refine imp_congr_right fun ⟨i, here, hits⟩ => ⟨?_, ?_⟩
  · rintro ⟨j, there, hits, kept, same⟩
    obtain ⟨shown, keyed, which⟩ := shape _ hits
    rw [keyed] at same
    refine ⟨shown.mp kept, ?_⟩
    rcases which with wild | exact
    · rw [wild] at same
      exact .inr same
    · exact .inl ⟨j, there, hits, exact⟩
  · rintro ⟨proper, ⟨j, there, hits, exact⟩ | same⟩
    · obtain ⟨shown, keyed, -⟩ := shape _ hits
      exact ⟨j, there, hits, shown.mpr proper, by rw [keyed, exact]⟩
    · obtain ⟨shown, keyed, wild | exact⟩ := shape _ hits
      · exact ⟨i, here, hits, shown.mpr proper, by rw [keyed, wild, same]⟩
      · exact ⟨i, here, hits, shown.mpr proper, by rw [keyed, exact]⟩

/-- A wildcard is found only for an address of its bucket, or next to an endpoint with that address;
and a connection without a port is in no bucket. -/
theorem Table.finds_iff (consistent : t.Consistent) (localIp peerIp : UInt32)
    (localPort peerPort : UInt16) :
      (t.Exact (·.listensAt localIp localPort) (t.findListener localIp localPort) ↔
      ((∃ i < netEndpointMax, (t.endpoints i).listensAt localIp localPort) →
        (∃ i < netEndpointMax, (t.endpoints i).listensAt localIp localPort ∧ (t.endpoints i).localIp = localIp) ∨
          listBucket 0 localPort = listBucket localIp localPort)) ∧
    (t.Exact (·.connectsAt localIp peerIp localPort peerPort)
      (t.find localIp peerIp localPort peerPort) ↔
        ((∃ i < netEndpointMax, (t.endpoints i).connectsAt localIp peerIp localPort peerPort) →
        (localPort ≠ 0 ∧ peerPort ≠ 0) ∧
        ((∃ i < netEndpointMax, (t.endpoints i).connectsAt localIp peerIp localPort peerPort ∧
          (t.endpoints i).localIp = localIp) ∨
          connBucket 0 peerIp localPort peerPort = connBucket localIp peerIp localPort peerPort))) := by
  rw [findListener, find, consistent.initialized, if_neg (by decide)]
  constructor
  · have listeners :=
      consistent.listeners.exact_iff (·.listensAt localIp localPort) (listBucket · localPort)
        localIp True (Nat.mod_lt _ (by decide)) ?_
    · simpa only [true_and] using listeners
    · intro ep hits
      simp only [Endpoint.listensAt, Bool.and_eq_true, Bool.or_eq_true, beq_iff_eq] at hits
      simp [hits]
  · refine consistent.connected.exact_iff (·.connectsAt localIp peerIp localPort peerPort)
      (connBucket · peerIp localPort peerPort) localIp _ (Nat.mod_lt _ (by decide))
      fun ep hits => ?_
    simp only [Endpoint.connectsAt, Bool.and_eq_true, Bool.or_eq_true, beq_iff_eq] at hits
    simp [Endpoint.connects, hits]

/-- A server that listens on port 80 of every address. -/
def wildcard : Table where
  endpoints i := ⟨i == 0, .tcp, .stream, .listen, 0, 0, 80, 0, none, none⟩
  connHead _ := none
  listHead b := if b = listBucket 0 80 then some 0 else none
  initialized := true
  nextEphemeral := 49152

theorem wildcard_consistent : wildcard.Consistent where
  initialized := rfl
  listeners b _ := by
    by_cases here : b = listBucket 0 80
    · refine ⟨[0], ⟨if_pos here, rfl⟩, fun i => ?_⟩
      simp [wildcard, Endpoint.listens, Endpoint.tcpStream, netEndpointMax]
      omega
    · exact ⟨[], if_neg here, fun i => by simp [wildcard, Ne.symm here]⟩
  connected b _ := ⟨[], rfl, fun i => by simp [wildcard, Endpoint.connects]⟩

/-- Another server listens at 10.0.0.1 beside it. -/
def beside : Table :=
  { wildcard with
    endpoints :=
    Function.update wildcard.endpoints 1 ⟨true, .tcp, .stream, .listen, 0x0A000001, 0, 80, 0, none,
      none⟩
    listHead := Function.update wildcard.listHead (listBucket 0x0A000001 80) (some 1) }

theorem beside_consistent : beside.Consistent where
  initialized := rfl
  listeners b _ := by
    have apart : listBucket 0 80 ≠ listBucket 0x0A000001 80 := by decide
    by_cases second : b = listBucket 0x0A000001 80
    · subst second
      refine ⟨[1], ⟨rfl, rfl⟩, fun i => ?_⟩
      by_cases one : i = 1
      · subst one
        exact ⟨fun _ => by decide, fun _ => mem_cons_self⟩
      · simp [beside, wildcard, one, apart]
    by_cases first : b = listBucket 0 80
    · subst first
      refine ⟨[0], ⟨rfl, rfl⟩, fun i => ?_⟩
      by_cases one : i = 1
      · subst one
        exact ⟨by decide, by decide⟩
      · simp [beside, wildcard, one, Endpoint.listens, Endpoint.tcpStream, netEndpointMax]
        omega
    · refine ⟨[], (Function.update_of_ne second ..).trans (if_neg first), fun i => ?_⟩
      by_cases one : i = 1
      · simp [beside, one, Ne.symm second]
      · simp [beside, wildcard, one, Ne.symm first]
  connected b _ := ⟨[], rfl, fun i => by
    by_cases one : i = 1 <;> simp [beside, wildcard, one, Endpoint.connects]⟩

theorem finds_wildcard :
    beside.Exact (·.listensAt 0x0A000001 80) (beside.findListener 0x0A000001 80) :=
  (Table.finds_iff beside_consistent 0x0A000001 0 80 0).1.mpr fun _ => .inl ⟨1, by decide⟩

/-- No client at 10.0.0.1 reaches it. -/
theorem wildcard_missed : wildcard.Consistent ∧ (wildcard.endpoints 0).listensAt 0x0A000001 80 ∧
    wildcard.findListener 0x0A000001 80 = some none :=
  ⟨wildcard_consistent, by decide, by decide⟩

/-! ### Allocating a port -/

def ephemeralFirst : Nat := 49152

def ephemeralLast : Nat := 65535

def errBusy : Int := -16

def Table.bindConflict (t : Table) (self : Nat) (ip : UInt32) (port : UInt16) : Bool :=
  (range netEndpointMax).any fun i =>
    (t.endpoints i).used && i != self && (t.endpoints i).proto == (t.endpoints self).proto &&
      (t.endpoints i).localPort == port &&
      ((t.endpoints i).localIp == 0 || ip == 0 || (t.endpoints i).localIp == ip)

/-- The loop of `net_endpoint_alloc_port`, with the tries that are left. -/
def allocPortLoop (conflict : UInt16 → Bool) : Nat → UInt16 → UInt16 × Int
  | 0, nextEphemeral => (nextEphemeral, errBusy)
  | tries + 1, nextEphemeral =>
    let port := nextEphemeral
    let nextEphemeral := nextEphemeral + 1
    let nextEphemeral := if nextEphemeral.toNat > ephemeralLast then .ofNat ephemeralFirst
      else nextEphemeral
    if !conflict port then (nextEphemeral, port.toNat)
      else allocPortLoop conflict tries nextEphemeral

def Table.allocPort (t : Table) (self : Nat) (ip : UInt32) : Table × Int :=
  let (nextEphemeral, result) :=
    allocPortLoop (t.bindConflict self ip) (ephemeralLast - ephemeralFirst + 1) t.nextEphemeral
  (⟨t.endpoints, t.connHead, t.listHead, t.initialized, nextEphemeral⟩, result)

/-- What a caller may expect of the result. -/
def Ephemeral (conflict : UInt16 → Bool) (result : Int) : Prop :=
  (∃ port : UInt16, ephemeralFirst ≤ port.toNat ∧ conflict port = false ∧ result = port.toNat) ∨
    (result = errBusy ∧ ∀ port : UInt16, ephemeralFirst ≤ port.toNat → conflict port)

/-- The cursor is compared with the largest value that it can have: it goes on from 65535 to 0. -/
theorem allocPortLoop_succ : allocPortLoop conflict (tries + 1) first =
    if conflict first then allocPortLoop conflict tries (first + 1)
    else (first + 1, first.toNat) := by
  have small : ¬(first + 1).toNat > ephemeralLast :=
    Nat.not_lt.mpr (Nat.le_of_lt_succ (first + 1).toNat_lt)
  rw [allocPortLoop, if_neg small]
  cases conflict first <;> rfl

/-- The first port without a conflict is found before the cursor is past the last one. -/
theorem allocPortLoop_found (free : conflict port = false) (above : first.toNat ≤ port.toNat)
    (near : port.toNat < first.toNat + tries) : ∃ found : UInt16, first.toNat ≤ found.toNat ∧
      found.toNat ≤ port.toNat ∧ conflict found = false ∧
      allocPortLoop conflict tries first = (found + 1, (found.toNat : Int)) := by
  induction tries generalizing first with
  | zero => omega
  | succ tries ih =>
    rw [allocPortLoop_succ]
    cases taken : conflict first with
    | false => exact ⟨first, Nat.le_refl _, above, taken, rfl⟩
    | true =>
      have other : first.toNat ≠ port.toNat := by
        intro same
        rw [UInt16.toNat_inj.mp same, free] at taken
        cases taken
      have next : (first + 1).toNat = first.toNat + 1 := by
        have last := port.toNat_lt
        rw [UInt16.toNat_add]
        exact Nat.mod_eq_of_lt (by simp; omega)
      obtain ⟨found, after, before, rest⟩ := @ih (first + 1) (by omega) (by omega)
      exact ⟨found, by omega, before, rest⟩

/-- The ports of the endpoints in use. -/
def Table.ports (t : Table) : List UInt16 :=
  ((range netEndpointMax).filter fun i => (t.endpoints i).used).map
    fun i => (t.endpoints i).localPort

theorem Table.mem_ports (conflict : t.bindConflict self ip port = true) : port ∈ t.ports := by
  obtain ⟨i, inside, here⟩ := any_eq_true.mp conflict
  simp only [Bool.and_eq_true, beq_iff_eq] at here
  obtain ⟨⟨⟨⟨used, -⟩, -⟩, same⟩, -⟩ := here
  exact mem_map.mpr ⟨i, mem_filter.mpr ⟨inside, used⟩, same⟩

/-- Of more ports than there are endpoints in use one is free. -/
theorem Table.exists_free (t : Table) (self : Nat) (ip : UInt32)
    (room : first + t.ports.length ≤ ephemeralLast) :
    ∃ port : UInt16, first ≤ port.toNat ∧ port.toNat ≤ first + t.ports.length ∧
    t.bindConflict self ip port = false := by
  by_contra! all
  have small : ∀ n ∈ range' first (t.ports.length + 1), (UInt16.ofNat n).toNat = n := by
    intro n inside
    rw [mem_range'_1] at inside
    refine UInt16.toNat_ofNat_of_lt' (Nat.lt_of_lt_of_le (Nat.lt_succ_of_le ?_)
      (by decide : ephemeralLast + 1 ≤ UInt16.size))
    omega
  have distinct : ((range' first (t.ports.length + 1)).map UInt16.ofNat).Nodup :=
    .map_on (fun m here n there same => by rw [← small m here, same, small n there]) nodup_range'
  have inside : (range' first (t.ports.length + 1)).map UInt16.ofNat ⊆ t.ports := by
    intro port member
    obtain ⟨n, here, rfl⟩ := mem_map.mp member
    have value := small n here
    rw [mem_range'_1] at here
    exact mem_ports (eq_true_of_ne_false (all _ (by omega) (by omega)))
  have fewer := (subperm_of_subset distinct inside).length_le
  rw [length_map, length_range'] at fewer
  omega

/-- A port is allocated, or an endpoint is bound, connected, opened or closed in any way. -/
inductive PortAct where
  | alloc (self : Nat) (ip : UInt32)
  | store (i : Nat) (ep : Endpoint)

namespace Table

def step (t : Table) : PortAct → Option Table
  | .alloc self ip => some (t.allocPort self ip).1
  | .store i ep => some { t with endpoints := Function.update t.endpoints i ep }

/-- The cursor is farther from the last port than there are endpoints in use. -/
def Room (t : Table) : PortAct → Prop
  | .alloc .. => t.nextEphemeral.toNat + t.ports.length < ephemeralLast
  | .store .. => True

instance (a : PortAct) : Decidable (t.Room a) := by
  cases a <;> unfold Room <;> infer_instance

def Inside (t : Table) : Prop := ephemeralFirst ≤ t.nextEphemeral.toNat

/-- The port that is found is an ephemeral one without a conflict, and the cursor goes behind it. -/
theorem allocPort_found (inside : t.Inside) (room : t.Room (.alloc self ip)) :
    ∃ port : UInt16, t.nextEphemeral.toNat ≤ port.toNat ∧ port.toNat < ephemeralLast ∧
      t.bindConflict self ip port = false ∧
      t.allocPort self ip = ({ t with nextEphemeral := port + 1 }, (port.toNat : Int)) := by
  obtain ⟨port, above, below, free⟩ := t.exists_free self ip (Nat.le_of_lt room)
  have last : port.toNat < ephemeralLast := Nat.lt_of_le_of_lt below room
  have near : port.toNat < t.nextEphemeral.toNat + (ephemeralLast - ephemeralFirst + 1) := by
    rw [Inside] at inside
    omega
  obtain ⟨found, after, before, free, result⟩ := allocPortLoop_found free above near
  refine ⟨found, after, Nat.lt_of_le_of_lt before last, free, ?_⟩
  rw [allocPort, result]

theorem inside_step (inside : t.Inside) (room : t.Room a) (taken : t.step a = some t') :
    t'.Inside := by
  cases a with
  | alloc self ip =>
    obtain ⟨port, above, last, -, result⟩ := allocPort_found inside room
    have next : (port + 1).toNat = port.toNat + 1 := by
      rw [UInt16.toNat_add]
      exact Nat.mod_eq_of_lt (Nat.succ_lt_succ last)
    rw [step, result] at taken
    cases taken
    rw [Inside, next]
    exact Nat.le_trans inside (Nat.le_succ_of_le above)
  | store i ep =>
    cases taken
    exact inside

/-- In every run in which the cursor cannot step past the last port, it stays in the range and so do
the ports. -/
theorem allocPort_ephemeral (start : t.nextEphemeral.toNat = ephemeralFirst)
    (run : Reaches step Room t t') (room : t'.Room (.alloc self ip)) :
    Ephemeral (t'.bindConflict self ip) (t'.allocPort self ip).2 := by
  have inside : t'.Inside := run.invariant (I := Inside) inside_step (Nat.le_of_eq start.symm)
  obtain ⟨port, above, -, free, result⟩ := allocPort_found inside room
  rw [result]
  exact .inl ⟨port, Nat.le_trans inside above, free, rfl⟩

end Table

/-- A table without other endpoints, as `net_endpoint_init` and `net_endpoint_open` leave it. -/
def opened (nextEphemeral : UInt16) : Table where
  endpoints i := ⟨i == 0, .udp, .dgram, .closed, 0, 0, 0, 0, none, none⟩
  connHead _ := none
  listHead _ := none
  initialized := true
  nextEphemeral

/-- The second endpoint gets another port than the first one has. -/
theorem allocPort_ephemeral_second : ∃ t, Reaches Table.step Table.Room (opened 49152) t ∧
    t.bindConflict 1 0 49152 ∧ Ephemeral (t.bindConflict 1 0) (t.allocPort 1 0).2 := by
  obtain ⟨t, run, found⟩ : ∃ t, Reaches Table.step Table.Room (opened 49152) t ∧
      decide (t.bindConflict 1 0 49152 ∧ t.Room (.alloc 1 0)) :=
    Reaches.exists_of_exec [.alloc 0 0, .store 0 ⟨true, .udp, .dgram, .closed, 0, 0, 49152, 0, none,
      none⟩, .store 1 ⟨true, .udp, .dgram, .closed, 0, 0, 0, 0, none, none⟩] (by decide +kernel)
  rw [decide_eq_true_iff] at found
  exact ⟨t, run, found.1, Table.allocPort_ephemeral rfl run found.2⟩

theorem opened_allocPort :
    (opened first).allocPort 0 0 = (opened (first + 1), (first.toNat : Int)) := by
  have free : (opened first).bindConflict 0 0 (opened first).nextEphemeral = false := by
    simp [Table.bindConflict, opened]
  rw [Table.allocPort, allocPortLoop_succ]
  rfl

/-- A program that opens an endpoint, gets a port for it and closes it, again and again. -/
theorem opened_allocPorts (n : Nat) :
    (fun t => (Table.allocPort t 0 0).1)^[n] (opened first) = opened (first + .ofNat n) := by
  induction n with
  | zero => simp
  | succ n ih => rw [Function.iterate_succ_apply', ih, opened_allocPort, UInt16.ofNat_add,
      ← UInt16.add_assoc]; rfl

/-- The 16385th time it gets port 0. -/
theorem allocPort_leaves_range :
    (Table.allocPort ((fun t => (Table.allocPort t 0 0).1)^[16384] (opened (.ofNat ephemeralFirst)))
      0 0).2 = 0 := by
  rw [opened_allocPorts]
  rfl

end Otsos.Net
