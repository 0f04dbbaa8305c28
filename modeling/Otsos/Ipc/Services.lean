import Otsos.Ipc.Queues

/-! Services and the endpoints that they refer to, and the references counted in an endpoint. -/
namespace Otsos.Ipc
open Function (update update_of_ne update_self)
open List Option

namespace Mem

variable {m m' : Mem} {nonblock : Bool}

def Alive (m : Mem) (e : Nat) : Prop := ∃ ep, m.eps e = some ep

/-- The references are counted, and services and endpoints refer to each other. -/
structure Inv (m : Mem) (refs : Nat → Nat) : Prop where
  fresh : ∀ e, m.fresh ≤ e → m.eps e = none ∧ m.held e = false ∧ refs e = 0
  count : ∀ e ep, m.eps e = some ep → ep.refcount = refs e + (m.held e).toNat
  alive : ∀ e, 0 < refs e + (m.held e).toNat → m.Alive e
  unused : ∀ sv, (m.services sv).used = false → (m.services sv).server = none ∧ ∀ i,
    (m.services sv).clients i = none
  server : ∀ sv x, (m.services sv).server = some x → ∃ ep, m.eps x = some ep ∧ ep.role = .server ∧
    ep.service = some sv
  client : ∀ sv i c, (m.services sv).clients i = some c →
    i < ipcMaxSessions ∧ ∃ ep, m.eps c = some ep ∧ ep.role = .client ∧ ep.service = some sv
  distinct : ∀ sv i j c, (m.services sv).clients i = some c → (m.services sv).clients j = some c →
    i = j
  listedServer : ∀ e ep sv, m.eps e = some ep → ep.service = some sv → ep.role = .server →
    (m.services sv).server = some e
  listedClient : ∀ e ep sv, m.eps e = some ep → ep.service = some sv → ep.role = .client →
    ∃ i, (m.services sv).clients i = some e

theorem mem_sessions (member : c ∈ m.sessions sv) : ∃ i, (m.services sv).clients i = some c := by
  obtain ⟨i, _, here⟩ := mem_filterMap.mp member
  exact ⟨i, here⟩

/-- The endpoint `e` with one more reference than the calls and the handle account for. -/
abbrev Owed (m : Mem) (refs : Nat → Nat) (e : Nat) : Prop := m.Inv (update refs e (refs e + 1))

def Endpoint.link (ep : Endpoint) : Role × Option Nat := (ep.role, ep.service)

theorem link_of (links : (m'.eps x).map Endpoint.link = (m.eps x).map Endpoint.link)
    (there : m.eps x = some ep) : ∃ ep', m'.eps x = some ep' ∧ ep'.role = ep.role ∧
    ep'.service = ep.service := by
  rw [there] at links
  obtain ⟨ep', there', link⟩ := map_eq_some_iff.mp links
  exact ⟨ep', there', Prod.mk.inj link⟩

theorem Inv.relink (inv : m.Inv refs) (services : m'.services = m.services)
    (fresh : m'.fresh = m.fresh)
    (links : ∀ x, (m'.eps x).map Endpoint.link = (m.eps x).map Endpoint.link)
    (unused : ∀ x, m.fresh ≤ x → m'.held x = false ∧ refs' x = 0)
    (count : ∀ x ep, m'.eps x = some ep → ep.refcount = refs' x + (m'.held x).toNat)
    (alive : ∀ x, 0 < refs' x + (m'.held x).toNat → m.Alive x) : m'.Inv refs' := by
  constructor
  · intro x above
    rw [fresh] at above
    have same := links x
    rw [(inv.fresh x above).1] at same
    exact ⟨map_eq_none_iff.mp same, unused x above⟩
  · exact count
  · intro x some_
    obtain ⟨ep, there⟩ := alive x some_
    exact (link_of (links x) there).imp fun _ => And.left
  · rw [services]
    exact inv.unused
  · intro sv x at_
    rw [services] at at_
    obtain ⟨ep, there, role, service⟩ := inv.server sv x at_
    obtain ⟨ep', there', role', service'⟩ := link_of (links x) there
    exact ⟨ep', there', role'.trans role, service'.trans service⟩
  · intro sv i c at_
    rw [services] at at_
    obtain ⟨range, ep, there, role, service⟩ := inv.client sv i c at_
    obtain ⟨ep', there', role', service'⟩ := link_of (links c) there
    exact ⟨range, ep', there', role'.trans role, service'.trans service⟩
  · rw [services]
    exact inv.distinct
  all_goals
    intro x ep' sv there' service' role'
    obtain ⟨ep, there, role, service⟩ := link_of (links x).symm there'
    rw [services]
  · exact inv.listedServer x ep sv there (service.trans service') (role.trans role')
  · exact inv.listedClient x ep sv there (service.trans service') (role.trans role')

theorem Inv.recount (inv : m.Inv refs) (here : m.eps e = some ep)
    (others : ∀ x, x ≠ e → refs' x = refs x) (count : n = refs' e + (m.held e).toNat) :
    (m.set e { ep with refcount := n }).Inv refs' := by
  refine inv.relink rfl rfl (fun x => ?_) (fun x above => ?_) (fun x epx there => ?_)
    fun x some_ => ?_
  · by_cases same : x = e
    · subst same
      rw [set_self, here]
      rfl
    · rw [set_of_ne same]
  · obtain ⟨gone, notHeld, noRefs⟩ := inv.fresh x above
    have other : x ≠ e := by
      rintro rfl
      rw [gone] at here
      cases here
    exact ⟨notHeld, (others x other).trans noRefs⟩
  · by_cases same : x = e
    · subst same
      rw [set_self] at there
      cases there
      exact count
    · rw [set_of_ne same] at there
      rw [others x same]
      exact inv.count x epx there
  · by_cases same : x = e
    · exact same ▸ ⟨ep, here⟩
    · rw [others x same] at some_
      exact inv.alive x some_

/-- What `closeSessions` leaves of an endpoint. -/
def mark (ep : Endpoint) : Endpoint := { ep with closed := true, service := none }

theorem closeSessions_spec (cs : List Nat) (all : ∀ c ∈ cs, m.Alive c) :
    ∃ m', m.closeSessions cs = some m' ∧ m'.services = m.services ∧ m'.held = m.held ∧
      m'.fresh = m.fresh ∧ ∀ x, m'.eps x = if x ∈ cs then (m.eps x).map mark else m.eps x := by
  induction cs generalizing m with
  | nil => exact ⟨m, rfl, rfl, rfl, rfl, fun x => by simp⟩
  | cons c rest ih =>
    obtain ⟨ep, here⟩ := all c mem_cons_self
    have later : ∀ x ∈ rest, (m.set c (mark ep)).Alive x := by
      intro x member
      by_cases same : x = c
      · subst same
        exact ⟨_, set_self⟩
      · obtain ⟨epx, there⟩ := all x (mem_cons_of_mem _ member)
        exact ⟨epx, (set_of_ne same).trans there⟩
    obtain ⟨m', ran, services, held, fresh, eps⟩ := ih later
    refine ⟨m', ?_, services, held, fresh, fun x => ?_⟩
    · rw [closeSessions, here]
      exact ran
    · rw [eps x]
      by_cases same : x = c
      · subst same
        rw [set_self, here, if_pos mem_cons_self]
        split <;> rfl
      · rw [set_of_ne same]
        simp only [mem_cons, same, false_or]

/-- The endpoint `e` is freed: services forget it, and endpoints forget services that go with it. -/
structure Sheds (m m' : Mem) (e : Nat) : Prop where
  held : m'.held = m.held
  fresh : m'.fresh = m.fresh
  gone : m'.eps e = none
  kept : ∀ x, x ≠ e → m.Alive x → m'.Alive x
  old : ∀ x epx', m'.eps x = some epx' → ∃ epx, m.eps x = some epx ∧ epx'.refcount = epx.refcount ∧
    epx'.role = epx.role ∧ ∀ sv, epx'.service = some sv → epx.service = some sv
  unused : ∀ sv, (m'.services sv).used = false → (m'.services sv).server = none ∧ ∀ i,
    (m'.services sv).clients i = none
  server : ∀ sv x, (m'.services sv).server = some x → (m.services sv).server = some x ∧
    m'.eps x = m.eps x
  client : ∀ sv i c, (m'.services sv).clients i = some c → (m.services sv).clients i = some c ∧
    m'.eps c = m.eps c
  listedServer : ∀ x epx sv, m'.eps x = some epx → epx.service = some sv →
    (m.services sv).server = some x → (m'.services sv).server = some x
  listedClient : ∀ x epx sv i, m'.eps x = some epx → epx.service = some sv →
    (m.services sv).clients i = some x → (m'.services sv).clients i = some x

section
variable (inv : m.Inv refs)
include inv

theorem Inv.sheds (others : ∀ x, x ≠ e → refs' x = refs x)
    (noRefs : refs' e = 0) (notHeld : m.held e = false) (sheds : Sheds m m' e) : m'.Inv refs' := by
  constructor
  · intro x above
    rw [sheds.fresh] at above
    obtain ⟨gone, rest, zero⟩ := inv.fresh x above
    refine ⟨?_, sheds.held ▸ rest, ?_⟩
    on_goal 2 =>
      by_cases same : x = e
      · exact same ▸ noRefs
      · exact (others x same).trans zero
    cases there : m'.eps x with
    | none => rfl
    | some epx =>
      obtain ⟨epx', there', _⟩ := sheds.old x epx there
      rw [gone] at there'
      cases there'
  · intro x epx there
    obtain ⟨epx', there', count, _⟩ := sheds.old x epx there
    have other : x ≠ e := by
      rintro rfl
      rw [sheds.gone] at there
      cases there
    rw [count, sheds.held, others x other]
    exact inv.count x epx' there'
  · intro x some_
    rw [sheds.held] at some_
    have other : x ≠ e := by
      rintro rfl
      simp [noRefs, notHeld] at some_
    rw [others x other] at some_
    exact sheds.kept x other (inv.alive x some_)
  · exact sheds.unused
  · intro sv x at_
    obtain ⟨before, same⟩ := sheds.server sv x at_
    rw [same]
    exact inv.server sv x before
  · intro sv i c at_
    obtain ⟨before, same⟩ := sheds.client sv i c at_
    rw [same]
    exact inv.client sv i c before
  · exact fun sv i j c at_ at' => inv.distinct sv i j c (sheds.client sv i c at_).1 (sheds.client sv j c at').1
  · intro x epx sv there service role
    obtain ⟨epx', there', _, role', service'⟩ := sheds.old x epx there
    exact sheds.listedServer x epx sv there service
      (inv.listedServer x epx' sv there' (service' sv service) (role' ▸ role))
  · intro x epx sv there service role
    obtain ⟨epx', there', _, role', service'⟩ := sheds.old x epx there
    obtain ⟨i, at_⟩ := inv.listedClient x epx' sv there' (service' sv service) (role' ▸ role)
    exact ⟨i, sheds.listedClient x epx sv i there service at_⟩

theorem Inv.sheds_server (here : m.eps e = some ep) (role : ep.role = .server)
    (service : ep.service = some sv) : ∃ m', m.detach e ep = some m' ∧ Sheds m (m'.free e) e := by
  have all : ∀ c ∈ m.sessions sv, ∃ epc, m.eps c = some epc ∧ epc.role = .client ∧ epc.service = some sv := by
    intro c member
    obtain ⟨i, at_⟩ := mem_sessions member
    exact (inv.client sv i c at_).2
  obtain ⟨m₁, closed, services, held, fresh, eps⟩ := closeSessions_spec (m.sessions sv)
    fun c member => (all c member).imp fun _ there => there.1
  refine ⟨m₁.setService sv ⟨false, none, fun _ => none, (m₁.services sv).nextPeerId⟩, ?_, ?_⟩
  · rw [detach, role, service]
    dsimp only
    rw [closed]
    rfl
  generalize fin : m₁.setService sv ⟨false, none, fun _ => none, (m₁.services sv).nextPeerId⟩ = m₂
  have eps' : m₂.eps = m₁.eps := fin ▸ rfl
  have ours : m₂.services sv = ⟨false, none, fun _ => none, (m₁.services sv).nextPeerId⟩ := by
    rw [← fin]
    exact update_self _ _ _
  have others : ∀ sv', sv' ≠ sv → m₂.services sv' = m.services sv' := by
    intro sv' other
    rw [← fin, ← services]
    exact update_of_ne other _ _
  -- endpoints of other services are as they were
  have apart : ∀ sv' x epx, sv' ≠ sv → m.eps x = some epx → epx.service = some sv' → (m₂.free e).eps x = m.eps x := by
    intro sv' x epx other there theirs
    have notSelf : x ≠ e := by
      rintro rfl
      rw [here] at there
      cases there
      rw [service] at theirs
      exact other (some.inj theirs).symm
    have notSession : x ∉ m.sessions sv := by
      intro member
      obtain ⟨epc, there', _, ours⟩ := all x member
      rw [there] at there'
      cases there'
      rw [theirs] at ours
      exact other (some.inj ours)
    rw [free_of_ne notSelf, eps', eps, if_neg notSession]
  refine ⟨by rw [← held, ← fin]; rfl, by rw [← fresh, ← fin]; rfl, free_self, ?_, ?_, ?_, ?_, ?_,
    ?_, ?_⟩
  · rintro x other ⟨epx, there⟩
    rw [Alive, free_of_ne other, eps', eps, there]
    split
    · exact ⟨_, rfl⟩
    · exact ⟨_, rfl⟩
  · intro x epx there
    obtain ⟨_, there⟩ := free_some there
    rw [eps', eps] at there
    split at there
    · obtain ⟨epx', before, rfl⟩ := map_eq_some_iff.mp there
      exact ⟨epx', before, rfl, rfl, fun _ no => by cases no⟩
    · exact ⟨epx, there, rfl, rfl, fun _ => id⟩
  · intro sv' notUsed
    by_cases same : sv' = sv
    · subst same
      simp only [ours, implies_true, and_self]
    · simp only [others sv' same] at notUsed ⊢
      exact inv.unused sv' notUsed
  · intro sv' x at_
    have other : sv' ≠ sv := by
      rintro rfl
      rw [ours] at at_
      cases at_
    rw [others sv' other] at at_
    obtain ⟨epx, there, _, theirs⟩ := inv.server sv' x at_
    exact ⟨at_, apart sv' x epx other there theirs⟩
  · intro sv' i c at_
    have other : sv' ≠ sv := by
      rintro rfl
      rw [ours] at at_
      cases at_
    rw [others sv' other] at at_
    obtain ⟨_, epc, there, _, theirs⟩ := inv.client sv' i c at_
    exact ⟨at_, apart sv' c epc other there theirs⟩
  · intro x epx sv' there theirs at_
    have other : sv' ≠ sv := by
      rintro rfl
      rw [inv.listedServer e ep sv' here service role] at at_
      exact (free_some there).1 (some.inj at_).symm
    rw [others sv' other]
    exact at_
  · intro x epx sv' i there theirs at_
    have other : sv' ≠ sv := by
      rintro rfl
      have member : x ∈ m.sessions sv' :=
        mem_filterMap.mpr ⟨i, mem_range.mpr (inv.client sv' i x at_).1, at_⟩
      have marked := (free_some there).2
      rw [eps', eps, if_pos member] at marked
      obtain ⟨_, _, rfl⟩ := map_eq_some_iff.mp marked
      cases theirs
    rw [others sv' other]
    exact at_

theorem Inv.sheds_client (here : m.eps e = some ep) (role : ep.role = .client)
    (service : ep.service = some sv) : ∃ m', m.detach e ep = some m' ∧ Sheds m (m'.free e) e := by
  obtain ⟨i₀, at₀⟩ := inv.listedClient e ep sv here service role
  obtain ⟨i, found⟩ : ∃ i,
    (range ipcMaxSessions).find? (fun i => (m.services sv).clients i = some e) = some i := by
    cases missing : (range ipcMaxSessions).find? fun i => (m.services sv).clients i = some e with
    | none =>
      have absent := find?_eq_none.mp missing i₀ (mem_range.mpr (inv.client sv i₀ e at₀).1)
      simp [at₀] at absent
    | some i => exact ⟨i, rfl⟩
  have at_ : (m.services sv).clients i = some e := by simpa using find?_some found
  have dropped : dropSession (m.services sv) e =
      { m.services sv with clients := update (m.services sv).clients i none } := by
    rw [dropSession, found]
  generalize fin : m.setService sv (dropSession (m.services sv) e) = m₂
  have eps' : m₂.eps = m.eps := fin ▸ rfl
  have ours : m₂.services sv = { m.services sv with clients := update (m.services sv).clients i none } := by
    rw [← fin, ← dropped]
    exact update_self _ _ _
  have others : ∀ sv', sv' ≠ sv → m₂.services sv' = m.services sv' := by
    intro sv' other
    rw [← fin]
    exact update_of_ne other _ _
  have server : ∀ sv', (m₂.services sv').server = (m.services sv').server ∧
      (m₂.services sv').used = (m.services sv').used := by
    intro sv'
    by_cases same : sv' = sv
    · subst same
      rw [ours]
      exact ⟨rfl, rfl⟩
    · rw [others sv' same]
      exact ⟨rfl, rfl⟩
  have clients : ∀ sv' j c, (m₂.services sv').clients j = some c ↔ (m.services sv').clients j = some c ∧ c ≠ e := by
    intro sv' j c
    by_cases same : sv' = sv
    · subst same
      rw [ours]
      dsimp only
      by_cases place : j = i
      · subst place
        rw [update_self, at_]
        exact ⟨nofun, fun both => absurd (some.inj both.1).symm both.2⟩
      · rw [update_of_ne place]
        refine ⟨fun at' => ⟨at', ?_⟩, And.left⟩
        rintro rfl
        exact place (inv.distinct sv' j i c at' at_)
    · rw [others sv' same]
      refine ⟨fun at' => ⟨at', ?_⟩, And.left⟩
      rintro rfl
      obtain ⟨_, _, there, _, theirs⟩ := inv.client sv' j c at'
      rw [here] at there
      cases there
      rw [service] at theirs
      exact same (some.inj theirs).symm
  refine ⟨m₂, ?_, ?_⟩
  · rw [detach, role, service]
    dsimp only
    rw [fin]
    split
    · rfl
    · next x at' =>
      rw [(server sv).1] at at'
      obtain ⟨epx, there, _⟩ := inv.server sv x at'
      rw [eps', there]
      rfl
  refine ⟨by rw [← fin]; rfl, by rw [← fin]; rfl, free_self, ?_, ?_, ?_, ?_, ?_, ?_, ?_⟩
  · rintro x other ⟨epx, there⟩
    exact ⟨epx, (free_of_ne other).trans (eps' ▸ there)⟩
  · intro x epx there
    obtain ⟨_, there⟩ := free_some there
    exact ⟨epx, eps' ▸ there, rfl, rfl, fun _ => id⟩
  · intro sv' notUsed
    obtain ⟨noServer, noClients⟩ := inv.unused sv' ((server sv').2 ▸ notUsed)
    refine ⟨(server sv').1.trans noServer, fun j => ?_⟩
    cases at' : (m₂.services sv').clients j with
    | none => rfl
    | some c =>
      have before := ((clients sv' j c).mp at').1
      rw [noClients j] at before
      cases before
  · intro sv' x at'
    rw [(server sv').1] at at'
    refine ⟨at', ?_⟩
    obtain ⟨epx, there, role', _⟩ := inv.server sv' x at'
    have other : x ≠ e := by
      rintro rfl
      rw [here] at there
      cases there
      rw [role] at role'
      cases role'
    rw [free_of_ne other, eps']
  · intro sv' j c at'
    obtain ⟨before, other⟩ := (clients sv' j c).mp at'
    exact ⟨before, (free_of_ne other).trans (congrFun eps' c)⟩
  · intro x epx sv' _ _ at'
    exact (server sv').1.trans at'
  · intro x epx sv' j there _ at'
    exact (clients sv' j x).mpr ⟨at', (free_some there).1⟩

theorem Inv.sheds_closed (here : m.eps e = some ep) (service : ep.service = none) :
    Sheds m (m.free e) e := by
  have other : ∀ sv x epx, m.eps x = some epx → epx.service = some sv → (m.free e).eps x = m.eps x := by
    intro sv x epx there theirs
    refine free_of_ne ?_
    rintro rfl
    rw [here] at there
    cases there
    rw [service] at theirs
    cases theirs
  refine ⟨rfl, rfl, free_self, ?_, ?_, inv.unused, ?_, ?_, fun _ _ _ _ _ => id,
    fun _ _ _ _ _ _ => id⟩
  · rintro x notSelf ⟨epx, there⟩
    exact ⟨epx, (free_of_ne notSelf).trans there⟩
  · exact fun x epx there => ⟨epx, (free_some there).2, rfl, rfl, fun _ => id⟩
  · intro sv x at_
    obtain ⟨epx, there, _, theirs⟩ := inv.server sv x at_
    exact ⟨at_, other sv x epx there theirs⟩
  · intro sv i c at_
    obtain ⟨_, epc, there, _, theirs⟩ := inv.client sv i c at_
    exact ⟨at_, other sv c epc there theirs⟩

theorem Inv.detach (here : m.eps e = some ep) :
    ∃ m', m.detach e ep = some m' ∧ Sheds m (m'.free e) e := by
  cases service : ep.service with
  | none =>
    refine ⟨m, ?_, inv.sheds_closed here service⟩
    rw [Mem.detach, service]
    split <;> first | rfl | contradiction
  | some sv =>
    cases role : ep.role with
    | server => exact inv.sheds_server here role service
    | client => exact inv.sheds_client here role service

end

theorem release_inv (owed : m.Owed refs e) : ∃ m' hs, m.release e = some (m', hs) ∧
    m'.Inv refs := by
  have positive : 0 < update refs e (refs e + 1) e + (m.held e).toNat := by
    rw [update_self]
    omega
  obtain ⟨ep, here⟩ := owed.alive e positive
  have count := owed.count e ep here
  rw [update_self] at count
  rw [release, here]
  dsimp only [bind_eq_bind, bind_some]
  split
  · refine ⟨_, _, rfl, owed.recount here ?_ ?_⟩
    · exact fun x other => (update_of_ne other _ _).symm
    · omega
  next last =>
  have noRefs : refs e = 0 := by omega
  have notHeld : m.held e = false := Bool.toNat_eq_zero.mp (by omega)
  obtain ⟨m', detached, sheds⟩ := owed.detach here
  rw [detached]
  exact ⟨_, _, rfl, owed.sheds (fun x other => (update_of_ne other _ _).symm) noRefs notHeld sheds⟩

theorem Inv.unheld (inv : m.Inv refs) (held : m.held e = true) :
    Owed { m with held := update m.held e false } refs e := by
  have sum : ∀ x, update refs e (refs e + 1) x + (update m.held e false x).toNat = refs x + (m.held x).toNat := by
    intro x
    by_cases same : x = e
    · subst same
      rw [update_self, update_self, held]
      rfl
    · rw [update_of_ne same, update_of_ne same]
  refine inv.relink rfl rfl (fun _ => rfl) (fun x above => ?_) (fun x epx there => ?_)
    fun x some_ => ?_
  · obtain ⟨_, notHeld, noRefs⟩ := inv.fresh x above
    have other : x ≠ e := by
      rintro rfl
      rw [held] at notHeld
      cases notHeld
    exact ⟨(update_of_ne other _ _).trans notHeld, (update_of_ne other _ _).trans noRefs⟩
  · rw [sum x]
    exact inv.count x epx there
  · rw [sum x] at some_
    exact inv.alive x some_

theorem Inv.new (inv : m.Inv refs) (used : service.used = true)
    (server : ∀ x, service.server = some x → (x = m.fresh ∧ role = .server) ∨ (m.services sv).server = some x)
    (client : ∀ i c, service.clients i = some c →
      (c = m.fresh ∧ role = .client ∧ i < ipcMaxSessions) ∨ (m.services sv).clients i = some c)
    (once : ∀ i j, service.clients i = some m.fresh → service.clients j = some m.fresh → i = j)
    (newServer : role = .server → service.server = some m.fresh)
    (newClient : role = .client → ∃ i, service.clients i = some m.fresh)
    (oldServer : ∀ x, (m.services sv).server = some x → service.server = some x)
    (oldClient : ∀ i c, (m.services sv).clients i = some c → service.clients i = some c) :
    Inv { (m.set m.fresh (.alloc role nonblock sv peer)).setService sv service with
      held := update m.held m.fresh true, fresh := m.fresh + 1 } refs := by
  obtain ⟨noEp, _, noRefs⟩ := inv.fresh m.fresh (Nat.le_refl _)
  generalize made : ({ (m.set m.fresh (.alloc role nonblock sv peer)).setService sv service with
      held := update m.held m.fresh true, fresh := m.fresh + 1 } : Mem) = m₂
  have self : m₂.eps m.fresh = some (.alloc role nonblock sv peer) := made ▸ set_self
  have other : ∀ x, x ≠ m.fresh → m₂.eps x = m.eps x := fun x notSelf => made ▸ set_of_ne notSelf
  have old : ∀ x epx, m.eps x = some epx → m₂.eps x = some epx := by
    intro x epx there
    rw [other x, there]
    rintro rfl
    rw [noEp] at there
    cases there
  have heldSelf : m₂.held m.fresh = true := made ▸ update_self _ _ _
  have heldOther : ∀ x, x ≠ m.fresh → m₂.held x = m.held x :=
    fun x notSelf => made ▸ update_of_ne notSelf _ _
  have ours : m₂.services sv = service := made ▸ update_self _ _ _
  have others : ∀ sv', sv' ≠ sv → m₂.services sv' = m.services sv' :=
    fun sv' apart => made ▸ update_of_ne apart _ _
  have fresh : m₂.fresh = m.fresh + 1 := made ▸ rfl
  have servers : ∀ sv' x, (m₂.services sv').server = some x →
      (sv' = sv ∧ x = m.fresh ∧ role = .server) ∨ (m.services sv').server = some x := by
    intro sv' x at_
    by_cases same : sv' = sv
    · rw [same, ours] at at_
      exact (server x at_).imp (And.intro same) (same ▸ ·)
    · exact .inr (others sv' same ▸ at_)
  have clients : ∀ sv' i c, (m₂.services sv').clients i = some c →
      (sv' = sv ∧ c = m.fresh ∧ role = .client ∧ i < ipcMaxSessions) ∨ (m.services sv').clients i = some c := by
    intro sv' i c at_
    by_cases same : sv' = sv
    · rw [same, ours] at at_
      exact (client i c at_).imp (And.intro same) (same ▸ ·)
    · exact .inr (others sv' same ▸ at_)
  have kept : ∀ sv', (∀ x, (m.services sv').server = some x → (m₂.services sv').server = some x) ∧
      ∀ i c, (m.services sv').clients i = some c → (m₂.services sv').clients i = some c := by
    intro sv'
    by_cases same : sv' = sv
    · rw [same, ours]
      exact ⟨oldServer, oldClient⟩
    · rw [others sv' same]
      exact ⟨fun _ => id, fun _ _ => id⟩
  constructor
  · intro x _
    have notSelf : x ≠ m.fresh := by omega
    rw [other x notSelf, heldOther x notSelf]
    exact inv.fresh x (by omega)
  · intro x epx there
    by_cases same : x = m.fresh
    · subst same
      rw [self] at there
      cases there
      rw [heldSelf, noRefs]
      rfl
    · rw [other x same] at there
      rw [heldOther x same]
      exact inv.count x epx there
  · intro x some_
    by_cases same : x = m.fresh
    · subst same
      exact ⟨_, self⟩
    · rw [heldOther x same] at some_
      rw [Alive, other x same]
      exact inv.alive x some_
  · intro sv' notUsed
    have apart : sv' ≠ sv := by
      rintro rfl
      rw [ours, used] at notUsed
      cases notUsed
    rw [others sv' apart] at notUsed ⊢
    exact inv.unused sv' notUsed
  · intro sv' x at_
    rcases servers sv' x at_ with ⟨rfl, rfl, rfl⟩ | before
    · exact ⟨_, self, rfl, rfl⟩
    · obtain ⟨epx, there, rest⟩ := inv.server sv' x before
      exact ⟨epx, old x epx there, rest⟩
  · intro sv' i c at_
    rcases clients sv' i c at_ with ⟨rfl, rfl, rfl, range⟩ | before
    · exact ⟨range, _, self, rfl, rfl⟩
    · obtain ⟨range, epx, there, rest⟩ := inv.client sv' i c before
      exact ⟨range, epx, old c epx there, rest⟩
  · intro sv' i j c at_ at'
    rcases clients sv' i c at_, clients sv' j c at' with ⟨⟨same, new, -⟩ | before, ⟨same, new, -⟩ | before'⟩
    on_goal 4 => exact inv.distinct sv' i j c before before'
    all_goals
      rw [same, ours, new] at at_ at'
      exact once i j at_ at'
  all_goals
    intro x epx sv' there theirs role'
    by_cases self' : x = m.fresh
  · subst self'
    cases self.symm.trans there
    cases theirs
    rw [ours]
    exact newServer role'
  · rw [other x self'] at there
    exact (kept sv').1 x (inv.listedServer x epx sv' there theirs role')
  · subst self'
    cases self.symm.trans there
    cases theirs
    rw [ours]
    exact newClient role'
  · rw [other x self'] at there
    exact (inv.listedClient x epx sv' there theirs role').imp fun i => (kept sv').2 i x

theorem create_inv (inv : m.Inv refs) : (m.create nonblock).Inv refs := by
  rw [create]
  split
  · exact inv
  next sv found =>
  have notUsed : (m.services sv).used = false := by simpa using find?_some found
  obtain ⟨noServer, noClients⟩ := inv.unused sv notUsed
  refine inv.new rfl ?_ (by simp) (by simp) (fun _ => rfl) (by simp) ?_ ?_
  · intro x at_
    cases at_
    exact .inl ⟨rfl, rfl⟩
  · intro x at_
    rw [noServer] at at_
    cases at_
  · intro i c at_
    rw [noClients i] at at_
    cases at_

theorem connect_inv (sv : Nat) (nonblock : Bool) (inv : m.Inv refs) :
    ∃ m', m.connect sv nonblock = some m' ∧ m'.Inv refs := by
  rw [connect]
  split
  · next x used server =>
    obtain ⟨_, there, _⟩ := inv.server sv x server
    rw [there]
    dsimp only [bind_eq_bind, bind_some]
    split
    · next i _ found =>
      have range : i < ipcMaxSessions := mem_range.mp (mem_of_find?_eq_some found)
      have vacant : (m.services sv).clients i = none := by simpa using find?_some found
      -- no session has the endpoint that is made now
      have unlisted : ∀ j, (m.services sv).clients j ≠ some m.fresh := by
        intro j at_
        obtain ⟨_, _, there, _⟩ := inv.client sv j _ at_
        rw [(inv.fresh m.fresh (Nat.le_refl _)).1] at there
        cases there
      refine ⟨_, rfl, inv.new used (fun x => .inr) ?_ ?_ (by simp) (fun _ => ⟨i, update_self _ _ _⟩) (fun _ => id) ?_⟩
      · intro j c at_
        dsimp only at at_
        by_cases place : j = i
        · subst place
          rw [update_self] at at_
          exact .inl ⟨(some.inj at_).symm, rfl, range⟩
        · rw [update_of_ne place] at at_
          exact .inr at_
      · have only : ∀ j, update (m.services sv).clients i (some m.fresh) j = some m.fresh → j = i := by
          intro j at_
          by_contra place
          rw [update_of_ne place] at at_
          exact unlisted j at_
        exact fun j k at_ at' => (only j at_).trans (only k at').symm
      · intro j c at_
        have place : j ≠ i := by
          rintro rfl
          rw [vacant] at at_
          cases at_
        exact (update_of_ne place _ _).trans at_
    · exact ⟨m, rfl, inv⟩
  · exact ⟨m, rfl, inv⟩

end Mem

end Otsos.Ipc
