import Kotoconn.Lib.Totals

/-!
# `resources.rs`: the resource manager

* `terminate`, `endResource`, `drainTier`, `abort`: ending resources. `none` is a failed assertion;
* `Task`: one critical section of the registry lock, or one effect on a token or a scope, of any task; `Step` adds those
  of the shutdown.

A scope is the resource it belongs to, with the resources whose scopes enclose it; cancelling a scope cancels what it
encloses. A resource is known by its kind; what creation does besides reserving may fail or take any time.
-/

namespace Kotoconn.Daemon
open Lib Function

/-- `next` is counted without the bound of its `u64`. -/
abbrev ResourceId := Nat

inductive Tier where
  | entryPoint
  | service
  deriving DecidableEq

inductive Native where
  | inbound
  | dialer
  | dnsService
  deriving DecidableEq

def Native.tier : Native → Tier
  | inbound => .entryPoint
  | dialer | dnsService => .service

/-- What `create` reads of a configuration. -/
inductive ResourceConfig where
  | inbound
  | dnsListener
  | dialer (carrier : Option ResourceId)
  | dnsService (dialer : ResourceId)
  deriving DecidableEq

namespace ResourceConfig

def native : ResourceConfig → Native
  | inbound | dnsListener => .inbound
  | dialer _ => .dialer
  | dnsService _ => .dnsService

def refers : ResourceConfig → Option ResourceId
  | inbound | dnsListener => none
  | dialer carrier => carrier
  | dnsService id => some id

end ResourceConfig

/-- The tokens are `true` once cancelled. -/
structure Lifetime where
  ancestors : List ResourceId
  admission : Bool
  abort : Bool
  deadline : Option Nat

namespace Lifetime

def new (ancestors : List ResourceId) : Lifetime := ⟨ancestors, false, false, none⟩

def isOpen (l : Lifetime) : Bool := !l.admission

end Lifetime

structure Entry where
  tier : Tier
  /-- `none` once the native state is taken to be destroyed -/
  live : Option Native
  lifetime : Lifetime
  uses : Option ResourceId
  users : Nat

def Entry.isOpen (e : Entry) : Bool := e.lifetime.isOpen

inductive Ending where
  | abort
  | drain (deadline : Option Nat)
  deriving DecidableEq

/-- How far a call of `create` is. -/
inductive Stage where
  | building
  | built
  | failed
  | registered
  deriving DecidableEq

structure Creation where
  config : ResourceConfig
  stage : Stage
  /-- `Reservation::id` -/
  reserved : Option ResourceId
  ancestors : List ResourceId

/-- How far `supervise` is. -/
inductive Phase where
  | admitting
  | draining
  | closing
  | idle
  | dropping
  | dropped
  | removed
  deriving DecidableEq

structure Scope where
  closed : Bool
  work : Nat
  /-- in other scopes, `tracked_by` this one -/
  borrowed : Nat

structure Manager where
  accepting : Bool
  entries : Table ResourceId Entry
  root : Bool
  next : Nat
  scopes : ResourceId → Scope
  /-- the `released` tokens -/
  released : ResourceId → Bool
  creations : Table ResourceId Creation
  supervisors : Table ResourceId Phase
  /-- ghost: the resources that were registered -/
  registrations : List ResourceId
  /-- ghost: the creations that reserved the resource they refer to -/
  reserves : List ResourceId
  /-- ghost: those whose use was released again -/
  releases : List ResourceId

namespace Manager

def new : Manager where
  accepting := true
  entries := ∅
  root := false
  next := 0
  scopes _ := ⟨false, 0, 0⟩
  released _ := false
  creations := ∅
  supervisors := ∅
  registrations := []
  reserves := []
  releases := []

/-- `Scope::is_closed`: cancellation follows ancestry. -/
def cancelled (m : Manager) (id : ResourceId) (ancestors : List ResourceId) : Bool :=
  m.root || (m.scopes id).closed || ancestors.any fun a => (m.scopes a).closed

def closeScope (m : Manager) (id : ResourceId) : Manager :=
  { m with scopes := update m.scopes id { m.scopes id with closed := true } }

/-! ## `create` -/

/-- The counter is a `u64` that is not used up. -/
def create (m : Manager) (config : ResourceConfig) : Except String (ResourceId × Manager) :=
  if m.accepting then
    let id := m.next + 1
    .ok (id, { m with next := id, creations := m.creations.insert id ⟨config, .building, none, []⟩ })
  else .error "the daemon is shutting down"

/-- `reserve` for the creation of `user`; both callers select dialers. The scope of a dialer is a child of its carrier's. -/
def reserve (m : Manager) (user : ResourceId) (c : Creation) (id : ResourceId) : Except String Manager :=
  match m.entries.lookup id with
  | none => .error "referenced resource is closed"
  | some entry =>
    if entry.isOpen then
      match entry.live with
      | none => .error "referenced resource is closed"
      | some native =>
        if native = .dialer then
          .ok { m with
            entries := m.entries.insert id { entry with users := entry.users + 1 }
            creations := m.creations.insert user { c with
              reserved := some id
              ancestors := if c.config.native = .dialer then id :: entry.lifetime.ancestors else [] }
            reserves := m.reserves ++ [user] }
        else .error "referenced resource has the wrong kind"
    else .error "referenced resource is closed"

def releaseUser (m : Manager) (id : ResourceId) : Option Manager :=
  match m.entries.lookup id with
  | none => some m
  | some entry =>
    if 0 < entry.users then
      some { m with entries := m.entries.insert id { entry with users := entry.users - 1 } }
    else none

def setStage (m : Manager) (id : ResourceId) (c : Creation) (stage : Stage) : Manager :=
  { m with creations := m.creations.insert id { c with stage } }

/-- The last part of `create`. -/
def register (m : Manager) (id : ResourceId) (c : Creation) : Except String Unit × Manager :=
  if m.accepting then
    (.ok (), { m with
      entries := m.entries.insert id
        ⟨c.config.native.tier, some c.config.native, .new c.ancestors, c.reserved, 0⟩
      creations := m.creations.insert id { c with stage := .registered, reserved := none }
      registrations := m.registrations ++ [id] })
  else (.error "the daemon is shutting down", (m.closeScope id).setStage id c .failed)

/-- `Drop for Reservation` -/
def dropReservation (m : Manager) (id : ResourceId) (c : Creation) : Option Manager :=
  let m := { m with creations := m.creations.erase id }
  match c.reserved with
  | none => some m
  | some used => { m with releases := m.releases ++ [id] }.releaseUser used

/-! ## Ending resources -/

/-- What `end` does to the tokens. -/
def ended (l : Lifetime) (ending : Ending) : Lifetime where
  ancestors := l.ancestors
  admission := true
  abort := l.abort || ending == .abort
  deadline := match l.isOpen, ending with
    | true, .drain (some deadline) => some deadline
    | _, _ => l.deadline

/-- `end` -/
def endResource (m : Manager) (id : ResourceId) (ending : Ending) : Option Manager :=
  match m.entries.lookup id with
  | none => some m
  | some entry =>
    let closed := { m with entries := m.entries.insert id { entry with lifetime := ended entry.lifetime ending } }
    match entry.isOpen, entry.uses with
    | true, some used => { closed with releases := m.releases ++ [id] }.releaseUser used
    | _, _ => some closed

def terminate (m : Manager) (id : ResourceId) (ending : Ending) : Option (Except String Unit × Manager) :=
  match m.entries.lookup id with
  | none => some (.ok (), m)
  | some entry =>
    if entry.users = 0 then (m.endResource id ending).map (.ok (), ·)
    else some (.error s!"resource is used by {entry.users} open resources; close them first", m)

/-- `Instant` counts seconds in an `i64`; here in nanoseconds. -/
def instantLimit : Nat := 2 ^ 63 * 1000000000

def close (m : Manager) (id : ResourceId) : Option (Except String Unit × Manager) := m.terminate id .abort

def drain (m : Manager) (id : ResourceId) (now timeout : Nat) : Option (Except String Unit × Manager) :=
  if now + timeout < instantLimit then m.terminate id (.drain (some (now + timeout)))
  else some (.error "drain timeout is out of range", m)

/-- `ids` lists the open resources of a tier, in the order of the table. -/
def OpenOf (m : Manager) (tier : Tier) (ids : List ResourceId) : Prop :=
  ids.Nodup ∧ ∀ id, id ∈ ids ↔ ∃ entry, m.entries.lookup id = some entry ∧ entry.tier = tier ∧ entry.isOpen = true

/-- `drain_tier`; `ids` are the open resources of the tier. -/
def drainTier (m : Manager) (ids : List ResourceId) : Option Manager :=
  ids.foldlM (fun m id => m.endResource id (.drain none)) { m with accepting := false }

def abort (m : Manager) : Manager := { m with accepting := false, root := true }

/-! ## `supervise` -/

def setPhase (m : Manager) (id : ResourceId) (phase : Phase) : Manager :=
  { m with supervisors := m.supervisors.insert id phase }

inductive DrainEnd where
  | abort
  | cancelled
  | expired
  | idle

def DrainEnd.occurs (m : Manager) (id : ResourceId) (l : Lifetime) : DrainEnd → Bool
  | abort => l.abort
  | cancelled => m.cancelled id l.ancestors
  | expired => l.deadline.isSome
  | idle => true

def takeLive (m : Manager) (id : ResourceId) (entry : Entry) : Manager :=
  { m with entries := m.entries.insert id { entry with live := none } }

def removeEntry (m : Manager) (id : ResourceId) : Manager := { m with entries := m.entries.erase id }

def release (m : Manager) (id : ResourceId) : Manager :=
  { m with supervisors := m.supervisors.erase id, released := update m.released id true }

/-! ## Interleavings -/

def setScope (m : Manager) (id : ResourceId) (scope : Scope) : Manager :=
  { m with scopes := update m.scopes id scope }

inductive Task : Manager → Manager → Prop
  | create {m m' : Manager} {config : ResourceConfig} {id : ResourceId} (h : m.create config = .ok (id, m')) : Task m m'
  | reserve {m m' : Manager} {user id : ResourceId} {c : Creation} (hc : m.creations.lookup user = some c)
      (hstage : c.stage = .building) (hnone : c.reserved = none) (hrefers : c.config.refers = some id)
      (h : m.reserve user c id = .ok m') : Task m m'
  | built {m : Manager} {id : ResourceId} {c : Creation} (hc : m.creations.lookup id = some c)
      (hstage : c.stage = .building) (hreserved : c.reserved = c.config.refers) : Task m (m.setStage id c .built)
  | fail {m : Manager} {id : ResourceId} {c : Creation} (hc : m.creations.lookup id = some c)
      (hstage : c.stage = .building ∨ c.stage = .built) (closes : Bool) :
      Task m ((if closes then m.closeScope id else m).setStage id c .failed)
  | register {m : Manager} {id : ResourceId} {c : Creation} (hc : m.creations.lookup id = some c)
      (hstage : c.stage = .built) : Task m (m.register id c).2
  | dropReservation {m m' : Manager} {id : ResourceId} {c : Creation} (hc : m.creations.lookup id = some c)
      (hstage : c.stage = .failed) (h : m.dropReservation id c = some m') : Task m m'
  | supervise {m : Manager} {id : ResourceId} {c : Creation} (hc : m.creations.lookup id = some c)
      (hstage : c.stage = .registered) :
      Task m ({ m with creations := m.creations.erase id }.setPhase id .admitting)
  | close {m m' : Manager} {id : ResourceId} {result : Except String Unit} (h : m.close id = some (result, m')) :
      Task m m'
  | drain {m m' : Manager} {id : ResourceId} {now timeout : Nat} {result : Except String Unit}
      (h : m.drain id now timeout = some (result, m')) : Task m m'
  | noticed {m : Manager} {id : ResourceId} {entry : Entry} (hphase : m.supervisors.lookup id = some .admitting)
      (hentry : m.entries.lookup id = some entry)
      (h : entry.isOpen = false ∨ m.cancelled id entry.lifetime.ancestors = true) : Task m (m.setPhase id .draining)
  | drained {m : Manager} {id : ResourceId} {entry : Entry} (hphase : m.supervisors.lookup id = some .draining)
      (hentry : m.entries.lookup id = some entry) (reason : DrainEnd) (h : reason.occurs m id entry.lifetime = true) :
      Task m ((m.closeScope id).setPhase id .closing)
  | waited {m : Manager} {id : ResourceId} (hphase : m.supervisors.lookup id = some .closing)
      (hwork : (m.scopes id).work = 0 ∧ (m.scopes id).borrowed = 0) : Task m (m.setPhase id .idle)
  | take {m : Manager} {id : ResourceId} {entry : Entry} (hphase : m.supervisors.lookup id = some .idle)
      (hentry : m.entries.lookup id = some entry) : Task m ((m.takeLive id entry).setPhase id .dropping)
  | dropped {m : Manager} {id : ResourceId} (hphase : m.supervisors.lookup id = some .dropping) :
      Task m (m.setPhase id .dropped)
  | remove {m : Manager} {id : ResourceId} (hphase : m.supervisors.lookup id = some .dropped) :
      Task m ((m.removeEntry id).setPhase id .removed)
  | release {m : Manager} {id : ResourceId} (hphase : m.supervisors.lookup id = some .removed) : Task m (m.release id)
  | scopeClosed {m : Manager} {id : ResourceId} {entry : Entry} (hentry : m.entries.lookup id = some entry)
      (htier : entry.tier = .entryPoint) : Task m (m.closeScope id)
  /-- `Scope::track` takes the tokens before it looks at the scope, so it succeeds only before the scope closes. The
  scopes that enclose it are left out: with them it fails more often. -/
  | track {m : Manager} {id : ResourceId} (h : m.cancelled id [] = false) :
      Task m (m.setScope id { m.scopes id with work := (m.scopes id).work + 1 })
  | untrack {m : Manager} {id : ResourceId} {n : Nat} (h : (m.scopes id).work = n + 1) :
      Task m (m.setScope id { m.scopes id with work := n })
  | borrow {m : Manager} {id : ResourceId} (n : Nat) : Task m (m.setScope id { m.scopes id with borrowed := n })

inductive Step : Manager → Manager → Prop
  | task {m m' : Manager} (h : Task m m') : Step m m'
  | drainTier {m m' : Manager} {tier : Tier} {ids : List ResourceId} (hids : m.OpenOf tier ids)
      (h : m.drainTier ids = some m') : Step m m'
  | abort {m : Manager} : Step m m.abort

inductive Reachable : Manager → Prop
  | new : Reachable new
  | step {m m' : Manager} (h : Reachable m) (hstep : Step m m') : Reachable m'

end Manager

end Kotoconn.Daemon
