import Mathlib.Logic.Function.Basic
import Mdock.App.FileLocks
import Mdock.Lib.Run

/-! Editor sessions on one file against the server. A session is the closure of
`createFileEditorSession`: its variables, its timers, and its calls, each of which waits
for an answer. The server handles one request at a time, at any time of its clock; answers
come late or get lost. -/
namespace Mdock.Editor
open Mdock.Go Mdock.Lib Mdock.Locks Mdock.Store
open Mdock.App (World)

/-- What the server takes a session's token for; it is never empty. -/
abbrev Owner := {o : Bytes // o ≠ []}

/-! ### The session -/

/-- `heartbeatID`; a timer is known by its number. -/
inductive HeartbeatID
  | null
  | pending
  | timer (n : Nat)
  deriving DecidableEq

structure Session where
  opened : Bool := false
  heartbeatID : HeartbeatID := .null
  pendingHeartbeat : Bool := false
  timers : List Nat := []
  nextTimer : Nat := 0

namespace Session

def stopHeartbeat (ss : Session) : Session :=
  { ss with
    timers := match ss.heartbeatID with
      | .timer n => ss.timers.erase n
      | _ => ss.timers
    heartbeatID := .null
    pendingHeartbeat := false }

/-- Whether `scheduleHeartbeat` sends a request. -/
def sendsHeartbeat (ss : Session) : Bool := !ss.pendingHeartbeat && ss.opened

def scheduleHeartbeat (ss : Session) : Session :=
  if ss.sendsHeartbeat then { ss with heartbeatID := .pending, pendingHeartbeat := true } else ss

/-- The `catch` of a heartbeat the server answered with 409 or 423. -/
def lockLost (ss : Session) : Session := { ss.stopHeartbeat with opened := false }

/-- The `finally` of a heartbeat. -/
def heartbeatDone (ss : Session) : Session :=
  if ss.opened then
    { ss with
      pendingHeartbeat := false
      heartbeatID := .timer ss.nextTimer
      timers := ss.timers ++ [ss.nextTimer]
      nextTimer := ss.nextTimer + 1 }
  else { ss with pendingHeartbeat := false, heartbeatID := .null }

end Session

/-- Where a call waits. -/
inductive Await
  | openLock
  | openRead
  | saveLock (content : Bytes)
  | saveWrite (content : Bytes)
  | release
  | keepalive
  | heartbeat
  | heartbeatDone
  deriving DecidableEq

/-- What a session tells apart: 423, 409, any other status and no answer at all. -/
inductive Failure
  | locked | notOwner | other
  deriving DecidableEq

/-- When a session saw the file: the number of saves before, and the tenure of the lock if
the session held it. -/
structure Stamp where
  saves : Nat
  tenure : Option Nat
  deriving DecidableEq

abbrev Reply := Except Failure (Bytes × Stamp)

/-- A call and its request: whether the server has still to handle it, the answer, and
whether the call still waits. -/
structure Call where
  owner : Owner
  await : Await
  onItsWay : Bool := true
  reply : Option Reply := none
  waits : Bool := true

/-! ### The server -/

/-- All sessions name one file. -/
structure Site where
  service : App.Service
  user : Owner → Int
  vaultSlug : Bytes
  relPath : Bytes
  item : VaultRow
  rel : Bytes
  oneFile : ∀ o, service.fileMutationContext (user o) vaultSlug relPath false = .ok (item, rel)

def Site.key (site : Site) : Int × Bytes := (site.item.id, site.rel)

/-- `handleFileError`. -/
def failureOf : App.Err → Failure
  | .lock .locked => .locked
  | .lock .notOwner => .notOwner
  | _ => .other

def respond {α : Type} (payload : α → Bytes) (r : Except App.Err α × World) :
    Except Failure Bytes × World :=
  match r with
  | (.ok a, w) => (.ok (payload a), w)
  | (.error e, w) => (.error (failureOf e), w)

/-- The request a call waits for; `queueOk` is whether the git queue takes a change. -/
def Site.answer (site : Site) (now : Nat → Instant) (queueOk : Bool) (o : Owner) (w : World) :
    Await → Except Failure Bytes × World
  | .openLock | .saveLock _ =>
    respond (fun _ => [])
      (site.service.acquireFileLock now (site.user o) site.vaultSlug site.relPath o.1 w)
  | .openRead =>
    respond (fun a => a.2.2)
      (site.service.readTextFile (site.user o) site.vaultSlug site.relPath w)
  | .saveWrite content =>
    respond (fun _ => [])
      (App.Service.writeTextFile { site.service with queueOk := queueOk } now (site.user o)
        site.vaultSlug site.relPath content o.1 w)
  | .release | .keepalive =>
    respond (fun _ => [])
      (site.service.releaseFileLock (site.user o) site.vaultSlug site.relPath o.1 w)
  | .heartbeat =>
    respond (fun _ => [])
      (site.service.heartbeatFileLock now (site.user o) site.vaultSlug site.relPath o.1 w)
  | .heartbeatDone => (.ok [], w)

/-- A save, and the number of saves before the session last read or saved, if it had. -/
structure Save where
  owner : Owner
  basis : Option Nat
  deriving DecidableEq

/-- The file and the locks, the saves so far, and how often the lock has changed hands. -/
structure Server where
  world : World
  saves : List Save
  tenure : Nat

def Server.holder (site : Site) (srv : Server) : Option Bytes :=
  App.Service.holder srv.world.locks site.key

/-- Take over the world a request leaves. -/
def Server.enter (site : Site) (srv : Server) (w : World) : Server :=
  { srv with
    world := w
    tenure := if App.Service.holder w.locks site.key = srv.holder site then srv.tenure
      else srv.tenure + 1 }

def Server.stamp (site : Site) (srv : Server) (o : Owner) : Stamp :=
  ⟨srv.saves.length, if srv.holder site = some o.1 then some srv.tenure else none⟩

def Await.writes : Await → Bool
  | .saveWrite _ => true
  | _ => false

/-- Handle a request; `basis` is what a save is based on. -/
def Server.handle (site : Site) (srv : Server) (now : Nat → Instant) (queueOk : Bool)
    (o : Owner) (a : Await) (basis : Option Nat) : Reply × Server :=
  match site.answer now queueOk o srv.world a with
  | (.error e, w) => (.error e, srv.enter site w)
  | (.ok data, w) =>
    let srv' := srv.enter site w
    let srv' := if a.writes then { srv' with saves := srv.saves ++ [⟨o, basis⟩] } else srv'
    (.ok (data, srv'.stamp site o), srv')

/-! ### Sessions and server -/

/-- `basis` is when each session last read or saved. -/
structure State where
  server : Server
  session : Owner → Session
  call : Nat → Option Call
  next : Nat
  basis : Owner → Option Stamp

namespace State

def setSession (s : State) (o : Owner) (ss : Session) : State :=
  { s with session := Function.update s.session o ss }

def setCall (s : State) (c : Nat) (call : Call) : State :=
  { s with call := Function.update s.call c (some call) }

/-- Send a request and wait. -/
def send (s : State) (o : Owner) (a : Await) : State :=
  { s.setCall s.next ⟨o, a, true, none, true⟩ with next := s.next + 1 }

def setOpened (s : State) (o : Owner) (opened : Bool) : State :=
  s.setSession o { s.session o with opened := opened }

def scheduleHeartbeat (s : State) (o : Owner) : State :=
  let s' := s.setSession o (s.session o).scheduleHeartbeat
  if (s.session o).sendsHeartbeat then s'.send o .heartbeat else s'

def startHeartbeat (s : State) (o : Owner) : State :=
  (s.setSession o (s.session o).stopHeartbeat).scheduleHeartbeat o

def stopHeartbeat (s : State) (o : Owner) : State :=
  s.setSession o (s.session o).stopHeartbeat

/-- `close` and `releaseForPageHide`, which differ in how they send the release. -/
def leave (s : State) (o : Owner) (a : Await) : State :=
  if (s.session o).opened then ((s.stopHeartbeat o).setOpened o false).send o a
  else s.stopHeartbeat o

def close (s : State) (o : Owner) : State := s.leave o .release

def releaseForPageHide (s : State) (o : Owner) : State := s.leave o .keepalive

/-- The session has read or saved. -/
def sees (s : State) (o : Owner) (stamp : Stamp) : State :=
  { s with basis := Function.update s.basis o (some stamp) }

/-- What is left of a heartbeat is its `finally`, which waits for nothing. -/
def settle (s : State) (o : Owner) : State :=
  { s.setCall s.next ⟨o, .heartbeatDone, false, some (.error .other), true⟩ with
    next := s.next + 1 }

/-- A call goes on with its answer, up to its next request. -/
def resume (s : State) (o : Owner) : Await → Reply → State
  | .openLock, .ok _ => (s.setOpened o true).send o .openRead
  | .openRead, .ok (_, stamp) => (s.sees o stamp).startHeartbeat o
  | .openRead, .error _ => s.close o
  | .saveLock content, .ok _ =>
    ((s.setOpened o true).startHeartbeat o).send o (.saveWrite content)
  | .saveWrite _, .ok (_, stamp) => s.sees o stamp
  | .heartbeat, .error .locked | .heartbeat, .error .notOwner =>
    (s.setSession o (s.session o).lockLost).settle o
  | .heartbeat, _ => s.settle o
  | .heartbeatDone, _ => s.setSession o (s.session o).heartbeatDone
  | _, _ => s

/-- The server handles the request of call `c`; the answer reaches the call if it waits. -/
def serve (site : Site) (s : State) (c : Nat) (now : Nat → Instant) (queueOk : Bool)
    (call : Call) : State :=
  let r := s.server.handle site now queueOk call.owner call.await
    ((s.basis call.owner).map Stamp.saves)
  State.setCall { s with server := r.2 } c
    { call with onItsWay := false, reply := if call.reply.isNone then some r.1 else call.reply }

end State

inductive Act
  | callOpen (o : Owner)
  | callSave (o : Owner) (content : Bytes)
  | callClose (o : Owner)
  | callHide (o : Owner)
  | timer (o : Owner) (n : Nat)
  | serve (c : Nat) (now : Nat → Instant) (queueOk : Bool)
  | lose (c : Nat)
  | deliver (c : Nat)

def step (site : Site) (s : State) : Act → Option State
  | .callOpen o => some (s.send o .openLock)
  | .callSave o content =>
    some (s.send o (if (s.session o).opened then .saveWrite content else .saveLock content))
  | .callClose o => some (s.close o)
  | .callHide o => some (s.releaseForPageHide o)
  | .timer o n =>
    if n ∈ (s.session o).timers then
      some (State.scheduleHeartbeat (s.setSession o
        { s.session o with timers := (s.session o).timers.erase n }) o)
    else none
  | .serve c now queueOk =>
    match s.call c with
    | some call => if call.onItsWay then some (s.serve site c now queueOk call) else none
    | none => none
  | .lose c =>
    match s.call c with
    | some call => some (s.setCall c { call with reply := some (.error .other) })
    | none => none
  | .deliver c =>
    match s.call c with
    | some ⟨o, a, onItsWay, some r, true⟩ =>
      some ((s.setCall c ⟨o, a, onItsWay, some r, false⟩).resume o a r)
    | _ => none

/-- Any file and any locks, sessions just created. -/
def machine (site : Site) : Machine State Act where
  init s := s.server.saves = [] ∧ (∀ o, s.session o = {}) ∧ (∀ c, s.call c = none) ∧
    ∀ o, s.basis o = none
  step := step site

end Mdock.Editor
