import Zpc.AsyncRuntime

/-!
# Managed resources and their maintenance

`AsyncResourceManager` of `AsyncResourceManager.hpp` over the runtime of `Zpc.AsyncRuntime`: entries with a payload,
leases, the maintenance submitted to the runtime, and the collection of retired entries. Each load, store or exchange
of an atomic, each critical section and each action of the runtime is one action here, and any threads interleave.
Labels, endpoints and queues are left out, `describe`, `contains`, `is_dirty` and `stats` as well, which only read,
and the destructor of the manager.
-/
namespace Zpc.AsyncResourceManager
open Interleaving
open AsyncRuntime (Runtime Event Executor AsyncPollStatus)

inductive MaintenanceKind
  | refresh | compact | evict | custom
  deriving DecidableEq

inductive Disposition
  | scheduled | skippedNotFound | skippedBusy | skippedLeased | skippedRetired
  deriving DecidableEq

/-- The executor is `none` when the runtime has none of that name. -/
structure Descriptor where
  executor : Option Executor := some .inlineHost
  staleAfterEpochs : ℕ := 0
  allowMaintenanceWhileLeased : Bool := false
  evictWhenStale : Bool := false
  deriving DecidableEq

structure Request where
  kind : MaintenanceKind := .refresh
  requireIdle : Bool := false
  requireDirty : Bool := false
  clearDirtyOnSuccess : Bool := true
  retireOnSuccess : Bool := false
  deriving DecidableEq

structure Callbacks where
  maintain : Bool := false
  destroy : Bool := false
  deriving DecidableEq

/-- An entry, with the payload that it was registered with and the payloads handed to `destroy` so far. -/
structure Entry where
  descriptor : Descriptor := {}
  callbacks : Callbacks := {}
  payload : Option ℕ := none
  leaseCount : ℕ := 0
  lastAccessEpoch : ℕ := 0
  dirty : Bool := false
  retired : Bool := false
  maintenanceInFlight : Bool := false
  registered : Option ℕ := none
  destroyed : List ℕ := []

/-- The arguments of `schedule_maintenance`. -/
structure Scheduling where
  resource : ℕ
  request : Request := {}
  prerequisites : List Event := []
  cancellation : Option ℕ := none
  stopOnPrerequisiteFailure : Bool := true
  deriving DecidableEq

/-- What the step of a maintenance submission captures. -/
structure Maintenance where
  resource : ℕ
  request : Request
  scheduledEpoch : ℕ
  deriving DecidableEq

inductive Call
  | register (descriptor : Descriptor) (callbacks : Callbacks) (payload : Option ℕ)
  | acquire (resource : ℕ)
  | release (resource : ℕ)
  | touch (resource : ℕ)
  | markDirty (resource : ℕ) (dirty : Bool)
  | advanceEpoch (delta : ℕ)
  | scheduleMaintenance (scheduling : Scheduling)
  | scheduleStaleMaintenance (request : Request)
  | collectRetired
  | runtime (call : AsyncRuntime.Call)
  deriving DecidableEq

/-- The runtime, the map of entries under its mutex, the entries and the epoch, with a record of the run: the
maintenance that each submission runs, whether its step has cleared the flag since, the leases held for each entry,
the entries collected and the tickets returned. -/
structure Manager where
  runtime : Runtime := {}
  locked : Bool := false
  entries : List ℕ := []
  entry : ℕ → Entry := fun _ => {}
  nextId : ℕ := 0
  epoch : ℕ := 0
  maintenance : ℕ → Option Maintenance := fun _ => none
  cleared : ℕ → Bool := fun _ => false
  held : ℕ → ℕ := fun _ => 0
  collected : ℕ → Bool := fun _ => false
  tickets : List (ℕ × Disposition × ℕ) := []

inductive Frame
  | runtime (frame : AsyncRuntime.Frame)
  | call (call : Call)
  | insert (resource : ℕ)
  | acquireRetired (resource : ℕ)
  | acquireCount (resource : ℕ)
  | acquired (resource : ℕ)
  | loadEpoch (resource : ℕ)
  | storeAccess (resource epoch : ℕ)
  | releaseCount (resource : ℕ)
  | releaseRetired (resource : ℕ)
  | releaseBusy (resource : ℕ)
  | destroy (resource : ℕ)
  | touchRetired (resource : ℕ)
  | dirtyRetired (resource : ℕ) (dirty : Bool)
  | storeDirty (resource : ℕ) (dirty : Bool)
  | scheduleRetired (scheduling : Scheduling)
  | scheduleLeases (scheduling : Scheduling)
  | scheduleDirty (scheduling : Scheduling)
  | scheduleExchange (scheduling : Scheduling)
  | scheduleEpoch (scheduling : Scheduling)
  | submit (scheduling : Scheduling) (scheduledEpoch : ℕ)
  | abandon (resource : ℕ)
  | ticket (resource : ℕ) (disposition : Disposition) (id : ℕ)
  | loadLeases (id : ℕ) (work : Maintenance) (payload : Option ℕ)
  | maintain (id : ℕ) (work : Maintenance) (payload : Option ℕ) (leaseCount : ℕ)
  | maintained (id : ℕ) (work : Maintenance) (result : AsyncPollStatus)
  | clearDirty (id : ℕ) (work : Maintenance)
  | recordAccess (id : ℕ) (work : Maintenance)
  | retire (id : ℕ) (work : Maintenance)
  | clearFlag (id : ℕ) (work : Maintenance) (result : AsyncPollStatus)
  | loadIdle (id : ℕ) (work : Maintenance)
  | loadStop (id : ℕ) (work : Maintenance) (result : AsyncPollStatus)
  | thrown (id : ℕ) (work : Maintenance)
  | sweepEpoch (resources : List ℕ) (request : Request)
  | sweep (resources : List ℕ) (request : Request) (epoch : ℕ)
  | sweepStale (resource : ℕ) (request : Request) (epoch : ℕ)
  | sweepDirty (resource : ℕ) (request : Request)
  | collect (resources : List ℕ) (removed : ℕ)
  | collectLeases (resource : ℕ) (resources : List ℕ) (removed : ℕ)
  | collectBusy (resource : ℕ) (resources : List ℕ) (removed : ℕ)
  | collectDestroy (resource : ℕ) (resources : List ℕ) (removed : ℕ)
  | collectErase (resource : ℕ) (resources : List ℕ) (removed : ℕ)
  deriving DecidableEq

/-- What the code leaves open: the choices of the runtime, the order in which the map is gone through, and what a
maintenance callback does next. -/
inductive Choice
  | runtime (choice : AsyncRuntime.Choice)
  | order (resources : List ℕ)
  | call (call : Call)
  | finish (result : AsyncPollStatus)
  | throw

namespace Manager
def update (m : Manager) (resource : ℕ) (g : Entry → Entry) : Manager :=
  {m with entry := Function.update m.entry resource (g (m.entry resource))}

/-- `find_entry_`, and how the caller goes on. -/
def find (m : Manager) (resource : ℕ) (found missing : List Frame) : Option (Manager × List Frame) :=
  if m.locked then none else some (m, if resource ∈ m.entries then found else missing)

/-- A new entry, not in the map yet. -/
def make (m : Manager) (descriptor : Descriptor) (callbacks : Callbacks) (payload : Option ℕ) : Manager :=
  {m with
    nextId := m.nextId + 1
    entry := Function.update m.entry (m.nextId + 1)
      {descriptor, callbacks, payload, lastAccessEpoch := m.epoch, registered := payload}}

def isStale (m : Manager) (resource epoch : ℕ) : Bool :=
  (m.entry resource).descriptor.staleAfterEpochs ≠ 0 ∧ (m.entry resource).lastAccessEpoch ≤ epoch ∧
    (m.entry resource).descriptor.staleAfterEpochs ≤ epoch - (m.entry resource).lastAccessEpoch

end Manager

/-- `destroy_payload_if_needed`. -/
def Entry.destroyPayloadIfNeeded (e : Entry) : Entry :=
  match e.payload with
  | some payload => if e.callbacks.destroy then {e with payload := none, destroyed := payload :: e.destroyed} else e
  | none => e

@[simp] theorem Entry.destroyPayloadIfNeeded_descriptor (e : Entry) :
    e.destroyPayloadIfNeeded.descriptor = e.descriptor := by
  unfold destroyPayloadIfNeeded
  split <;> (try split) <;> rfl

@[simp] theorem Entry.destroyPayloadIfNeeded_leaseCount (e : Entry) :
    e.destroyPayloadIfNeeded.leaseCount = e.leaseCount := by
  unfold destroyPayloadIfNeeded
  split <;> (try split) <;> rfl

@[simp] theorem Entry.destroyPayloadIfNeeded_retired (e : Entry) : e.destroyPayloadIfNeeded.retired = e.retired := by
  unfold destroyPayloadIfNeeded
  split <;> (try split) <;> rfl

@[simp] theorem Entry.destroyPayloadIfNeeded_maintenanceInFlight (e : Entry) :
    e.destroyPayloadIfNeeded.maintenanceInFlight = e.maintenanceInFlight := by
  unfold destroyPayloadIfNeeded
  split <;> (try split) <;> rfl

def Scheduling.submission (s : Scheduling) (executor : Executor) : AsyncRuntime.Submission :=
  {executor, prerequisites := s.prerequisites, cancellation := s.cancellation,
    stopOnPrerequisiteFailure := s.stopOnPrerequisiteFailure}

def runCall (m : Manager) : Call → Choice → Option (Manager × List Frame)
  | .register descriptor callbacks payload, _ =>
      some (m.make descriptor callbacks payload, [.insert (m.nextId + 1)])
  | .acquire resource, _ => m.find resource [.acquireRetired resource] []
  | .release resource, _ =>
      if m.held resource = 0 then some (m, [])
      else some ({m with held := Function.update m.held resource (m.held resource - 1)}, [.releaseCount resource])
  | .touch resource, _ => m.find resource [.touchRetired resource] []
  | .markDirty resource dirty, _ => m.find resource [.dirtyRetired resource dirty] []
  | .advanceEpoch delta, _ => some ({m with epoch := m.epoch + delta}, [])
  | .scheduleMaintenance s, _ => m.find s.resource [.scheduleRetired s] [.ticket s.resource .skippedNotFound 0]
  | .scheduleStaleMaintenance request, .order resources =>
      if m.locked = false ∧ resources.Perm m.entries then some (m, [.sweepEpoch resources request]) else none
  | .collectRetired, .order resources =>
      if m.locked = false ∧ resources.Perm m.entries then some ({m with locked := true}, [.collect resources 0])
      else none
  | .runtime call, _ => some (m, [.runtime (.call call)])
  | _, _ => none

/-- `AsyncRuntime::submit` of a maintenance: it throws when there is no executor of that name. -/
def runSubmit (m : Manager) (s : Scheduling) (scheduledEpoch : ℕ) : Manager × List Frame :=
  match (m.entry s.resource).descriptor.executor with
  | none => (m, [.abandon s.resource])
  | some executor =>
      let id := m.runtime.nextSubmissionId + 1
      let r := AsyncRuntime.runCall m.runtime (.submit (s.submission executor))
      ({m with
        runtime := r.1
        maintenance := Function.update m.maintenance id (some ⟨s.resource, s.request, scheduledEpoch⟩)
        cleared := Function.update m.cleared id false},
        r.2.map .runtime ++ [.ticket s.resource .scheduled id])

def runRuntime (body : ℕ → List AsyncRuntime.Call) (m : Manager) (frame : AsyncRuntime.Frame) :
    Choice → Option (Manager × List Frame)
  | .runtime choice => (AsyncRuntime.code body m.runtime frame choice).map fun r =>
      ({m with runtime := r.1}, r.2.map .runtime)
  | _ => none

/-- The maintenance whose step a frame of the runtime is about to run. -/
def Manager.work (m : Manager) : AsyncRuntime.Frame → Option (ℕ × Maintenance)
  | .step id => (m.maintenance id).map (id, ·)
  | _ => none

/-- How the step of a maintenance goes on with its result: success is recorded first, then the flag is cleared unless
the maintenance suspends. -/
def runMaintained (id : ℕ) (work : Maintenance) : AsyncPollStatus → Frame
  | .completed => if work.request.clearDirtyOnSuccess then .clearDirty id work else .recordAccess id work
  | .suspend => .loadStop id work .suspend
  | result => .clearFlag id work result

/-- The atomic actions; `body` is the code of the callbacks that users register on events. -/
def code (body : ℕ → List AsyncRuntime.Call) : Code Manager Frame Choice := fun m f x => match f with
  | .runtime frame => match m.work frame with
    | some (id, work) => some (m, [.loadLeases id work (m.entry work.resource).payload])
    | none => runRuntime body m frame x
  | .call call => runCall m call x
  | .insert resource =>
      if m.locked then none else some ({m with entries := resource :: m.entries.erase resource}, [])
  | .acquireRetired resource => some (m, if (m.entry resource).retired then [] else [.acquireCount resource])
  | .acquireCount resource =>
      some (m.update resource fun e => {e with leaseCount := e.leaseCount + 1}, [.loadEpoch resource, .acquired resource])
  | .acquired resource => some ({m with held := Function.update m.held resource (m.held resource + 1)}, [])
  | .loadEpoch resource => some (m, [.storeAccess resource m.epoch])
  | .storeAccess resource epoch => some (m.update resource fun e => {e with lastAccessEpoch := epoch}, [])
  | .releaseCount resource =>
      some (m.update resource fun e => {e with leaseCount := e.leaseCount - 1},
        if (m.entry resource).leaseCount - 1 = 0 then [.releaseRetired resource] else [])
  | .releaseRetired resource => some (m, if (m.entry resource).retired then [.releaseBusy resource] else [])
  | .releaseBusy resource => some (m, if (m.entry resource).maintenanceInFlight then [] else [.destroy resource])
  | .destroy resource => some (m.update resource Entry.destroyPayloadIfNeeded, [])
  | .touchRetired resource => some (m, if (m.entry resource).retired then [] else [.loadEpoch resource])
  | .dirtyRetired resource dirty => some (m, if (m.entry resource).retired then [] else [.storeDirty resource dirty])
  | .storeDirty resource dirty =>
      some (m.update resource fun e => {e with dirty}, if dirty then [.loadEpoch resource] else [])
  | .scheduleRetired s =>
      some (m, [if (m.entry s.resource).retired then .ticket s.resource .skippedRetired 0
        else if s.request.requireIdle ∨ (m.entry s.resource).descriptor.allowMaintenanceWhileLeased = false
        then .scheduleLeases s else .scheduleDirty s])
  | .scheduleLeases s =>
      some (m, [if (m.entry s.resource).leaseCount = 0 then .scheduleDirty s else .ticket s.resource .skippedLeased 0])
  | .scheduleDirty s =>
      some (m, [if s.request.requireDirty ∧ (m.entry s.resource).dirty = false
        then .ticket s.resource .skippedNotFound 0 else .scheduleExchange s])
  | .scheduleExchange s =>
      if (m.entry s.resource).maintenanceInFlight then some (m, [.ticket s.resource .skippedBusy 0])
      else some (m.update s.resource fun e => {e with maintenanceInFlight := true}, [.scheduleEpoch s])
  | .scheduleEpoch s => some (m, [.submit s m.epoch])
  | .submit s scheduledEpoch => some (runSubmit m s scheduledEpoch)
  | .abandon resource => some (m.update resource fun e => {e with maintenanceInFlight := false}, [])
  | .ticket resource disposition id => some ({m with tickets := (resource, disposition, id) :: m.tickets}, [])
  | .loadLeases id work payload =>
      some (m, [if (m.entry work.resource).callbacks.maintain
        then .maintain id work payload (m.entry work.resource).leaseCount else .maintained id work .completed])
  | .maintain id work payload leaseCount => match x with
    | .call call => some (m, [.call call, .maintain id work payload leaseCount])
    | .finish result => some (m, [.maintained id work result])
    | .throw => some (m, [.thrown id work])
    | _ => none
  | .maintained id work result => some (m, [runMaintained id work result])
  | .clearDirty id work => some (m.update work.resource fun e => {e with dirty := false}, [.recordAccess id work])
  | .recordAccess id work =>
      some (m.update work.resource fun e => {e with lastAccessEpoch := work.scheduledEpoch},
        [if work.request.retireOnSuccess then .retire id work else .clearFlag id work .completed])
  | .retire id work =>
      some (m.update work.resource fun e => {e with retired := true}, [.clearFlag id work .completed])
  | .clearFlag id work result =>
      some ({m.update work.resource fun e => {e with maintenanceInFlight := false} with
          cleared := Function.update m.cleared id true},
        [if work.request.retireOnSuccess ∧ result = .completed then .loadIdle id work else .loadStop id work result])
  | .loadIdle id work =>
      some (m, (if (m.entry work.resource).leaseCount = 0 then [.destroy work.resource] else []) ++
        [.loadStop id work .completed])
  | .loadStop id _ result =>
      some (m, [.runtime (.finalize id (if m.runtime.stopRequested id then .cancelled else result))])
  | .thrown id _ => some (m, [.runtime (.finalize id .failed)])
  | .sweepEpoch resources request => some (m, [.sweep resources request m.epoch])
  | .sweep [] _ _ => some (m, [])
  | .sweep (resource :: resources) request epoch =>
      some (m, (if (m.entry resource).retired then [] else [.sweepStale resource request epoch]) ++
        [.sweep resources request epoch])
  | .sweepStale resource request epoch =>
      some (m, if m.isStale resource epoch = false ∨
          (m.entry resource).descriptor.evictWhenStale = false ∧ request.kind = .evict
        then [] else [.sweepDirty resource request])
  | .sweepDirty resource request =>
      some (m, if request.requireDirty ∧ (m.entry resource).dirty = false then []
        else [.call (.scheduleMaintenance {resource, request})])
  | .collect [] _ => some ({m with locked := false}, [])
  | .collect (resource :: resources) removed =>
      some (m, [if (m.entry resource).retired then .collectLeases resource resources removed
        else .collect resources removed])
  | .collectLeases resource resources removed =>
      some (m, [if (m.entry resource).leaseCount = 0 then .collectBusy resource resources removed
        else .collect resources removed])
  | .collectBusy resource resources removed =>
      some (m, [if (m.entry resource).maintenanceInFlight then .collect resources removed
        else .collectDestroy resource resources removed])
  | .collectDestroy resource resources removed =>
      some (m.update resource Entry.destroyPayloadIfNeeded, [.collectErase resource resources removed])
  | .collectErase resource resources removed =>
      some ({m with
        entries := m.entries.erase resource
        collected := Function.update m.collected resource true}, [.collect resources (removed + 1)])

/-- What one action does, branch by branch. -/
inductive Acts (body : ℕ → List AsyncRuntime.Call) (m : Manager) : Frame → Manager → List Frame → Prop
  | runtime (frame runtime' fs) (ha : AsyncRuntime.Acts body m.runtime frame runtime' fs) (hw : m.work frame = none) :
      Acts body m (.runtime frame) {m with runtime := runtime'} (fs.map .runtime)
  | step (id work payload) (hw : m.maintenance id = some work) :
      Acts body m (.runtime (.step id)) m [.loadLeases id work payload]
  | register (descriptor callbacks payload) : Acts body m (.call (.register descriptor callbacks payload))
      (m.make descriptor callbacks payload) [.insert (m.nextId + 1)]
  | acquire (r) (hr : r ∈ m.entries) : Acts body m (.call (.acquire r)) m [.acquireRetired r]
  | touch (r) (hr : r ∈ m.entries) : Acts body m (.call (.touch r)) m [.touchRetired r]
  | markDirty (r dirty) (hr : r ∈ m.entries) : Acts body m (.call (.markDirty r dirty)) m [.dirtyRetired r dirty]
  | noEntry (call) : Acts body m (.call call) m []
  | release (r) (hh : m.held r ≠ 0) : Acts body m (.call (.release r))
      {m with held := Function.update m.held r (m.held r - 1)} [.releaseCount r]
  | advanceEpoch (delta) : Acts body m (.call (.advanceEpoch delta)) {m with epoch := m.epoch + delta} []
  | schedule (s) (hr : s.resource ∈ m.entries) : Acts body m (.call (.scheduleMaintenance s)) m [.scheduleRetired s]
  | scheduleMissing (s) : Acts body m (.call (.scheduleMaintenance s)) m [.ticket s.resource .skippedNotFound 0]
  | scheduleStale (request resources) (hp : resources.Perm m.entries) :
      Acts body m (.call (.scheduleStaleMaintenance request)) m [.sweepEpoch resources request]
  | collectRetired (resources) (hp : resources.Perm m.entries) :
      Acts body m (.call .collectRetired) {m with locked := true} [.collect resources 0]
  | callRuntime (call) : Acts body m (.call (.runtime call)) m [.runtime (.call call)]
  | insert (r) : Acts body m (.insert r) {m with entries := r :: m.entries.erase r} []
  | acquireRetired (r) : Acts body m (.acquireRetired r) m []
  | acquireLive (r) : Acts body m (.acquireRetired r) m [.acquireCount r]
  | acquireCount (r) : Acts body m (.acquireCount r)
      (m.update r fun e => {e with leaseCount := e.leaseCount + 1}) [.loadEpoch r, .acquired r]
  | acquired (r) : Acts body m (.acquired r) {m with held := Function.update m.held r (m.held r + 1)} []
  | loadEpoch (r) : Acts body m (.loadEpoch r) m [.storeAccess r m.epoch]
  | storeAccess (r epoch) : Acts body m (.storeAccess r epoch) (m.update r fun e => {e with lastAccessEpoch := epoch}) []
  | releaseLast (r) : Acts body m (.releaseCount r)
      (m.update r fun e => {e with leaseCount := e.leaseCount - 1}) [.releaseRetired r]
  | releaseCount (r) : Acts body m (.releaseCount r) (m.update r fun e => {e with leaseCount := e.leaseCount - 1}) []
  | releaseRetired (r) (hr : (m.entry r).retired = true) : Acts body m (.releaseRetired r) m [.releaseBusy r]
  | releaseLive (r) : Acts body m (.releaseRetired r) m []
  | releaseIdle (r) : Acts body m (.releaseBusy r) m [.destroy r]
  | releaseBusy (r) : Acts body m (.releaseBusy r) m []
  | destroy (r) : Acts body m (.destroy r) (m.update r Entry.destroyPayloadIfNeeded) []
  | touchRetired (r) : Acts body m (.touchRetired r) m []
  | touchLive (r) : Acts body m (.touchRetired r) m [.loadEpoch r]
  | dirtyRetired (r dirty) : Acts body m (.dirtyRetired r dirty) m []
  | dirtyLive (r dirty) : Acts body m (.dirtyRetired r dirty) m [.storeDirty r dirty]
  | storeDirty (r) : Acts body m (.storeDirty r true) (m.update r fun e => {e with dirty := true}) [.loadEpoch r]
  | storeClean (r) : Acts body m (.storeDirty r false) (m.update r fun e => {e with dirty := false}) []
  | scheduleRetired (s) : Acts body m (.scheduleRetired s) m [.ticket s.resource .skippedRetired 0]
  | scheduleIdle (s) : Acts body m (.scheduleRetired s) m [.scheduleLeases s]
  | scheduleLeased (s) (ha : (m.entry s.resource).descriptor.allowMaintenanceWhileLeased = true) :
      Acts body m (.scheduleRetired s) m [.scheduleDirty s]
  | noLeases (s) (hl : (m.entry s.resource).leaseCount = 0) : Acts body m (.scheduleLeases s) m [.scheduleDirty s]
  | leased (s) : Acts body m (.scheduleLeases s) m [.ticket s.resource .skippedLeased 0]
  | scheduleClean (s) : Acts body m (.scheduleDirty s) m [.ticket s.resource .skippedNotFound 0]
  | scheduleDirty (s) : Acts body m (.scheduleDirty s) m [.scheduleExchange s]
  | busy (s) : Acts body m (.scheduleExchange s) m [.ticket s.resource .skippedBusy 0]
  | exchange (s) : Acts body m (.scheduleExchange s)
      (m.update s.resource fun e => {e with maintenanceInFlight := true}) [.scheduleEpoch s]
  | scheduleEpoch (s) : Acts body m (.scheduleEpoch s) m [.submit s m.epoch]
  | submit (s scheduledEpoch executor fs) (ha : AsyncRuntime.Acts body m.runtime (.call (.submit (s.submission executor)))
        (m.runtime.allocate (s.submission executor)) fs) : Acts body m (.submit s scheduledEpoch)
      {m with
        runtime := m.runtime.allocate (s.submission executor)
        maintenance := Function.update m.maintenance (m.runtime.nextSubmissionId + 1)
          (some ⟨s.resource, s.request, scheduledEpoch⟩)
        cleared := Function.update m.cleared (m.runtime.nextSubmissionId + 1) false}
      (fs.map .runtime ++ [.ticket s.resource .scheduled (m.runtime.nextSubmissionId + 1)])
  | noExecutor (s scheduledEpoch) : Acts body m (.submit s scheduledEpoch) m [.abandon s.resource]
  | abandon (r) : Acts body m (.abandon r) (m.update r fun e => {e with maintenanceInFlight := false}) []
  | ticket (r disposition id) : Acts body m (.ticket r disposition id)
      {m with tickets := (r, disposition, id) :: m.tickets} []
  | maintain (id work payload leaseCount) :
      Acts body m (.loadLeases id work payload) m [.maintain id work payload leaseCount]
  | noMaintain (id work payload) : Acts body m (.loadLeases id work payload) m [.maintained id work .completed]
  | maintainCall (id work payload leaseCount call) : Acts body m (.maintain id work payload leaseCount) m
      [.call call, .maintain id work payload leaseCount]
  | maintainFinish (id work payload leaseCount result) : Acts body m (.maintain id work payload leaseCount) m
      [.maintained id work result]
  | maintainThrow (id work payload leaseCount) : Acts body m (.maintain id work payload leaseCount) m [.thrown id work]
  | completedDirty (id work) : Acts body m (.maintained id work .completed) m [.clearDirty id work]
  | completed (id work) : Acts body m (.maintained id work .completed) m [.recordAccess id work]
  | suspended (id work) : Acts body m (.maintained id work .suspend) m [.loadStop id work .suspend]
  | unsuccessful (id work result) (hc : result ≠ .completed) (hs : result ≠ .suspend) :
      Acts body m (.maintained id work result) m [.clearFlag id work result]
  | clearDirty (id work) : Acts body m (.clearDirty id work)
      (m.update work.resource fun e => {e with dirty := false}) [.recordAccess id work]
  | accessRetire (id work) : Acts body m (.recordAccess id work)
      (m.update work.resource fun e => {e with lastAccessEpoch := work.scheduledEpoch}) [.retire id work]
  | accessKeep (id work) (hr : work.request.retireOnSuccess = false) : Acts body m (.recordAccess id work)
      (m.update work.resource fun e => {e with lastAccessEpoch := work.scheduledEpoch}) [.clearFlag id work .completed]
  | retire (id work) : Acts body m (.retire id work)
      (m.update work.resource fun e => {e with retired := true}) [.clearFlag id work .completed]
  | clearRetired (id work) (hr : work.request.retireOnSuccess = true) : Acts body m (.clearFlag id work .completed)
      {m.update work.resource fun e => {e with maintenanceInFlight := false} with
        cleared := Function.update m.cleared id true} [.loadIdle id work]
  | clearFlag (id work result) : Acts body m (.clearFlag id work result)
      {m.update work.resource fun e => {e with maintenanceInFlight := false} with
        cleared := Function.update m.cleared id true} [.loadStop id work result]
  | idle (id work) (hl : (m.entry work.resource).leaseCount = 0) : Acts body m (.loadIdle id work) m
      [.destroy work.resource, .loadStop id work .completed]
  | stillLeased (id work) : Acts body m (.loadIdle id work) m [.loadStop id work .completed]
  | stopped (id work result) (hs : m.runtime.stopRequested id = true) : Acts body m (.loadStop id work result) m
      [.runtime (.finalize id .cancelled)]
  | loadStop (id work result) (hs : m.runtime.stopRequested id = false) : Acts body m (.loadStop id work result) m
      [.runtime (.finalize id result)]
  | thrown (id work) : Acts body m (.thrown id work) m [.runtime (.finalize id .failed)]
  | sweepEpoch (resources request) : Acts body m (.sweepEpoch resources request) m [.sweep resources request m.epoch]
  | swept (request epoch) : Acts body m (.sweep [] request epoch) m []
  | sweepRetired (r resources request epoch) : Acts body m (.sweep (r :: resources) request epoch) m
      [.sweep resources request epoch]
  | sweepLive (r resources request epoch) : Acts body m (.sweep (r :: resources) request epoch) m
      [.sweepStale r request epoch, .sweep resources request epoch]
  | sweepFresh (r request epoch) : Acts body m (.sweepStale r request epoch) m []
  | sweepStale (r request epoch) : Acts body m (.sweepStale r request epoch) m [.sweepDirty r request]
  | sweepClean (r request) : Acts body m (.sweepDirty r request) m []
  | sweepDirty (r request) : Acts body m (.sweepDirty r request) m [.call (.scheduleMaintenance {resource := r, request})]
  | collected (removed) : Acts body m (.collect [] removed) {m with locked := false} []
  | collectLive (r resources removed) : Acts body m (.collect (r :: resources) removed) m [.collect resources removed]
  | collect (r resources removed) (hr : (m.entry r).retired = true) : Acts body m (.collect (r :: resources) removed) m
      [.collectLeases r resources removed]
  | collectLeased (r resources removed) : Acts body m (.collectLeases r resources removed) m [.collect resources removed]
  | collectLeases (r resources removed) (hl : (m.entry r).leaseCount = 0) :
      Acts body m (.collectLeases r resources removed) m [.collectBusy r resources removed]
  | collectBusy (r resources removed) : Acts body m (.collectBusy r resources removed) m [.collect resources removed]
  | collectIdle (r resources removed) : Acts body m (.collectBusy r resources removed) m
      [.collectDestroy r resources removed]
  | collectDestroy (r resources removed) : Acts body m (.collectDestroy r resources removed)
      (m.update r Entry.destroyPayloadIfNeeded) [.collectErase r resources removed]
  | collectErase (r resources removed) : Acts body m (.collectErase r resources removed)
      {m with entries := m.entries.erase r, collected := Function.update m.collected r true}
      [.collect resources (removed + 1)]

variable {body : ℕ → List AsyncRuntime.Call} {m m' : Manager} {f : Frame} {x : Choice} {fs : List Frame}

theorem find_eq {r : ℕ} {found missing : List Frame} (h : m.find r found missing = some (m', fs)) :
    m' = m ∧ (r ∈ m.entries ∧ fs = found ∨ fs = missing) := by
  unfold Manager.find at h
  split_ifs at h with hl hr <;> cases h
  · exact ⟨rfl, .inl ⟨hr, rfl⟩⟩
  · exact ⟨rfl, .inr rfl⟩

theorem acts_of_runCall {call : Call} (h : runCall m call x = some (m', fs)) : Acts body m (.call call) m' fs := by
  cases call with
  | register descriptor callbacks payload => cases h; exact .register descriptor callbacks payload
  | acquire r | touch r | markDirty r dirty =>
    obtain ⟨rfl, ⟨hr, rfl⟩ | rfl⟩ := find_eq h
    · constructor
      exact hr
    · exact .noEntry _
  | scheduleMaintenance s =>
    obtain ⟨rfl, ⟨hr, rfl⟩ | rfl⟩ := find_eq h
    · exact .schedule s hr
    · exact .scheduleMissing s
  | release r =>
    simp only [runCall] at h
    split_ifs at h with hh <;> cases h
    · exact .noEntry _
    · exact .release r hh
  | advanceEpoch delta => cases h; exact .advanceEpoch delta
  | scheduleStaleMaintenance request | collectRetired =>
    cases x with
    | order resources =>
      simp only [runCall] at h
      split_ifs at h with hl
      cases h
      constructor
      exact hl.2
    | _ => cases h
  | runtime call => cases h; exact .callRuntime call

theorem acts_of_runSubmit {s : Scheduling} {scheduledEpoch : ℕ} (h : runSubmit m s scheduledEpoch = (m', fs)) :
    Acts body m (.submit s scheduledEpoch) m' fs := by
  unfold runSubmit at h
  split at h <;> cases h
  · exact .noExecutor s scheduledEpoch
  · exact .submit s scheduledEpoch _ _ (AsyncRuntime.acts_of_runCall rfl)

theorem acts_of_runtime {frame : AsyncRuntime.Frame} (h : code body m (.runtime frame) x = some (m', fs)) :
    Acts body m (.runtime frame) m' fs := by
  simp only [code] at h
  split at h
  · rename_i id work hw
    cases frame with
    | step id' =>
      obtain ⟨work', hw, he⟩ := Option.map_eq_some_iff.mp hw
      cases he
      cases h
      exact .step id _ _ hw
    | _ => cases hw
  · rename_i hw
    cases x with
    | runtime choice =>
      obtain ⟨r, hr, he⟩ := Option.map_eq_some_iff.mp h
      cases he
      exact .runtime frame r.1 r.2 (AsyncRuntime.acts_of_code hr) hw
    | _ => cases h

theorem acts_of_code (h : code body m f x = some (m', fs)) : Acts body m f m' fs := by
  cases f with
  | runtime frame => exact acts_of_runtime h
  | call call => exact acts_of_runCall h
  | submit s scheduledEpoch => exact acts_of_runSubmit (Option.some.inj h)
  | insert r | scheduleExchange s =>
    simp only [code] at h
    split_ifs at h <;> (cases h; constructor)
  | maintain id work payload leaseCount =>
    simp only [code] at h
    split at h <;> cases h <;> constructor
  | maintained id work result =>
    cases result with
    | completed =>
      simp only [code, runMaintained] at h
      split_ifs at h <;> cases h
      · exact .completedDirty id work
      · exact .completed id work
    | suspend => cases h; exact .suspended id work
    | cancelled | failed => cases h; exact .unsuccessful id work _ nofun nofun
  | sweep resources request epoch =>
    cases resources <;> simp only [code] at h <;> (try split_ifs at h) <;> cases h <;> constructor
  | collect resources removed =>
    cases resources <;> simp only [code] at h <;> (try split_ifs at h) <;> cases h <;> constructor
    assumption
  | storeDirty r dirty => cases dirty <;> cases h <;> constructor
  | scheduleRetired s =>
    simp only [code] at h
    split_ifs at h with hr hl <;> cases h
    · exact .scheduleRetired s
    · exact .scheduleIdle s
    · exact .scheduleLeased s (by simpa using (not_or.mp hl).2)
  | recordAccess id work =>
    simp only [code] at h
    split_ifs at h with hr <;> cases h
    · exact .accessRetire id work
    · exact .accessKeep id work (by simpa using hr)
  | clearFlag id work result =>
    simp only [code] at h
    split_ifs at h with hr <;> cases h
    · obtain ⟨hr, rfl⟩ := hr
      exact .clearRetired id work hr
    · exact .clearFlag id work result
  | loadStop id work result =>
    simp only [code] at h
    split_ifs at h with hs <;> cases h
    · exact .stopped id work result hs
    · exact .loadStop id work result (by simpa using hs)
  | acquireRetired r | releaseCount r | releaseBusy r | touchRetired r | dirtyRetired r dirty | scheduleDirty s
  | loadLeases id work payload | sweepStale r request epoch | sweepDirty r request | collectBusy r resources removed =>
    simp only [code] at h
    split_ifs at h <;> cases h <;> constructor
  | releaseRetired r | scheduleLeases s | loadIdle id work | collectLeases r resources removed =>
    simp only [code] at h
    split_ifs at h <;> cases h <;> constructor
    assumption
  | _ => cases h; constructor

/-- How an action changes an entry. -/
inductive Alters (m : Manager) (r : ℕ) : Frame → Entry → Prop
  | register (descriptor callbacks payload) (hr : r = m.nextId + 1) :
      Alters m r (.call (.register descriptor callbacks payload))
        {descriptor, callbacks, payload, lastAccessEpoch := m.epoch, registered := payload}
  | acquire : Alters m r (.acquireCount r) {m.entry r with leaseCount := (m.entry r).leaseCount + 1}
  | release : Alters m r (.releaseCount r) {m.entry r with leaseCount := (m.entry r).leaseCount - 1}
  | destroy : Alters m r (.destroy r) (m.entry r).destroyPayloadIfNeeded
  | collect (resources removed) : Alters m r (.collectDestroy r resources removed) (m.entry r).destroyPayloadIfNeeded
  | access (f epoch) : Alters m r f {m.entry r with lastAccessEpoch := epoch}
  | dirty (f dirty) : Alters m r f {m.entry r with dirty}
  | exchange (s) (hs : s.resource = r) : Alters m r (.scheduleExchange s) {m.entry r with maintenanceInFlight := true}
  | abandon : Alters m r (.abandon r) {m.entry r with maintenanceInFlight := false}
  | retire (id work) (hw : work.resource = r) : Alters m r (.retire id work) {m.entry r with retired := true}
  | clearFlag (id work result) (hw : work.resource = r) : Alters m r (.clearFlag id work result)
      {m.entry r with maintenanceInFlight := false}

theorem update_entry_eq {g : Entry → Entry} {r r' : ℕ} (h : r' = r → Alters m r f (g (m.entry r))) :
    (m.update r' g).entry r = m.entry r ∨ Alters m r f ((m.update r' g).entry r) := by
  by_cases hr : r' = r
  · subst hr
    exact .inr (by simpa [Manager.update] using h rfl)
  · exact .inl (by simp [Manager.update, Ne.symm hr])

theorem Acts.entry_eq (ha : Acts body m f m' fs) (r : ℕ) :
    m'.entry r = m.entry r ∨ Alters m r f (m'.entry r) := by
  cases ha with
  | register descriptor callbacks payload =>
    by_cases hr : r = m.nextId + 1
    · subst hr
      exact .inr (by simpa [Manager.make] using .register descriptor callbacks payload rfl)
    · exact .inl (by simp [Manager.make, hr])
  | acquireCount r' => exact update_entry_eq fun h => h ▸ .acquire
  | releaseLast r' | releaseCount r' => exact update_entry_eq fun h => h ▸ .release
  | destroy r' => exact update_entry_eq fun h => h ▸ .destroy
  | collectDestroy r' resources removed => exact update_entry_eq fun h => h ▸ .collect resources removed
  | storeAccess r' epoch => exact update_entry_eq fun _ => .access _ epoch
  | accessRetire id work | accessKeep id work hr => exact update_entry_eq fun _ => .access _ work.scheduledEpoch
  | storeDirty r' => exact update_entry_eq fun _ => .dirty _ true
  | storeClean r' => exact update_entry_eq fun _ => .dirty _ false
  | clearDirty id work => exact update_entry_eq fun _ => .dirty _ false
  | exchange s => exact update_entry_eq fun h => .exchange s h
  | abandon r' => exact update_entry_eq fun h => h ▸ .abandon
  | retire id work => exact update_entry_eq fun h => .retire id work h
  | clearRetired id work hr | clearFlag id work result =>
    exact update_entry_eq (g := fun e => {e with maintenanceInFlight := false}) fun h => .clearFlag id work _ h
  | _ => exact .inl rfl

/-- Any threads about to make any calls, beside the workers of the pool. -/
def start (workerCount : ℕ) (programs : List (List Call)) : Config Manager Frame :=
  ⟨{}, List.replicate (AsyncRuntime.poolSize workerCount) [.runtime .worker] ++ programs.map (·.map .call)⟩

theorem frame_start {workerCount : ℕ} {programs : List (List Call)} (hf : f ∈ (start workerCount programs).frames) :
    f = .runtime .worker ∨ ∃ call, f = .call call := mem_workers hf

theorem total_start {workerCount : ℕ} {programs : List (List Call)} {g : Frame → ℕ} (hw : g (.runtime .worker) = 0)
    (hc : ∀ call, g (.call call) = 0) : (start workerCount programs).total g = 0 :=
  total_workers hw hc _ _ _

end Zpc.AsyncResourceManager
