/-
Sf37.Server.Shutdown — the threads of the server, from the first connection to the end of
`main`.

A step is what a thread does between two places where another may come in: it takes or gives
back a mutex, reads or sets the stop flag, reads, resets or closes the listening socket, changes
`clients`, or leaves a piece of work. No thread masks the stop signals: their handler runs on any
thread, which stands still until the handler has returned.

* `advance_client`, `mainStep_takes`, `advance_main`: what a step can do.
* `inv_comes`: what holds in every state that any order of steps leads to.
-/
import Sf37.Run.Guarded
import Sf37.Run.Mutex
import Mathlib.Data.List.Count

namespace Sf37.Server.Shutdown

open Sf37.Run

/-! ## The source -/

/-- Where a client thread stands: `client_thread_main`, `handle_generation_request` and
`server_client_done`. -/
inductive ClientAt where
  /-- `read_http_request` -/
  | reading
  /-- before `pthread_mutex_lock(&s->gen_mu)` -/
  | waitsForGen
  /-- the first `server_stop_requested` -/
  | checksStop
  | parsing
  /-- the second `server_stop_requested` -/
  | checksAgain
  /-- behind it, before `run_generation` -/
  | enters
  /-- `run_generation` -/
  | generating
  /-- before `pthread_mutex_unlock(&s->gen_mu)` -/
  | leavesGen
  /-- the rest of the answer, and `close` -/
  | answering
  /-- before `pthread_mutex_lock(&s->clients_mu)` -/
  | waitsForClients
  /-- `if (s->clients > 0) s->clients--;` -/
  | counting
  | broadcasting
  /-- before `pthread_mutex_unlock(&s->clients_mu)` -/
  | leavesClients
  | finished
  deriving DecidableEq

/-- Where `main` stands, behind the start of the server. -/
inductive MainAt where
  /-- `for (; !g_stop_requested;)` -/
  | loop
  /-- before `accept` -/
  | calling
  /-- blocked in `accept` -/
  | accepting
  | acceptFailed (interrupted : Bool)
  /-- `if (g_stop_requested)` with a connection -/
  | accepted
  | waitsToCount
  /-- `state.clients++` -/
  | counting
  | counted
  /-- `pthread_create` -/
  | creating
  | waitsToUncount
  /-- `state.clients--` -/
  | uncounting
  | uncountBroadcast
  | uncounted
  /-- `if (g_listen_fd >= 0)` -/
  | testsListen
  /-- `close(lfd)` -/
  | closesListen
  /-- `g_listen_fd = -1` -/
  | clearsListen
  | waitsToDrain
  /-- `while (state.clients > 0)` -/
  | testsClients
  /-- in `pthread_cond_wait` -/
  | waiting
  /-- woken, without the mutex -/
  | woken
  | drained
  /-- `kv_cache_store_current` -/
  | storing
  /-- `sf37_kvstore_close` up to the live states -/
  | freeing
  /-- the condition variable and the three mutexes -/
  | destroying
  /-- `sf37_session_free` and `sf37_engine_close` -/
  | closingEngine
  | returned
  deriving DecidableEq

inductive Party where
  | main
  | client (i : Nat)
  deriving DecidableEq

/-- The signals that stop the server: `SIGINT` and `SIGTERM`. -/
inductive StopSignal where
  | interrupt
  | terminate
  deriving DecidableEq

/-- Where a call of `stop_signal_handler` stands. `socket` says whether its `fd` is the listening
socket. -/
inductive HandlerAt where
  /-- `if (g_stop_requested) _exit(130);` -/
  | testsStop
  /-- `g_stop_requested = 1` -/
  | setsStop
  /-- `if (g_listen_fd >= 0)` -/
  | testsListen
  /-- `int fd = (int)g_listen_fd;` -/
  | copies
  /-- `g_listen_fd = -1` -/
  | clears (socket : Bool)
  /-- `close(fd)` -/
  | closes (socket : Bool)
  | returned
  deriving DecidableEq

/-- A call of `stop_signal_handler`, and the thread it runs on. -/
structure Handler where
  on : Party
  signal : StopSignal
  place : HandlerAt

/-- The handler has not returned. -/
def Handler.runs (h : Handler) : Bool := h.place != .returned

/-- What the threads share. The threads and the handlers stand in the order in which they came. -/
structure State where
  main : MainAt := .loop
  threads : List ClientAt := []
  handlers : List Handler := []
  clients : Int := 0
  genMu : Option Party := none
  clientsMu : Option Party := none
  stopRequested : Bool := false
  /-- `g_listen_fd >= 0` -/
  listenFd : Bool := true
  /-- the calls of `close` with the listening socket -/
  closed : Nat := 0
  /-- `_exit(130)` -/
  killed : Bool := false

/-- What comes back from `accept`. -/
inductive Accepted where
  | connection
  | interrupted
  | failed
  deriving DecidableEq

/-- Where it brings `main`. -/
def Accepted.leads : Accepted → MainAt
  | .connection => .accepted
  | .interrupted => .acceptFailed true
  | .failed => .acceptFailed false

inductive Event where
  /-- A signal comes to a thread. -/
  | signal (p : Party) (sig : StopSignal)
  /-- a step of a handler -/
  | handler (k : Nat)
  | accept (r : Accepted)
  | create (ok : Bool)
  /-- `pthread_cond_wait` may wake without a cause. -/
  | spurious
  /-- any other step of `main` -/
  | main
  /-- the request is read: it asks for a generation or not -/
  | request (i : Nat) (generation : Bool)
  | parsed (i : Nat) (ok : Bool)
  /-- any other step of a client thread -/
  | client (i : Nat)
  deriving DecidableEq

def State.goto (s : State) (i : Nat) (a : ClientAt) : State :=
  { s with threads := s.threads.set i a }

/-- A handler stands on the thread. -/
def State.interrupted (s : State) (p : Party) : Bool :=
  s.handlers.any fun h => h.on = p && h.runs

/-- The thread can take the signal: it is there, and it is not in the handler of this very
signal. -/
def State.takes (s : State) (p : Party) (sig : StopSignal) : Bool :=
  (match p with
    | .main => true
    | .client i => i < s.threads.length) &&
  !s.handlers.any fun h => h.on = p && h.signal = sig && h.runs

/-- A signal comes to a thread: it begins the handler. Where `main` is blocked in `accept`, that
call comes back with `EINTR` behind the handler. -/
def deliver (s : State) (p : Party) (sig : StopSignal) : State :=
  { s with
    main := if p = .main ∧ s.main = .accepting then .acceptFailed true else s.main
    handlers := s.handlers ++ [⟨p, sig, .testsStop⟩] }

def State.moveHandler (s : State) (k : Nat) (h : Handler) (a : HandlerAt) : State :=
  { s with handlers := s.handlers.set k { h with place := a } }

/-- A step of `stop_signal_handler`. -/
def stopSignalHandler (s : State) (k : Nat) (h : Handler) : Option State :=
  match h.place with
  | .testsStop =>
      some (if s.stopRequested then { s with killed := true } else s.moveHandler k h .setsStop)
  | .setsStop => some { s.moveHandler k h .testsListen with stopRequested := true }
  | .testsListen => some (s.moveHandler k h (if s.listenFd then .copies else .returned))
  | .copies => some (s.moveHandler k h (.clears s.listenFd))
  | .clears socket => some { s.moveHandler k h (.closes socket) with listenFd := false }
  | .closes socket =>
      some { s.moveHandler k h .returned with closed := s.closed + socket.toNat }
  | .returned => none

/-- No later handler stands on the thread of this one. -/
def State.innermost (s : State) (k : Nat) (h : Handler) : Bool :=
  !(s.handlers.drop (k + 1)).any fun h' => h'.on = h.on && h'.runs

/-- `pthread_cond_broadcast(&s->clients_cv)` -/
def broadcast (s : State) : State :=
  { s with main := if s.main = .waiting then .woken else s.main }

/-- A step of a client thread that depends on nothing from outside. -/
def clientStep (s : State) (i : Nat) : ClientAt → Option State
  | .waitsForGen =>
      if s.genMu = none then some { s.goto i .checksStop with genMu := some (.client i) } else none
  | .checksStop => some (s.goto i (if s.stopRequested then .leavesGen else .parsing))
  | .checksAgain => some (s.goto i (if s.stopRequested then .leavesGen else .enters))
  | .enters => some (s.goto i .generating)
  | .generating => some (s.goto i .leavesGen)
  | .leavesGen => some { s.goto i .answering with genMu := none }
  | .answering => some (s.goto i .waitsForClients)
  | .waitsForClients =>
      if s.clientsMu = none then
        some { s.goto i .counting with clientsMu := some (.client i) }
      else none
  | .counting =>
      some { s.goto i .broadcasting with
        clients := if 0 < s.clients then s.clients - 1 else s.clients }
  | .broadcasting => some (broadcast (s.goto i .leavesClients))
  | .leavesClients => some { s.goto i .finished with clientsMu := none }
  | .reading | .parsing | .finished => none

/-- A step of `main` that depends on nothing from outside. -/
def mainStep (s : State) : MainAt → Option State
  | .loop => some { s with main := if s.stopRequested then .testsListen else .calling }
  -- `accept` fails at once where the socket has been closed
  | .calling => some { s with main := if s.closed = 0 then .accepting else .acceptFailed false }
  | .acceptFailed interrupted =>
      some { s with main :=
        if s.stopRequested then .testsListen else if interrupted then .loop else .testsListen }
  | .accepted => some { s with main := if s.stopRequested then .testsListen else .waitsToCount }
  | .waitsToCount =>
      if s.clientsMu = none then some { s with main := .counting, clientsMu := some .main }
      else none
  | .counting => some { s with main := .counted, clients := s.clients + 1 }
  | .counted => some { s with main := .creating, clientsMu := none }
  | .waitsToUncount =>
      if s.clientsMu = none then some { s with main := .uncounting, clientsMu := some .main }
      else none
  | .uncounting => some { s with main := .uncountBroadcast, clients := s.clients - 1 }
  | .uncountBroadcast => some { broadcast s with main := .uncounted }
  | .uncounted => some { s with main := .loop, clientsMu := none }
  | .testsListen => some { s with main := if s.listenFd then .closesListen else .waitsToDrain }
  | .closesListen => some { s with main := .clearsListen, closed := s.closed + 1 }
  | .clearsListen => some { s with main := .waitsToDrain, listenFd := false }
  | .waitsToDrain | .woken =>
      if s.clientsMu = none then some { s with main := .testsClients, clientsMu := some .main }
      else none
  | .testsClients =>
      if 0 < s.clients then some { s with main := .waiting, clientsMu := none }
      else some { s with main := .drained }
  | .drained => some { s with main := .storing, clientsMu := none }
  | .storing => some { s with main := .freeing }
  | .freeing => some { s with main := .destroying }
  | .destroying => some { s with main := .closingEngine }
  | .closingEngine => some { s with main := .returned }
  | .accepting | .creating | .waiting | .returned => none

/-- The thread whose own step the event is. -/
def Event.party : Event → Option Party
  | .signal _ _ | .handler _ => none
  | .accept _ | .create _ | .spurious | .main => some .main
  | .request i _ | .parsed i _ | .client i => some (.client i)

/-- What one event makes of the threads; there is no result where it cannot come. -/
def eventStep (s : State) : Event → Option State
  | .signal p sig => if s.takes p sig then some (deliver s p sig) else none
  | .handler k => s.handlers[k]?.bind fun h =>
      if s.innermost k h then stopSignalHandler s k h else none
  | .accept r => if s.main = .accepting then some { s with main := r.leads } else none
  | .create ok =>
      if s.main = .creating then
        some (if ok then { s with main := .loop, threads := s.threads ++ [.reading] }
          else { s with main := .waitsToUncount })
      else none
  | .spurious => if s.main = .waiting then some { s with main := .woken } else none
  | .main => mainStep s s.main
  | .request i generation =>
      if s.threads[i]? = some .reading then
        some (s.goto i (if generation then .waitsForGen else .answering))
      else none
  | .parsed i ok =>
      if s.threads[i]? = some .parsing then
        some (s.goto i (if ok then .checksAgain else .leavesGen))
      else none
  | .client i => s.threads[i]?.bind (clientStep s i)

/-- A thread takes no step while a handler stands on it, and none behind `_exit`. -/
def advance (s : State) (e : Event) : Option State :=
  if s.killed || e.party.any s.interrupted then none else eventStep s e

/-- The state behind an event that can come. -/
def next (s : State) (e : Event) : State := (advance s e).getD s

/-- The event can come. -/
def Enabled (s : State) (e : Event) : Prop := (advance s e).isSome = true

instance (s : State) (e : Event) : Decidable (Enabled s e) := inferInstanceAs (Decidable (_ = _))

/-- The state in which the server begins to listen. -/
def Listening (s : State) : Prop := s = {}

/-! ## The parts of the code -/

/-- The part under `gen_mu`. -/
def ClientAt.inGen : ClientAt → Bool
  | .checksStop | .parsing | .checksAgain | .enters | .generating | .leavesGen => true
  | _ => false

/-- The part under `clients_mu`. -/
def ClientAt.inClients : ClientAt → Bool
  | .counting | .broadcasting | .leavesClients => true
  | _ => false

/-- The thread is one of `clients`. -/
def ClientAt.counted : ClientAt → Bool
  | .broadcasting | .leavesClients | .finished => false
  | _ => true

/-- How far the thread is from its end. -/
def ClientAt.rank : ClientAt → Nat
  | .reading => 15
  | .waitsForGen => 14
  | .checksStop => 13
  | .parsing => 12
  | .checksAgain => 11
  | .enters => 10
  | .generating => 9
  | .leavesGen => 8
  | .answering => 7
  | .waitsForClients => 6
  | .counting => 5
  | .broadcasting => 4
  | .leavesClients => 1
  | .finished => 0

/-- The part of `main` under `clients_mu`. -/
def MainAt.inClients : MainAt → Bool
  | .counting | .counted | .uncounting | .uncountBroadcast | .uncounted | .testsClients
  | .drained => true
  | _ => false

/-- What `main` has counted for a thread that it has not made yet. -/
def MainAt.counts : MainAt → Int
  | .counted | .creating | .waitsToUncount | .uncounting => 1
  | _ => 0

/-- The part of `main` behind the drain. -/
def MainAt.behindDrain : MainAt → Bool
  | .drained | .storing | .freeing | .destroying | .closingEngine | .returned => true
  | _ => false

def InGen (s : State) : Party → Prop
  | .main => False
  | .client i => Stands (·.inGen = true) s.threads i

def InClients (s : State) : Party → Prop
  | .main => s.main.inClients = true
  | .client i => Stands (·.inClients = true) s.threads i

/-- What holds whatever the order of the steps was. -/
structure Inv (s : State) : Prop where
  gen : Owns s.genMu (InGen s)
  mutex : Owns s.clientsMu (InClients s)
  count : s.clients = s.threads.countP ClientAt.counted + s.main.counts
  waits : s.main = .waiting → 0 < s.clients ∨ .broadcasting ∈ s.threads
  drained : s.main.behindDrain = true → ∀ a ∈ s.threads, a = .finished

/-! ## What a step of a client thread can do -/

/-- The steps of a client thread, from where it stands. -/
inductive ClientMove (s : State) (i : Nat) : ClientAt → State → Prop where
  /-- The thread goes on, and nothing that is shared changes. -/
  | goesOn {a b : ClientAt} (hgen : b.inGen = a.inGen) (hclients : b.inClients = a.inClients)
      (ha : a.counted = true) (hb : b.counted = true)
      (hrank : b.rank < a.rank) (hstop : b = .enters → s.stopRequested = false)
      (henters : b = .generating → a = .enters) :
      ClientMove s i a (s.goto i b)
  | takesGen (hfree : s.genMu = none) :
      ClientMove s i .waitsForGen { s.goto i .checksStop with genMu := some (.client i) }
  | leavesGen : ClientMove s i .leavesGen { s.goto i .answering with genMu := none }
  | takesClients (hfree : s.clientsMu = none) :
      ClientMove s i .waitsForClients { s.goto i .counting with clientsMu := some (.client i) }
  | counts : ClientMove s i .counting { s.goto i .broadcasting with
      clients := if 0 < s.clients then s.clients - 1 else s.clients }
  | broadcasts : ClientMove s i .broadcasting (broadcast (s.goto i .leavesClients))
  | leavesClients : ClientMove s i .leavesClients { s.goto i .finished with clientsMu := none }

theorem clientStep_move {s s' : State} {i : Nat} {a : ClientAt} (h : clientStep s i a = some s') :
    ClientMove s i a s' := by
  cases a with
  | reading => cases h
  | parsing => cases h
  | finished => cases h
  | waitsForGen =>
    rw [clientStep] at h
    split at h
    · rename_i hfree
      cases h
      exact .takesGen hfree
    · cases h
  | checksStop =>
    cases h
    cases hstop : s.stopRequested with
    | true => exact .goesOn rfl rfl rfl rfl (by decide) (by simp) (by simp)
    | false => exact .goesOn rfl rfl rfl rfl (by decide) (by simp) (by simp)
  | checksAgain =>
    cases h
    cases hstop : s.stopRequested with
    | true => exact .goesOn rfl rfl rfl rfl (by decide) (by simp) (by simp)
    | false => exact .goesOn rfl rfl rfl rfl (by decide) (fun _ => hstop) (by simp)
  | enters =>
    cases h
    exact .goesOn rfl rfl rfl rfl (by decide) (by simp) fun _ => rfl
  | generating =>
    cases h
    exact .goesOn rfl rfl rfl rfl (by decide) (by simp) (by simp)
  | leavesGen =>
    cases h
    exact .leavesGen
  | answering =>
    cases h
    exact .goesOn rfl rfl rfl rfl (by decide) (by simp) (by simp)
  | waitsForClients =>
    rw [clientStep] at h
    split at h
    · rename_i hfree
      cases h
      exact .takesClients hfree
    · cases h
  | counting =>
    cases h
    exact .counts
  | broadcasting =>
    cases h
    exact .broadcasts
  | leavesClients =>
    cases h
    exact .leavesClients

/-! ## What a step of `main` can do -/

/-- The ways of `main` on which nothing that is shared changes. -/
inductive MainAt.Goes (stop : Bool) : MainAt → MainAt → Prop where
  | loop : Goes stop .loop (if stop then .testsListen else .calling)
  | acceptFailed (interrupted : Bool) : Goes stop (.acceptFailed interrupted)
      (if stop then .testsListen else if interrupted then .loop else .testsListen)
  | accepted : Goes stop .accepted (if stop then .testsListen else .waitsToCount)
  | storing : Goes stop .storing .freeing
  | freeing : Goes stop .freeing .destroying
  | destroying : Goes stop .destroying .closingEngine
  | closingEngine : Goes stop .closingEngine .returned

/-- The ways of `main` into the part under `clients_mu`. -/
inductive MainAt.Takes : MainAt → MainAt → Prop where
  | count : Takes .waitsToCount .counting
  | uncount : Takes .waitsToUncount .uncounting
  | drain : Takes .waitsToDrain .testsClients
  | woken : Takes .woken .testsClients

/-- The ways of `main` out of it. -/
inductive MainAt.Gives : MainAt → MainAt → Prop where
  | counted : Gives .counted .creating
  | uncounted : Gives .uncounted .loop
  | drained : Gives .drained .storing

/-- The steps of `main`. -/
inductive MainStep (s : State) : State → Prop where
  | goes {m m' : MainAt} (hat : s.main = m) (hgo : m.Goes s.stopRequested m') :
      MainStep s { s with main := m' }
  | takes {m m' : MainAt} (hat : s.main = m) (hgo : m.Takes m') (hfree : s.clientsMu = none) :
      MainStep s { s with main := m', clientsMu := some .main }
  | gives {m m' : MainAt} (hat : s.main = m) (hgo : m.Gives m') :
      MainStep s { s with main := m', clientsMu := none }
  | calls (hat : s.main = .calling) :
      MainStep s { s with main := if s.closed = 0 then .accepting else .acceptFailed false }
  | counts (hat : s.main = .counting) :
      MainStep s { s with main := .counted, clients := s.clients + 1 }
  | uncounts (hat : s.main = .uncounting) :
      MainStep s { s with main := .uncountBroadcast, clients := s.clients - 1 }
  | broadcasts (hat : s.main = .uncountBroadcast) : MainStep s { s with main := .uncounted }
  | testsListen (hat : s.main = .testsListen) :
      MainStep s { s with main := if s.listenFd then .closesListen else .waitsToDrain }
  | closesListen (hat : s.main = .closesListen) :
      MainStep s { s with main := .clearsListen, closed := s.closed + 1 }
  | clearsListen (hat : s.main = .clearsListen) :
      MainStep s { s with main := .waitsToDrain, listenFd := false }
  | sleeps (hat : s.main = .testsClients) (hpos : 0 < s.clients) :
      MainStep s { s with main := .waiting, clientsMu := none }
  | passes (hat : s.main = .testsClients) (hzero : ¬ 0 < s.clients) :
      MainStep s { s with main := .drained }

/-- A step that waits for `clients_mu`. -/
theorem MainStep.locks {s s' : State} {m m' : MainAt} (hat : s.main = m) (hgo : m.Takes m')
    (h : (if s.clientsMu = none then some { s with main := m', clientsMu := some .main }
      else none) = some s') : MainStep s s' := by
  split at h
  · rename_i hfree
    cases h
    exact .takes hat hgo hfree
  · cases h

theorem mainStep_takes {s s' : State} (h : mainStep s s.main = some s') : MainStep s s' := by
  cases hat : s.main <;> rw [hat] at h
  case accepting => cases h
  case creating => cases h
  case waiting => cases h
  case returned => cases h
  case loop => cases h; exact .goes hat .loop
  case acceptFailed interrupted => cases h; exact .goes hat (.acceptFailed interrupted)
  case accepted => cases h; exact .goes hat .accepted
  case storing => cases h; exact .goes hat .storing
  case freeing => cases h; exact .goes hat .freeing
  case destroying => cases h; exact .goes hat .destroying
  case closingEngine => cases h; exact .goes hat .closingEngine
  case waitsToCount => exact .locks hat .count h
  case waitsToUncount => exact .locks hat .uncount h
  case waitsToDrain => exact .locks hat .drain h
  case woken => exact .locks hat .woken h
  case counted => cases h; exact .gives hat .counted
  case uncounted => cases h; exact .gives hat .uncounted
  case drained => cases h; exact .gives hat .drained
  case calling => cases h; exact .calls hat
  case counting => cases h; exact .counts hat
  case uncounting => cases h; exact .uncounts hat
  case uncountBroadcast => cases h; exact .broadcasts hat
  case testsListen => cases h; exact .testsListen hat
  case closesListen => cases h; exact .closesListen hat
  case clearsListen => cases h; exact .clearsListen hat
  case testsClients =>
    rw [mainStep] at h
    split at h
    · rename_i hpos
      cases h
      exact .sleeps hat hpos
    · rename_i hzero
      cases h
      exact .passes hat hzero

/-! ## What an event can do -/

inductive Advance (s : State) : Event → State → Prop where
  | signal {p : Party} {sig : StopSignal} (htakes : s.takes p sig = true) :
      Advance s (.signal p sig) (deliver s p sig)
  | handler {k : Nat} {h : Handler} {s' : State} (hat : s.handlers[k]? = some h)
      (hstep : stopSignalHandler s k h = some s') : Advance s (.handler k) s'
  | accept {r : Accepted} (hat : s.main = .accepting) :
      Advance s (.accept r) { s with main := r.leads }
  | create (hat : s.main = .creating) : Advance s (.create true)
      { s with main := .loop, threads := s.threads ++ [.reading] }
  | createFails (hat : s.main = .creating) :
      Advance s (.create false) { s with main := .waitsToUncount }
  | spurious (hat : s.main = .waiting) : Advance s .spurious { s with main := .woken }
  | main {s' : State} (hfree : s.interrupted .main = false) (hstep : MainStep s s') :
      Advance s .main s'
  | client {e : Event} {i : Nat} {a : ClientAt} {s' : State} (he : e.party = some (.client i))
      (hat : s.threads[i]? = some a) (hmove : ClientMove s i a s') : Advance s e s'

theorem advance_can {s s' : State} {e : Event} (h : advance s e = some s') : Advance s e s' := by
  rw [advance] at h
  split at h
  · cases h
  rename_i hrun
  cases e with
  | signal p sig =>
    rw [eventStep] at h
    split at h
    · rename_i htakes
      cases h
      exact .signal htakes
    · cases h
  | handler k =>
    rw [eventStep, Option.bind_eq_some_iff] at h
    obtain ⟨a, hat, hstep⟩ := h
    split at hstep
    · exact .handler hat hstep
    · cases hstep
  | accept r =>
    rw [eventStep] at h
    split at h
    · rename_i hat
      cases h
      exact .accept hat
    · cases h
  | create ok =>
    rw [eventStep] at h
    split at h
    · rename_i hat
      cases h
      cases ok with
      | true => exact .create hat
      | false => exact .createFails hat
    · cases h
  | spurious =>
    rw [eventStep] at h
    split at h
    · rename_i hat
      cases h
      exact .spurious hat
    · cases h
  | main =>
    refine .main ?_ (mainStep_takes h)
    rw [Bool.or_eq_true, not_or] at hrun
    exact (Bool.not_eq_true _).mp hrun.2
  | request i generation =>
    rw [eventStep] at h
    split at h
    · rename_i hat
      cases h
      refine .client rfl hat ?_
      cases generation <;> exact .goesOn rfl rfl rfl rfl (by decide) (by simp) (by simp)
    · cases h
  | parsed i ok =>
    rw [eventStep] at h
    split at h
    · rename_i hat
      cases h
      refine .client rfl hat ?_
      cases ok <;> exact .goesOn rfl rfl rfl rfl (by decide) (by simp) (by simp)
    · cases h
  | client i =>
    rw [eventStep, Option.bind_eq_some_iff] at h
    obtain ⟨a, hat, hstep⟩ := h
    exact .client rfl hat (clientStep_move hstep)

/-! ## The invariant -/

section Threads

variable {s : State} {i : Nat} {a b : ClientAt}

theorem inGen_at (hat : s.threads[i]? = some a) : InGen s (.client i) ↔ a.inGen = true :=
  stands_at hat

theorem inClients_at (hat : s.threads[i]? = some a) :
    InClients s (.client i) ↔ a.inClients = true :=
  stands_at hat

theorem goto_at (hat : s.threads[i]? = some a) : (s.goto i b).threads[i]? = some b := set_at hat

theorem inGen_other (q : Party) (hq : q ≠ .client i) : InGen (s.goto i b) q ↔ InGen s q := by
  cases q with
  | main => exact Iff.rfl
  | client j => exact stands_set_other (by simpa using hq)

theorem inClients_other (q : Party) (hq : q ≠ .client i) :
    InClients (s.goto i b) q ↔ InClients s q := by
  cases q with
  | main => exact Iff.rfl
  | client j => exact stands_set_other (by simpa using hq)

theorem inGen_same (hat : s.threads[i]? = some a) (hsame : b.inGen = a.inGen) (q : Party) :
    InGen (s.goto i b) q ↔ InGen s q := by
  cases q with
  | main => exact Iff.rfl
  | client j => exact stands_set_same hat (by rw [hsame]) j

theorem inClients_same (hat : s.threads[i]? = some a) (hsame : b.inClients = a.inClients)
    (q : Party) : InClients (s.goto i b) q ↔ InClients s q := by
  cases q with
  | main => exact Iff.rfl
  | client j => exact stands_set_same hat (by rw [hsame]) j

theorem countP_goto (hat : s.threads[i]? = some a) :
    (s.goto i b).threads.countP ClientAt.counted + a.counted.toNat =
      s.threads.countP ClientAt.counted + b.counted.toNat :=
  countP_set ClientAt.counted hat

/-- Another thread that stands somewhere still stands there. -/
theorem mem_goto {c : ClientAt} (hat : s.threads[i]? = some a) (hc : c ≠ a)
    (hmem : c ∈ s.threads) : c ∈ (s.goto i b).threads := by
  obtain ⟨j, hj⟩ := List.mem_iff_getElem?.mp hmem
  have hne : i ≠ j := by
    rintro rfl
    exact hc (Option.some.inj (hj.symm.trans hat))
  exact List.mem_iff_getElem?.mpr ⟨j, by rw [State.goto, List.getElem?_set_ne hne, hj]⟩

theorem counts_nonneg (m : MainAt) : 0 ≤ m.counts := by
  cases m <;> simp [MainAt.counts]

theorem count_goto (h : Inv s) (hat : s.threads[i]? = some a) (hcounted : b.counted = a.counted) :
    s.clients = (s.goto i b).threads.countP ClientAt.counted + s.main.counts := by
  have hcount := @countP_goto s i a b hat
  rw [hcounted] at hcount
  rw [h.count]
  omega

/-- The guard of `server_client_done` does not stop any thread. -/
theorem clients_pos (h : Inv s) (hat : s.threads[i]? = some a) (ha : a.counted = true) :
    0 < s.clients := by
  have hpos : 0 < s.threads.countP ClientAt.counted :=
    List.countP_pos_iff.mpr ⟨a, List.mem_of_getElem? hat, ha⟩
  have hcounts := counts_nonneg s.main
  rw [h.count]
  omega

/-- A step of a client thread keeps all of it. -/
theorem inv_client {s' : State} (h : Inv s) (hat : s.threads[i]? = some a)
    (hmove : ClientMove s i a s') : Inv s' := by
  have hlive : s.main.behindDrain = true → a = .finished := fun hm =>
    h.drained hm a (List.mem_of_getElem? hat)
  have hwaits : ∀ b, a ≠ .broadcasting → s.main = .waiting →
      0 < s.clients ∨ .broadcasting ∈ (s.goto i b).threads := fun b ha hm =>
    (h.waits hm).imp_right (mem_goto hat (Ne.symm ha))
  cases hmove with
  | @goesOn _ b hgen hclients ha hb hrank hstop henters =>
    refine ⟨h.gen.keep (inGen_same hat hgen), h.mutex.keep (inClients_same hat hclients), ?_,
      hwaits b ?_, fun hm => ?_⟩
    · exact count_goto h hat (hb.trans ha.symm)
    · rintro rfl
      cases ha
    · rw [hlive hm] at ha
      cases ha
  | takesGen hfree =>
    have hown := h.gen
    rw [hfree] at hown
    refine ⟨hown.take ?_ (@inGen_other s i .checksStop), h.mutex.keep (inClients_same hat rfl), ?_,
      hwaits _ (by simp), fun hm => by cases hlive hm⟩
    · exact (inGen_at (goto_at hat)).mpr rfl
    · exact count_goto h hat rfl
  | leavesGen =>
    refine ⟨h.gen.release ((inGen_at hat).mpr rfl) ?_ (@inGen_other s i .answering),
      h.mutex.keep (inClients_same hat rfl), ?_, hwaits _ (by simp), fun hm => by cases hlive hm⟩
    · exact fun hin => absurd ((inGen_at (goto_at hat)).mp hin) (by decide)
    · exact count_goto h hat rfl
  | takesClients hfree =>
    have hown := h.mutex
    rw [hfree] at hown
    refine ⟨h.gen.keep (inGen_same hat rfl), hown.take ?_ (@inClients_other s i .counting), ?_,
      hwaits _ (by simp), fun hm => by cases hlive hm⟩
    · exact (inClients_at (goto_at hat)).mpr rfl
    · exact count_goto h hat rfl
  | counts =>
    refine ⟨h.gen.keep (inGen_same hat rfl), h.mutex.keep (inClients_same hat rfl), ?_,
      fun hm => ?_, fun hm => by cases hlive hm⟩
    · have hcount := @countP_goto s i _ .broadcasting hat
      have hpos := clients_pos h hat rfl
      have hold := h.count
      simp only [ClientAt.counted, Bool.toNat_true, Bool.toNat_false] at hcount
      simp only [if_pos hpos]
      have hmain : ({ s.goto i .broadcasting with clients := s.clients - 1 } : State).main =
        s.main := rfl
      rw [hmain]
      omega
    · right
      have hlt : i < s.threads.length := (List.getElem?_eq_some_iff.mp hat).1
      exact List.mem_set hlt _
  | broadcasts =>
    have hmain : (broadcast (s.goto i .leavesClients)).main.inClients = s.main.inClients ∧
        (broadcast (s.goto i .leavesClients)).main.counts = s.main.counts ∧
        (broadcast (s.goto i .leavesClients)).main ≠ .waiting ∧
        ((broadcast (s.goto i .leavesClients)).main.behindDrain = true →
          s.main.behindDrain = true) := by
      have hgoto : (s.goto i .leavesClients).main = s.main := rfl
      rw [broadcast, hgoto]
      split
      · rename_i hwaiting
        simp [hwaiting, MainAt.inClients, MainAt.counts, MainAt.behindDrain]
      · rename_i hwaiting
        exact ⟨rfl, rfl, hwaiting, id⟩
    obtain ⟨hclients, hcounts, hwaiting, hbehind⟩ := hmain
    refine ⟨h.gen.keep (inGen_same hat rfl), h.mutex.keep fun q => ?_, ?_,
      fun hm => absurd hm hwaiting, fun hm => by cases hlive (hbehind hm)⟩
    · cases q with
      | main => exact iff_of_eq (congrArg (· = true) hclients)
      | client j => exact @inClients_same s i _ .leavesClients hat rfl (.client j)
    · rw [hcounts]
      exact count_goto h hat rfl
  | leavesClients =>
    refine ⟨h.gen.keep (inGen_same hat rfl),
      h.mutex.release ((inClients_at hat).mpr rfl) ?_ (@inClients_other s i .finished), ?_,
      hwaits _ (by simp), fun hm => by cases hlive hm⟩
    · exact fun hin => absurd ((inClients_at (goto_at hat)).mp hin) (by decide)
    · exact count_goto h hat rfl

end Threads

/-! ## The steps of `main` and of the handlers -/

/-- What a step that is not one of a client thread does to the threads. -/
inductive MainMove (s : State) : State → Prop where
  | goesOn {s' : State} (hthreads : s'.threads = s.threads) (hgen : s'.genMu = s.genMu)
      (hmutex : s'.clientsMu = s.clientsMu) (hclients : s'.clients = s.clients)
      (hin : s'.main.inClients = s.main.inClients) (hcounts : s'.main.counts = s.main.counts)
      (hwaits : s'.main = .waiting → s.main = .waiting)
      (hdrain : s'.main.behindDrain = true → s.main.behindDrain = true) : MainMove s s'
  | takes {m : MainAt} (hfree : s.clientsMu = none) (hin : m.inClients = true)
      (hcounts : m.counts = s.main.counts) (hwaits : m ≠ .waiting)
      (hdrain : m.behindDrain = false) : MainMove s { s with main := m, clientsMu := some .main }
  | gives {m : MainAt} (hin : s.main.inClients = true) (hout : m.inClients = false)
      (hcounts : m.counts = s.main.counts) (hwaits : m ≠ .waiting)
      (hdrain : m.behindDrain = true → s.main.behindDrain = true) :
      MainMove s { s with main := m, clientsMu := none }
  | counts (hat : s.main = .counting) :
      MainMove s { s with main := .counted, clients := s.clients + 1 }
  | makes (hat : s.main = .creating) :
      MainMove s { s with main := .loop, threads := s.threads ++ [.reading] }
  | uncounts (hat : s.main = .uncounting) :
      MainMove s { s with main := .uncountBroadcast, clients := s.clients - 1 }
  | sleeps (hat : s.main = .testsClients) (hpos : 0 < s.clients) :
      MainMove s { s with main := .waiting, clientsMu := none }
  | passes (hat : s.main = .testsClients) (hzero : ¬ 0 < s.clients) :
      MainMove s { s with main := .drained }

/-- Two places of `main` that differ in nothing that is shared. -/
def Plain (m m' : MainAt) : Prop :=
  m'.inClients = m.inClients ∧ m'.counts = m.counts ∧ m' ≠ .waiting ∧
    (m'.behindDrain = true → m.behindDrain = true)

instance (m m' : MainAt) : Decidable (Plain m m') :=
  inferInstanceAs (Decidable (_ ∧ _ ∧ _ ∧ (_ → _)))

/-- `main` goes from one place to another. -/
theorem MainMove.goes {s s' : State} {m : MainAt} (m' : MainAt) (hat : s.main = m)
    (hat' : s'.main = m') (hthreads : s'.threads = s.threads) (hgen : s'.genMu = s.genMu)
    (hmutex : s'.clientsMu = s.clientsMu) (hclients : s'.clients = s.clients)
    (hplain : Plain m m') : MainMove s s' := by
  subst hat hat'
  obtain ⟨hin, hcounts, hwaits, hdrain⟩ := hplain
  exact .goesOn hthreads hgen hmutex hclients hin hcounts (fun h => absurd h hwaits) hdrain

theorem MainAt.Goes.plain {stop : Bool} {m m' : MainAt} (h : m.Goes stop m') : Plain m m' := by
  cases h with
  | acceptFailed interrupted => cases stop <;> cases interrupted <;> decide
  | _ => cases stop <;> decide

theorem MainStep.move {s s' : State} (h : MainStep s s') : MainMove s s' := by
  cases h with
  | @goes m m' hat hgo => exact .goes m' hat rfl rfl rfl rfl rfl hgo.plain
  | takes hat hgo hfree =>
    cases hgo <;> exact .takes hfree rfl (hat ▸ rfl) (by decide) rfl
  | gives hat hgo =>
    cases hgo <;> exact .gives (hat ▸ rfl) rfl (hat ▸ rfl) (by decide) (hat ▸ by decide)
  | calls hat => exact .goes _ hat rfl rfl rfl rfl rfl (by dsimp only; split <;> decide)
  | counts hat => exact .counts hat
  | uncounts hat => exact .uncounts hat
  | broadcasts hat => exact .goes .uncounted hat rfl rfl rfl rfl rfl (by decide)
  | testsListen hat => exact .goes _ hat rfl rfl rfl rfl rfl (by dsimp only; split <;> decide)
  | closesListen hat => exact .goes .clearsListen hat rfl rfl rfl rfl rfl (by decide)
  | clearsListen hat => exact .goes .waitsToDrain hat rfl rfl rfl rfl rfl (by decide)
  | sleeps hat hpos => exact .sleeps hat hpos
  | passes hat hzero => exact .passes hat hzero

/-- A signal leaves `main` where it is, or takes it out of `accept`. -/
theorem deliver_move (s : State) (p : Party) (sig : StopSignal) : MainMove s (deliver s p sig) := by
  by_cases hmain : p = .main ∧ s.main = .accepting
  · exact .goes (.acceptFailed true) hmain.2 (if_pos hmain) rfl rfl rfl rfl (by decide)
  · have hsame : (deliver s p sig).main = s.main := if_neg hmain
    exact .goesOn rfl rfl rfl rfl (by rw [hsame]) (by rw [hsame]) (by rw [hsame]; exact id)
      (by rw [hsame]; exact id)

/-- What no step of a handler changes. -/
structure Untouched (s s' : State) : Prop where
  main : s'.main = s.main
  threads : s'.threads = s.threads
  genMu : s'.genMu = s.genMu
  clientsMu : s'.clientsMu = s.clientsMu
  clients : s'.clients = s.clients

theorem stopSignalHandler_untouched {s s' : State} {k : Nat} {h : Handler}
    (hstep : stopSignalHandler s k h = some s') : Untouched s s' := by
  cases hplace : h.place <;> rw [stopSignalHandler, hplace] at hstep <;> cases hstep
  case testsStop => split <;> exact ⟨rfl, rfl, rfl, rfl, rfl⟩
  all_goals exact ⟨rfl, rfl, rfl, rfl, rfl⟩

theorem stopSignalHandler_move {s s' : State} {k : Nat} {h : Handler}
    (hstep : stopSignalHandler s k h = some s') : MainMove s s' := by
  obtain ⟨hmain, hthreads, hgen, hmutex, hclients⟩ := stopSignalHandler_untouched hstep
  exact .goesOn hthreads hgen hmutex hclients (by rw [hmain]) (by rw [hmain])
    (by rw [hmain]; exact id) (by rw [hmain]; exact id)

/-- A step is one of a client thread or changes the threads as `main` does. -/
theorem Advance.moves {s s' : State} {e : Event} (h : Advance s e s') :
    (∃ i a, e.party = some (.client i) ∧ s.threads[i]? = some a ∧ ClientMove s i a s') ∨
      (∀ i, e.party ≠ some (.client i)) ∧ MainMove s s' := by
  cases h with
  | signal htakes => exact .inr ⟨by simp [Event.party], deliver_move s _ _⟩
  | handler hat hstep => exact .inr ⟨by simp [Event.party], stopSignalHandler_move hstep⟩
  | @accept r hat =>
    exact .inr ⟨by simp [Event.party],
      .goes r.leads hat rfl rfl rfl rfl rfl (by cases r <;> decide)⟩
  | create hat => exact .inr ⟨by simp [Event.party], .makes hat⟩
  | createFails hat =>
    exact .inr ⟨by simp [Event.party],
      .goes .waitsToUncount hat rfl rfl rfl rfl rfl (by decide)⟩
  | spurious hat =>
    exact .inr ⟨by simp [Event.party], .goes .woken hat rfl rfl rfl rfl rfl (by decide)⟩
  | main hfree hstep => exact .inr ⟨by simp [Event.party], hstep.move⟩
  | client he hat hmove => exact .inl ⟨_, _, he, hat, hmove⟩

section Main

variable {s s' : State}

theorem inGen_congr (h : s'.threads = s.threads) (q : Party) : InGen s' q ↔ InGen s q := by
  cases q with
  | main => exact Iff.rfl
  | client i => rw [InGen, InGen, h]

theorem inClients_congr (h : s'.threads = s.threads) (hin : s'.main.inClients = s.main.inClients)
    (q : Party) : InClients s' q ↔ InClients s q := by
  cases q with
  | main => rw [InClients, InClients, hin]
  | client i => rw [InClients, InClients, h]

theorem inClients_client (h : s'.threads = s.threads) (q : Party) (hq : q ≠ .main) :
    InClients s' q ↔ InClients s q := by
  cases q with
  | main => exact absurd rfl hq
  | client i => rw [InClients, InClients, h]

/-- A new thread stands in no locked part. -/
theorem exists_push {p : ClientAt → Bool} (hp : p .reading = false) (threads : List ClientAt)
    (i : Nat) : (∃ a, (threads ++ [.reading])[i]? = some a ∧ p a = true) ↔
      ∃ a, threads[i]? = some a ∧ p a = true := by
  rcases Nat.lt_trichotomy i threads.length with hlt | rfl | hgt
  · rw [List.getElem?_append_left hlt]
  · simp [hp]
  · rw [List.getElem?_eq_none (by simp; omega), List.getElem?_eq_none (Nat.le_of_lt hgt)]

/-- Behind the drain there is no thread that is not finished. -/
theorem finished_of_passes (h : Inv s) (hat : s.main = .testsClients) (hzero : ¬ 0 < s.clients) :
    ∀ a ∈ s.threads, a = .finished := by
  intro a ha
  obtain ⟨i, hi⟩ := List.mem_iff_getElem?.mp ha
  have hout : a.counted = false := by
    by_contra hcounted
    exact hzero (clients_pos h hi ((Bool.not_eq_false _).mp hcounted))
  have hfree : ¬ a.inClients = true := by
    intro hin
    have hmain : InClients s .main := by
      rw [InClients, hat]
      rfl
    exact absurd (h.mutex.unique hmain ((inClients_at hi).mpr hin)) (by simp)
  cases a <;> simp_all [ClientAt.counted, ClientAt.inClients]

/-- A step of `main` keeps all of it. -/
theorem inv_main (h : Inv s) (hmove : MainMove s s') : Inv s' := by
  cases hmove with
  | goesOn hthreads hgen hmutex hclients hin hcounts hwaits hdrain =>
    refine ⟨?_, ?_, ?_, fun hm => ?_, fun hm => ?_⟩
    · rw [hgen]
      exact h.gen.keep (inGen_congr hthreads)
    · rw [hmutex]
      exact h.mutex.keep (inClients_congr hthreads hin)
    · rw [hclients, hthreads, hcounts]
      exact h.count
    · rw [hclients, hthreads]
      exact h.waits (hwaits hm)
    · rw [hthreads]
      exact h.drained (hdrain hm)
  | takes hfree hin hcounts hwaits hdrain =>
    have hown := h.mutex
    rw [hfree] at hown
    refine ⟨h.gen, hown.take hin (inClients_client rfl), ?_, fun hm => absurd hm hwaits,
      fun hm => absurd hm (by simp [hdrain])⟩
    simp only [hcounts]
    exact h.count
  | gives hin hout hcounts hwaits hdrain =>
    refine ⟨h.gen, h.mutex.release (p := Party.main) hin ?_ (inClients_client rfl), ?_,
      fun hm => absurd hm hwaits, fun hm => h.drained (hdrain hm)⟩
    · simp [InClients, hout]
    · simp only [hcounts]
      exact h.count
  | counts hat =>
    have hcount := h.count
    rw [hat] at hcount
    refine ⟨h.gen, h.mutex.keep (inClients_congr rfl (by rw [hat]; rfl)), ?_,
      fun hm => (by cases hm), fun hm => (by cases hm)⟩
    simp only [hcount, MainAt.counts]
    omega
  | makes hat =>
    have hcount := h.count
    rw [hat] at hcount
    refine ⟨h.gen.keep fun q => ?_, h.mutex.keep fun q => ?_, ?_, fun hm => (by cases hm),
      fun hm => (by cases hm)⟩
    · cases q with
      | main => exact Iff.rfl
      | client i => exact exists_push rfl s.threads i
    · cases q with
      | main => simp [InClients, hat, MainAt.inClients]
      | client i => exact exists_push rfl s.threads i
    · simp only [hcount, MainAt.counts, List.countP_append]
      simp [ClientAt.counted]
  | uncounts hat =>
    have hcount := h.count
    rw [hat] at hcount
    refine ⟨h.gen, h.mutex.keep (inClients_congr rfl (by rw [hat]; rfl)), ?_,
      fun hm => (by cases hm), fun hm => (by cases hm)⟩
    simp only [hcount, MainAt.counts]
    omega
  | sleeps hat hpos =>
    have hcount := h.count
    rw [hat] at hcount
    refine ⟨h.gen, h.mutex.release (p := Party.main) (by rw [InClients, hat]; rfl) ?_
      (inClients_client rfl), hcount, fun _ => .inl hpos, fun hm => (by cases hm)⟩
    simp [InClients, MainAt.inClients]
  | passes hat hzero =>
    have hcount := h.count
    rw [hat] at hcount
    exact ⟨h.gen, h.mutex.keep (inClients_congr rfl (by rw [hat]; rfl)), hcount,
      fun hm => (by cases hm), fun _ a ha => finished_of_passes h hat hzero a ha⟩

end Main

/-! ## Every order of steps -/

/-- What an event that can come leads to. -/
theorem advance_next {s : State} {e : Event} (he : Enabled s e) : Advance s e (next s e) := by
  obtain ⟨s', hs'⟩ := Option.isSome_iff_exists.mp he
  rw [next, hs', Option.getD_some]
  exact advance_can hs'

theorem inv_listening (s : State) (h : Listening s) : Inv s := by
  subst h
  refine ⟨fun q => ?_, fun q => ?_, rfl, fun hm => (by cases hm), fun hm => (by cases hm)⟩
  · cases q <;> simp [InGen, Stands]
  · cases q <;> simp [InClients, Stands, MainAt.inClients]

theorem inv_next (s : State) (e : Event) (h : Inv s) (he : Enabled s e) : Inv (next s e) := by
  obtain ⟨i, a, -, hat, hmove⟩ | ⟨-, hmove⟩ := (advance_next he).moves
  · exact inv_client h hat hmove
  · exact inv_main h hmove

/-- The states that some order of steps leads to. -/
abbrev Reached (s : State) : Prop := Comes next Listening Enabled s

theorem inv_comes {s : State} (h : Reached s) : Inv s := h.invariant inv_listening inv_next

/-- The part of `main` that takes the server down. -/
def MainAt.tearsDown : MainAt → Bool
  | .storing | .freeing | .destroying | .closingEngine | .returned => true
  | _ => false

/-- At most one request is under generation, `clients` is the number of the threads that are not
done, its guard stops none of them, and the server is taken down when all of them have finished and
no mutex is held. -/
theorem shutdown_safe {s : State} (h : Reached s) :
    (∀ (i j : Nat) (a b : ClientAt), s.threads[i]? = some a → a.inGen = true →
        s.threads[j]? = some b → b.inGen = true → i = j) ∧
      s.clients = s.threads.countP ClientAt.counted + s.main.counts ∧
      (∀ i : Nat, s.threads[i]? = some .counting → 0 < s.clients) ∧
      (s.main.tearsDown = true → (∀ a ∈ s.threads, a = .finished) ∧ s.clients = 0 ∧
        s.genMu = none ∧ s.clientsMu = none) := by
  have hinv := inv_comes h
  refine ⟨fun i j a b hi ha hj hb => ?_, hinv.count, fun i hi => clients_pos hinv hi rfl,
    fun hdown => ?_⟩
  · have hsame := hinv.gen.unique ((inGen_at hi).mpr ha) ((inGen_at hj).mpr hb)
    exact Party.client.inj hsame
  · have hbehind : s.main.behindDrain = true ∧ s.main.counts = 0 ∧ s.main.inClients = false := by
      cases hm : s.main <;> simp_all [MainAt.tearsDown, MainAt.behindDrain, MainAt.counts,
        MainAt.inClients]
    obtain ⟨hdrain, hcounts, hmain⟩ := hbehind
    have hdone := hinv.drained hdrain
    have hthread : ∀ (i : Nat) (a : ClientAt), s.threads[i]? = some a → a = .finished :=
      fun i a hi => hdone a (List.mem_of_getElem? hi)
    refine ⟨hdone, ?_, hinv.gen.free fun q hq => ?_, hinv.mutex.free fun q hq => ?_⟩
    · have hnone : s.threads.countP ClientAt.counted = 0 :=
        List.countP_eq_zero.mpr fun a ha => by rw [hdone a ha]; decide
      rw [hinv.count, hnone, hcounts]
      rfl
    · cases q with
      | main => exact hq
      | client i =>
        obtain ⟨a, hi, ha⟩ := hq
        rw [hthread i a hi] at ha
        cases ha
    · cases q with
      | main =>
        rw [InClients, hmain] at hq
        cases hq
      | client i =>
        obtain ⟨a, hi, ha⟩ := hq
        rw [hthread i a hi] at ha
        cases ha

/-- One request under generation when the signal comes to its own thread, and `accept` then takes
another connection: `main` waits for the thread. -/
def drainedRun : List Event :=
  [.main, .main, .accept .connection, .main, .main, .main, .main, .create true, .main, .main,
    .request 0 true, .client 0, .client 0, .parsed 0 true, .client 0, .client 0,
    .signal (.client 0) .interrupt, .handler 0, .handler 0, .handler 0, .handler 0, .handler 0,
    .accept .connection, .main, .handler 0, .main, .main, .main, .client 0, .client 0, .client 0,
    .client 0, .client 0, .client 0, .client 0, .main, .main, .main]

theorem shutdown_safe_drained :
    (drainedRun.foldl next {}).clients = 0 ∧ (drainedRun.foldl next {}).genMu = none := by
  have hrun : Guarded next Enabled {} drainedRun := by
    simp only [drainedRun, Guarded]
    decide
  have hdown := (shutdown_safe (comes_run drainedRun (.start rfl) hrun)).2.2.2 (by decide)
  exact ⟨hdown.2.1, hdown.2.2.1⟩

/-! ## After the stop -/

/-- The thread is in `run_generation`, or has passed every test before it. -/
def ClientAt.pastChecks : ClientAt → Bool
  | .enters | .generating => true
  | _ => false

/-- The event takes a thread into `run_generation`. -/
def begins (s : State) : Event → Bool
  | .client i => s.threads[i]? = some .enters
  | _ => false

/-- How often a run goes into `run_generation`. -/
def generationsBegun : State → List Event → Nat
  | _, [] => 0
  | s, e :: es => (begins s e).toNat + generationsBegun (next s e) es

theorem begins_client {s : State} {e : Event} {i : Nat} {a : ClientAt}
    (he : e.party = some (.client i)) (hat : s.threads[i]? = some a) :
    (begins s e).toNat ≤ (decide (a = .enters)).toNat := by
  cases e with
  | client j =>
    cases he
    simp [begins, hat]
  | _ => exact Nat.zero_le _

theorem begins_other {s : State} {e : Event} (he : ∀ i, e.party ≠ some (.client i)) :
    begins s e = false := by
  cases e with
  | client i => exact absurd rfl (he i)
  | _ => rfl

theorem stopSignalHandler_stays {s s' : State} {k : Nat} {h : Handler}
    (hstep : stopSignalHandler s k h = some s') (hstop : s.stopRequested = true) :
    s'.stopRequested = true := by
  cases hplace : h.place <;> rw [stopSignalHandler, hplace] at hstep <;> cases hstep
  case testsStop => split <;> exact hstop
  case setsStop => rfl
  all_goals exact hstop

/-- Nothing takes the flag back. -/
theorem Advance.stop_stays {s s' : State} {e : Event} (h : Advance s e s')
    (hstop : s.stopRequested = true) : s'.stopRequested = true := by
  cases h with
  | handler hat hstep => exact stopSignalHandler_stays hstep hstop
  | main hfree hstep => cases hstep <;> exact hstop
  | client he hat hmove => cases hmove <;> exact hstop
  | _ => exact hstop

/-- A thread that a client thread's step leaves past the tests was past them. -/
theorem ClientMove.pastChecks {s s' : State} {i : Nat} {a : ClientAt} (hmove : ClientMove s i a s')
    (hstop : s.stopRequested = true) :
    ∃ b, s'.threads = s.threads.set i b ∧ b ≠ .enters ∧ (b.pastChecks = true → a = .enters) := by
  cases hmove with
  | @goesOn _ b hgen hclients ha hb hrank henters hgenerating =>
    have hb : b ≠ .enters := by
      intro hb
      rw [henters hb] at hstop
      cases hstop
    refine ⟨b, rfl, hb, fun hpast => ?_⟩
    cases b <;> first | exact hgenerating rfl | exact absurd rfl hb | cases hpast
  | takesGen hfree => exact ⟨.checksStop, rfl, by simp, by simp [ClientAt.pastChecks]⟩
  | leavesGen => exact ⟨.answering, rfl, by simp, by simp [ClientAt.pastChecks]⟩
  | takesClients hfree => exact ⟨.counting, rfl, by simp, by simp [ClientAt.pastChecks]⟩
  | counts => exact ⟨.broadcasting, rfl, by simp, by simp [ClientAt.pastChecks]⟩
  | broadcasts => exact ⟨.leavesClients, rfl, by simp, by simp [ClientAt.pastChecks]⟩
  | leavesClients => exact ⟨.finished, rfl, by simp, by simp [ClientAt.pastChecks]⟩

theorem MainMove.threads {s s' : State} (h : MainMove s s') :
    s'.threads = s.threads ∨ s'.threads = s.threads ++ [.reading] := by
  cases h with
  | goesOn hthreads => exact .inl hthreads
  | makes hat => exact .inr rfl
  | _ => exact .inl rfl

/-- Once the flag is set no step takes a thread past the tests, and one into `run_generation` leaves
one thread fewer before it. -/
theorem stopped_step {s s' : State} {e : Event} (h : Advance s e s')
    (hstop : s.stopRequested = true) :
    (begins s e).toNat + s'.threads.countP (· = .enters) ≤ s.threads.countP (· = .enters) ∧
      ∀ i, Stands (·.pastChecks = true) s'.threads i →
        Stands (·.pastChecks = true) s.threads i := by
  obtain ⟨i, a, he, hat, hmove⟩ | ⟨he, hmove⟩ := h.moves
  · obtain ⟨b, hthreads, hb, hpast⟩ := hmove.pastChecks hstop
    rw [hthreads]
    constructor
    · have hbegins := begins_client he hat
      have hcount := countP_set (b := b) (fun c => decide (c = .enters)) hat
      rw [decide_eq_false hb, Bool.toNat_false] at hcount
      omega
    · intro j hj
      by_cases hji : j = i
      · subst hji
        have hold : a = .enters := hpast ((stands_at (set_at hat)).mp hj)
        exact (stands_at hat).mpr (by rw [hold]; rfl)
      · exact (stands_set_other hji).mp hj
  · rw [begins_other he]
    obtain hthreads | hthreads := hmove.threads
    · rw [hthreads]
      exact ⟨by simp, fun i hi => hi⟩
    · rw [hthreads]
      refine ⟨by simp [List.countP_append], fun i hi => ?_⟩
      exact (exists_push (p := ClientAt.pastChecks) rfl s.threads i).mp hi

theorem stopped_run {es : List Event} {s : State} (hstop : s.stopRequested = true)
    (hrun : Guarded next Enabled s es) :
    generationsBegun s es ≤ s.threads.countP (· = .enters) ∧
      ∀ i, Stands (·.pastChecks = true) (es.foldl next s).threads i →
        Stands (·.pastChecks = true) s.threads i := by
  induction es generalizing s with
  | nil => exact ⟨Nat.zero_le _, fun i hi => hi⟩
  | cons e es ih =>
    have hadvance := advance_next hrun.1
    obtain ⟨hstep, hout⟩ := stopped_step hadvance hstop
    obtain ⟨hrest, hlater⟩ := ih (hadvance.stop_stays hstop) hrun.2
    refine ⟨?_, fun i hi => hout i (hlater i hi)⟩
    rw [generationsBegun]
    omega

/-- `gen_mu` lets one thread stand before `run_generation`. -/
theorem enters_le_one {s : State} (h : Inv s) : s.threads.countP (· = .enters) ≤ 1 := by
  have hgen : ∀ i, Stands (fun a => decide (a = ClientAt.enters) = true) s.threads i →
      InGen s (.client i) := by
    rintro i ⟨a, hat, ha⟩
    rw [of_decide_eq_true ha] at hat
    exact (inGen_at hat).mpr rfl
  exact countP_le_one fun i j hi hj => Party.client.inj (h.gen.unique (hgen i hi) (hgen j hj))

/-- Once the flag is set at most one more generation begins, in any order of steps, and only a
thread that had passed both tests is ever in one. -/
theorem stopped_generates {s : State} (h : Reached s) (hstop : s.stopRequested = true)
    {es : List Event} (hrun : Guarded next Enabled s es) :
    generationsBegun s es ≤ 1 ∧
      ∀ i : Nat, (es.foldl next s).threads[i]? = some .generating →
        Stands (·.pastChecks = true) s.threads i := by
  obtain ⟨hbegun, hout⟩ := stopped_run hstop hrun
  exact ⟨hbegun.trans (enters_le_one (inv_comes h)), fun i hi => hout i ⟨_, hi, rfl⟩⟩

/-- The signal comes when the thread has passed its second test: it begins its generation. -/
def passedRun : List Event :=
  [.main, .main, .accept .connection, .main, .main, .main, .main, .create true,
    .request 0 true, .client 0, .client 0, .parsed 0 true, .client 0,
    .signal .main .terminate, .handler 0, .handler 0]

theorem stopped_generates_passed :
    generationsBegun (passedRun.foldl next {}) [.client 0, .handler 0, .client 0] = 1 ∧
      generationsBegun (passedRun.foldl next {}) [.client 0, .handler 0, .client 0] ≤ 1 := by
  have hrun : Guarded next Enabled {} (passedRun ++ [.client 0, .handler 0, .client 0]) := by
    simp only [passedRun, List.cons_append, List.nil_append, Guarded]
    decide
  obtain ⟨hbefore, hbehind⟩ := guarded_append.mp hrun
  have hreached : Reached (passedRun.foldl next {}) := comes_run passedRun (.start rfl) hbefore
  exact ⟨by decide, (stopped_generates hreached (by decide) hbehind).1⟩

end Sf37.Server.Shutdown
