/-
Sf37.Server.ShutdownListen — who closes the listening socket, and how often.

`main` and every handler read `g_listen_fd`, and who finds it set closes the socket. They do not
lock it: two that read it before either has reset it both close.

* `ListenInv`: what `g_listen_fd`, the calls of `close` and the places say of each other.
* `taken_step`: a step is a reader's when it finds the socket.
* `listen_closed`: the calls of `close` in a whole run.
-/
import Sf37.Server.Shutdown

namespace Sf37.Server.Shutdown

open Sf37.Run

/-! ## Who has the socket -/

/-- What `main` has done with the listening socket. -/
inductive ListenAt where
  | keeps
  /-- between `if (g_listen_fd >= 0)` and `close(lfd)` -/
  | closes
  /-- between `close(lfd)` and `g_listen_fd = -1` -/
  | clears
  | leaves
  deriving DecidableEq

def MainAt.listenAt : MainAt → ListenAt
  | .closesListen => .closes
  | .clearsListen => .clears
  | .waitsToDrain | .testsClients | .waiting | .woken | .drained | .storing | .freeing
  | .destroying | .closingEngine | .returned => .leaves
  | _ => .keeps

/-- The handler has the socket in its `fd`, and has not closed it. -/
def HandlerAt.holds : HandlerAt → Bool
  | .clears socket | .closes socket => socket
  | _ => false

/-- The handler may still find the socket. -/
def HandlerAt.mayTake : HandlerAt → Bool
  | .testsStop | .setsStop | .testsListen | .copies => true
  | _ => false

/-- The handler has set the stop flag and not reset `g_listen_fd`. -/
def HandlerAt.willReset : HandlerAt → Bool
  | .testsListen | .copies => true
  | .clears socket => socket
  | _ => false

def HandlerAt.closesSocket : HandlerAt → Bool
  | .closes socket => socket
  | _ => false

/-- The handler has found the socket reset between its test and its copy. -/
def HandlerAt.missed : HandlerAt → Bool
  | .clears socket => !socket
  | _ => false

/-- The handlers that stand at a place of the kind. -/
def State.handlersAt (s : State) (p : HandlerAt → Bool) : Nat :=
  s.handlers.countP fun h => p h.place

/-- The calls of `close` with the listening socket, and those that are on their way. -/
def State.taken (s : State) : Nat :=
  s.closed + s.handlersAt HandlerAt.holds + (decide (s.main.listenAt = .closes)).toNat

/-- The event reads `g_listen_fd` for its use, and finds it set. -/
def reads (s : State) : Event → Bool
  | .main => s.main = .testsListen && s.listenFd
  | .handler k => (s.handlers[k]?.any fun h => h.place = .copies) && s.listenFd
  | _ => false

/-- Somebody has read `g_listen_fd` and not reset it. -/
def State.held (s : State) : Bool :=
  s.main.listenAt = .closes || s.main.listenAt = .clears ||
    s.handlers.any fun h => h.place = .clears true

/-- Somebody reads `g_listen_fd` that another has read and not reset. -/
def ReadTwice : State → List Event → Prop
  | _, [] => False
  | s, e :: es => reads s e = true ∧ s.held = true ∨ ReadTwice (next s e) es

/-- What `g_listen_fd`, the calls of `close` and the places say of each other. -/
structure ListenInv (s : State) : Prop where
  set : s.listenFd = true → s.closed = (decide (s.main.listenAt = .clears)).toNat ∧
    s.handlersAt HandlerAt.closesSocket = 0 ∧ s.handlersAt HandlerAt.missed = 0
  reset : s.listenFd = false → 1 ≤ s.taken
  left : s.main.listenAt = .leaves → s.listenFd = false
  stopped : s.stopRequested = true → s.listenFd = true → 0 < s.handlersAt HandlerAt.willReset
  bound : s.taken + s.handlersAt HandlerAt.mayTake + (decide (s.main.listenAt = .keeps)).toNat ≤
    1 + s.handlers.length

/-! ## What a step does to it -/

section Handlers

variable {s : State} {k : Nat} {h : Handler}

theorem handlersAt_move (hat : s.handlers[k]? = some h) (p : HandlerAt → Bool) (a : HandlerAt) :
    (s.moveHandler k h a).handlersAt p + (p h.place).toNat = s.handlersAt p + (p a).toNat := by
  have hset := countP_set (b := { h with place := a }) (fun h' : Handler => p h'.place) hat
  exact hset

theorem taken_move (hat : s.handlers[k]? = some h) (a : HandlerAt) :
    (s.moveHandler k h a).taken + h.place.holds.toNat = s.taken + a.holds.toNat := by
  have hmove := handlersAt_move hat HandlerAt.holds a
  have hsame : (s.moveHandler k h a).taken = s.closed + (s.moveHandler k h a).handlersAt
      HandlerAt.holds + (decide (s.main.listenAt = .closes)).toNat := rfl
  rw [hsame, State.taken]
  omega

theorem taken_closes (s : State) (socket : Bool) :
    ({ s with closed := s.closed + socket.toNat } : State).taken = s.taken + socket.toNat := by
  have hsame : ({ s with closed := s.closed + socket.toNat } : State).taken =
      s.closed + socket.toNat + s.handlersAt HandlerAt.holds +
        (decide (s.main.listenAt = .closes)).toNat := rfl
  rw [hsame, State.taken]
  omega

theorem reads_handler (hat : s.handlers[k]? = some h) :
    reads s (.handler k) = (decide (h.place = .copies) && s.listenFd) := by
  simp [reads, hat]

end Handlers

/-- The step does not touch the socket. -/
structure LeavesListen (s s' : State) : Prop where
  at_main : s'.main.listenAt = s.main.listenAt
  fd : s'.listenFd = s.listenFd
  closed : s'.closed = s.closed
  stop : s'.stopRequested = s.stopRequested
  handlers : s'.handlers = s.handlers

/-- What a step does to the listening socket. -/
inductive ListenMove (s : State) : Event → State → Prop where
  | leaves {e : Event} {s' : State} (hleaves : LeavesListen s s') (he : reads s e = false) :
      ListenMove s e s'
  | signal {p : Party} {sig : StopSignal} : ListenMove s (.signal p sig) (deliver s p sig)
  | handler {k : Nat} {h : Handler} {s' : State} (hat : s.handlers[k]? = some h)
      (hstep : stopSignalHandler s k h = some s') : ListenMove s (.handler k) s'
  | tests (hat : s.main = .testsListen) : ListenMove s .main
      { s with main := if s.listenFd then .closesListen else .waitsToDrain }
  | closes (hat : s.main = .closesListen) : ListenMove s .main
      { s with main := .clearsListen, closed := s.closed + 1 }
  | clears (hat : s.main = .clearsListen) : ListenMove s .main
      { s with main := .waitsToDrain, listenFd := false }

theorem MainAt.Goes.listenAt {stop : Bool} {m m' : MainAt} (h : m.Goes stop m') :
    m'.listenAt = m.listenAt := by
  cases h with
  | acceptFailed interrupted => cases stop <;> cases interrupted <;> rfl
  | _ => cases stop <;> rfl

theorem ClientMove.leavesListen {s s' : State} {i : Nat} {a : ClientAt}
    (hmove : ClientMove s i a s') : LeavesListen s s' := by
  cases hmove with
  | broadcasts =>
    refine ⟨?_, rfl, rfl, rfl, rfl⟩
    have hgoto : (s.goto i .leavesClients).main = s.main := rfl
    rw [broadcast, hgoto]
    dsimp only
    split
    · rename_i hwaiting
      rw [hwaiting]
      rfl
    · rfl
  | _ => exact ⟨rfl, rfl, rfl, rfl, rfl⟩

theorem MainStep.listen {s s' : State} (h : MainStep s s') : ListenMove s .main s' := by
  have hleaves : ∀ m, s.main = m → m ≠ .testsListen → s'.main.listenAt = m.listenAt →
      s'.listenFd = s.listenFd → s'.closed = s.closed → s'.stopRequested = s.stopRequested →
      s'.handlers = s.handlers → ListenMove s .main s' := by
    intro m hm hne hlisten hfd hclosed hstop hhandlers
    subst hm
    exact .leaves ⟨hlisten, hfd, hclosed, hstop, hhandlers⟩ (by simp [reads, hne])
  cases h with
  | testsListen hat => exact .tests hat
  | closesListen hat => exact .closes hat
  | clearsListen hat => exact .clears hat
  | goes hat hgo => exact hleaves _ hat (by rintro rfl; cases hgo) hgo.listenAt rfl rfl rfl rfl
  | takes hat hgo hfree => cases hgo <;> exact hleaves _ hat (by simp) rfl rfl rfl rfl rfl
  | gives hat hgo => cases hgo <;> exact hleaves _ hat (by simp) rfl rfl rfl rfl rfl
  | calls hat => exact hleaves _ hat (by simp) (by dsimp only; split <;> rfl) rfl rfl rfl rfl
  | counts hat => exact hleaves _ hat (by simp) rfl rfl rfl rfl rfl
  | uncounts hat => exact hleaves _ hat (by simp) rfl rfl rfl rfl rfl
  | broadcasts hat => exact hleaves _ hat (by simp) rfl rfl rfl rfl rfl
  | sleeps hat hpos => exact hleaves _ hat (by simp) rfl rfl rfl rfl rfl
  | passes hat hzero => exact hleaves _ hat (by simp) rfl rfl rfl rfl rfl

theorem Advance.listen {s s' : State} {e : Event} (h : Advance s e s') : ListenMove s e s' := by
  cases h with
  | signal htakes => exact .signal
  | handler hat hstep => exact .handler hat hstep
  | main hfree hstep => exact hstep.listen
  | @accept r hat =>
    exact .leaves ⟨by rw [hat]; cases r <;> rfl, rfl, rfl, rfl, rfl⟩ rfl
  | create hat => exact .leaves ⟨by rw [hat]; rfl, rfl, rfl, rfl, rfl⟩ rfl
  | createFails hat => exact .leaves ⟨by rw [hat]; rfl, rfl, rfl, rfl, rfl⟩ rfl
  | spurious hat => exact .leaves ⟨by rw [hat]; rfl, rfl, rfl, rfl, rfl⟩ rfl
  | client he hat hmove =>
    refine .leaves hmove.leavesListen ?_
    cases e with
    | main => cases he
    | handler k => cases he
    | _ => rfl

theorem deliver_listenAt (s : State) (p : Party) (sig : StopSignal) :
    (deliver s p sig).main.listenAt = s.main.listenAt := by
  rw [deliver]
  dsimp only
  split
  · rename_i hmain
    rw [hmain.2]
    rfl
  · rfl

theorem deliver_handlersAt (s : State) (p : Party) (sig : StopSignal) (q : HandlerAt → Bool) :
    (deliver s p sig).handlersAt q = s.handlersAt q + (q .testsStop).toNat := by
  rw [State.handlersAt, deliver, List.countP_append]
  cases hq : q .testsStop <;> simp [State.handlersAt, hq]

/-! ## The readers -/

theorem taken_handler {s s' : State} {k : Nat} {h : Handler} (hat : s.handlers[k]? = some h)
    (hstep : stopSignalHandler s k h = some s') :
    s'.taken = s.taken + (reads s (.handler k)).toNat := by
  rw [reads_handler hat]
  cases hplace : h.place <;> rw [stopSignalHandler, hplace] at hstep <;> cases hstep
  case testsStop =>
    have hmove := taken_move hat .setsStop
    rw [hplace] at hmove
    split
    · rfl
    · exact hmove
  case setsStop =>
    have hmove := taken_move hat .testsListen
    rw [hplace] at hmove
    exact hmove
  case testsListen =>
    have hmove := fun a => taken_move hat a
    simp only [hplace] at hmove
    split
    · exact hmove .copies
    · exact hmove .returned
  case copies =>
    have hmove := taken_move hat (.clears s.listenFd)
    rw [hplace] at hmove
    exact hmove
  case clears socket =>
    have hmove := taken_move hat (.closes socket)
    rw [hplace] at hmove
    exact Nat.add_right_cancel hmove
  case closes socket =>
    have hmove := taken_move hat .returned
    rw [hplace] at hmove
    exact (taken_closes _ socket).trans hmove

/-- `close` is called, now or later, for every step that reads the socket. -/
theorem taken_step {s s' : State} {e : Event} (h : ListenMove s e s') :
    s'.taken = s.taken + (reads s e).toNat := by
  cases h with
  | leaves hleaves he =>
    rw [State.taken, State.taken, State.handlersAt, State.handlersAt, hleaves.at_main,
      hleaves.closed, hleaves.handlers, he]
    rfl
  | @signal p sig =>
    rw [State.taken, deliver_handlersAt, deliver_listenAt]
    rfl
  | handler hat hstep => exact taken_handler hat hstep
  | tests hat =>
    cases hfd : s.listenFd <;>
      simp [State.taken, State.handlersAt, reads, hat, hfd, MainAt.listenAt]
  | closes hat =>
    simp only [State.taken, State.handlersAt, reads, hat, MainAt.listenAt]
    simp
    omega
  | clears hat => simp [State.taken, State.handlersAt, reads, hat, MainAt.listenAt]

/-! ## The invariant -/

/-- A step that leaves the socket where it is. -/
theorem ListenInv.leaves {s s' : State} (h : ListenInv s) (hleaves : LeavesListen s s') :
    ListenInv s' := by
  have hcount : ∀ p, s'.handlersAt p = s.handlersAt p := by
    intro p
    rw [State.handlersAt, hleaves.handlers, State.handlersAt]
  have htaken : s'.taken = s.taken := by
    rw [State.taken, State.taken, hcount, hleaves.closed, hleaves.at_main]
  refine ⟨?_, ?_, ?_, ?_, ?_⟩
  · rw [hleaves.fd, hleaves.closed, hleaves.at_main, hcount, hcount]
    exact h.set
  · rw [hleaves.fd, htaken]
    exact h.reset
  · rw [hleaves.fd, hleaves.at_main]
    exact h.left
  · rw [hleaves.fd, hleaves.stop, hcount]
    exact h.stopped
  · rw [htaken, hcount, hleaves.at_main, hleaves.handlers]
    exact h.bound

theorem ListenInv.deliver {s : State} (h : ListenInv s) (p : Party) (sig : StopSignal) :
    ListenInv (deliver s p sig) := by
  have htaken := taken_step (@ListenMove.signal s p sig)
  have hlength : (Shutdown.deliver s p sig).handlers.length = s.handlers.length + 1 :=
    List.length_append
  refine ⟨?_, ?_, ?_, ?_, ?_⟩
  · rw [deliver_listenAt, deliver_handlersAt, deliver_handlersAt]
    exact h.set
  · rw [htaken]
    exact h.reset
  · rw [deliver_listenAt]
    exact h.left
  · rw [deliver_handlersAt]
    exact h.stopped
  · have hbound := h.bound
    rw [htaken, deliver_handlersAt, deliver_listenAt, hlength]
    simp only [reads, HandlerAt.mayTake, Bool.toNat_false, Bool.toNat_true]
    omega

section Handlers

variable {s s' : State} {k : Nat} {h : Handler} {a : HandlerAt} {c : Nat}

theorem handlersAt_set (hat : s.handlers[k]? = some h)
    (hhandlers : s'.handlers = (s.moveHandler k h a).handlers) (p : HandlerAt → Bool) :
    s'.handlersAt p + (p h.place).toNat = s.handlersAt p + (p a).toNat := by
  rw [State.handlersAt, hhandlers]
  exact handlersAt_move hat p a

theorem place_le_handlersAt (hat : s.handlers[k]? = some h) (p : HandlerAt → Bool) :
    (p h.place).toNat ≤ s.handlersAt p := by
  cases hp : p h.place with
  | false => exact Nat.zero_le _
  | true => exact List.countP_pos_iff.mpr ⟨h, List.mem_of_getElem? hat, hp⟩

/-- A step of a handler from one place to another that does not reset `g_listen_fd`. `c` is what it
closes. -/
theorem ListenInv.moves (hinv : ListenInv s) (hat : s.handlers[k]? = some h)
    (hhandlers : s'.handlers = (s.moveHandler k h a).handlers) (hmain : s'.main = s.main)
    (hfd : s'.listenFd = s.listenFd) (hclosed : s'.closed = s.closed + c)
    (hc : s.listenFd = true → c = 0) (hcloses : a.closesSocket = true → s.listenFd = false)
    (hmissed : a.missed = true → s.listenFd = false)
    (hstop : s'.stopRequested = true → s.listenFd = true →
      a.willReset = true ∨ s.stopRequested = true ∧ h.place.willReset = false)
    (hholds : h.place.holds.toNat ≤ a.holds.toNat + c)
    (hbound : a.holds.toNat + c + a.mayTake.toNat ≤ h.place.holds.toNat + h.place.mayTake.toNat) :
    ListenInv s' := by
  have hcount := handlersAt_set hat hhandlers
  have htaken : s'.taken + h.place.holds.toNat = s.taken + a.holds.toNat + c := by
    have hholds := hcount HandlerAt.holds
    rw [State.taken, State.taken, hmain, hclosed]
    omega
  refine ⟨fun hopen => ?_, fun hshut => ?_, fun hleaves => ?_, fun hflag hopen => ?_, ?_⟩
  · rw [hfd] at hopen
    have ha : a.closesSocket = false := by
      by_contra hnot
      exact absurd (hcloses (by simpa using hnot)) (by simp [hopen])
    have hb : a.missed = false := by
      by_contra hnot
      exact absurd (hmissed (by simpa using hnot)) (by simp [hopen])
    obtain ⟨hwas, hnone, hfound⟩ := hinv.set hopen
    have hcountcloses := hcount HandlerAt.closesSocket
    have hcountmissed := hcount HandlerAt.missed
    rw [ha, Bool.toNat_false] at hcountcloses
    rw [hb, Bool.toNat_false] at hcountmissed
    rw [hclosed, hc hopen, hmain]
    exact ⟨hwas, by omega, by omega⟩
  · rw [hfd] at hshut
    have hwas := hinv.reset hshut
    omega
  · rw [hmain] at hleaves
    exact hfd.trans (hinv.left hleaves)
  · rw [hfd] at hopen
    have hcountresets := hcount HandlerAt.willReset
    rcases hstop hflag hopen with ha | ⟨hwas, hb⟩
    · rw [ha, Bool.toNat_true] at hcountresets
      have hle := place_le_handlersAt hat HandlerAt.willReset
      omega
    · rw [hb, Bool.toNat_false] at hcountresets
      have hpos := hinv.stopped hwas hopen
      omega
  · have hcounttakes := hcount HandlerAt.mayTake
    have hlength : s'.handlers.length = s.handlers.length := by
      rw [hhandlers]
      exact List.length_set
    have hall := hinv.bound
    rw [hmain, hlength]
    omega

/-- The reset of a handler. -/
theorem ListenInv.clears {socket : Bool} (hinv : ListenInv s) (hat : s.handlers[k]? = some h)
    (hplace : h.place = .clears socket) :
    ListenInv { s.moveHandler k h (.closes socket) with listenFd := false } := by
  have htaken : (s.moveHandler k h (.closes socket)).taken = s.taken := by
    have hmove := taken_move hat (.closes socket)
    rw [hplace] at hmove
    exact Nat.add_right_cancel hmove
  refine ⟨fun hopen => (by cases hopen), fun _ => ?_, fun _ => rfl, fun _ hopen => (by cases hopen),
    ?_⟩
  · refine LE.le.trans_eq ?_ htaken.symm
    cases hfd : s.listenFd with
    | false => exact hinv.reset hfd
    | true =>
      have hmissed := place_le_handlersAt hat HandlerAt.missed
      have hholds := place_le_handlersAt hat HandlerAt.holds
      rw [(hinv.set hfd).2.2, hplace] at hmissed
      rw [hplace] at hholds
      cases socket with
      | false => exact absurd hmissed (by decide)
      | true => exact hholds.trans (by rw [State.taken]; omega)
  · have hmove := handlersAt_move hat HandlerAt.mayTake (.closes socket)
    rw [hplace] at hmove
    have hlength : (s.moveHandler k h (.closes socket)).handlers.length = s.handlers.length :=
      List.length_set
    exact Nat.le_trans (Nat.le_of_eq (by rw [← htaken, ← Nat.add_right_cancel hmove]; rfl))
      (hinv.bound.trans_eq (by rw [hlength]))

end Handlers

theorem ListenInv.handler {s s' : State} {k : Nat} {h : Handler} (hinv : ListenInv s)
    (hat : s.handlers[k]? = some h) (hstep : stopSignalHandler s k h = some s') :
    ListenInv s' := by
  cases hplace : h.place <;> rw [stopSignalHandler, hplace] at hstep <;> cases hstep
  case testsStop =>
    split
    · exact hinv.leaves ⟨rfl, rfl, rfl, rfl, rfl⟩
    · exact hinv.moves (c := 0) hat rfl rfl rfl rfl (fun _ => rfl)
        (by simp [HandlerAt.closesSocket]) (by simp [HandlerAt.missed]) (fun hstop _ => .inr ⟨hstop, by rw [hplace]; rfl⟩)
        (by rw [hplace]; decide) (by rw [hplace]; decide)
  case setsStop =>
    exact hinv.moves (c := 0) hat rfl rfl rfl rfl (fun _ => rfl) (by simp [HandlerAt.closesSocket])
      (by simp [HandlerAt.missed]) (fun _ _ => .inl rfl) (by rw [hplace]; decide)
      (by rw [hplace]; decide)
  case testsListen =>
    split
    · exact hinv.moves (c := 0) hat rfl rfl rfl rfl (fun _ => rfl)
        (by simp [HandlerAt.closesSocket]) (by simp [HandlerAt.missed]) (fun _ _ => .inl rfl)
        (by rw [hplace]; decide) (by rw [hplace]; decide)
    · rename_i hshut
      exact hinv.moves (c := 0) hat rfl rfl rfl rfl (fun _ => rfl)
        (by simp [HandlerAt.closesSocket]) (by simp [HandlerAt.missed])
        (fun _ hfd => absurd hfd hshut) (by rw [hplace]; decide) (by rw [hplace]; decide)
  case copies =>
    refine hinv.moves (c := 0) hat rfl rfl rfl rfl (fun _ => rfl)
      (by simp [HandlerAt.closesSocket]) (fun hmissed => ?_) (fun _ hfd => .inl hfd)
      (by rw [hplace]; exact Nat.zero_le _) ?_
    · simpa [HandlerAt.missed] using hmissed
    · rw [hplace]
      cases s.listenFd <;> decide
  case clears socket => exact hinv.clears hat hplace
  case closes socket =>
    refine hinv.moves (c := socket.toNat) hat rfl rfl rfl rfl (fun hfd => ?_)
      (by simp [HandlerAt.closesSocket]) (by simp [HandlerAt.missed])
      (fun hstop _ => .inr ⟨hstop, by rw [hplace]; rfl⟩) (by rw [hplace]; cases socket <;> decide)
      (by rw [hplace]; cases socket <;> decide)
    have hcloses := place_le_handlersAt hat HandlerAt.closesSocket
    rw [(hinv.set hfd).2.1, hplace] at hcloses
    exact Nat.le_zero.mp hcloses

section Main

variable {s : State}

/-- What is taken, by where `main` stands. -/
theorem taken_at {a : ListenAt} (hat : s.main.listenAt = a) :
    s.taken = s.closed + s.handlersAt HandlerAt.holds + (decide (a = .closes)).toNat := by
  rw [State.taken, hat]

theorem ListenInv.bound_at {a : ListenAt} (hinv : ListenInv s) (hat : s.main.listenAt = a) :
    s.taken + s.handlersAt HandlerAt.mayTake + (decide (a = .keeps)).toNat ≤
      1 + s.handlers.length := by
  have hbound := hinv.bound
  rwa [hat] at hbound

/-- `main` finds the socket. -/
theorem ListenInv.finds (hinv : ListenInv s) (hat : s.main.listenAt = .keeps)
    (hfd : s.listenFd = true) : ListenInv { s with main := .closesListen } := by
  have hset := hinv.set hfd
  rw [hat] at hset
  refine ⟨fun _ => hset, fun hshut => absurd (hfd.symm.trans hshut) (by decide),
    fun hleaves => (by cases hleaves), hinv.stopped, ?_⟩
  have hbound := hinv.bound_at hat
  have htaken := taken_at hat
  have hnow := taken_at (s := { s with main := .closesListen }) (a := .closes) rfl
  rw [hnow]
  simp only [reduceCtorEq, decide_true, decide_false, Bool.toNat_true, Bool.toNat_false,
    MainAt.listenAt] at hbound htaken ⊢
  exact Nat.le_trans (by rw [htaken]; simp only [State.handlersAt]; omega) hbound

/-- `main` does not find it. -/
theorem ListenInv.missesIt (hinv : ListenInv s) (hat : s.main.listenAt = .keeps)
    (hfd : s.listenFd = false) : ListenInv { s with main := .waitsToDrain } := by
  have hsame : ({ s with main := .waitsToDrain } : State).taken = s.taken := by
    rw [taken_at hat]
    rfl
  refine ⟨fun hopen => absurd (hfd.symm.trans hopen) (by decide), fun _ => ?_, fun _ => hfd,
    hinv.stopped, ?_⟩
  · rw [hsame]
    exact hinv.reset hfd
  · rw [hsame]
    exact Nat.le_trans (Nat.add_le_add_left (Nat.zero_le _) _) (hinv.bound_at hat)

/-- `main` closes it. -/
theorem ListenInv.closesIt (hinv : ListenInv s) (hat : s.main.listenAt = .closes) :
    ListenInv { s with main := .clearsListen, closed := s.closed + 1 } := by
  have hsame : ({ s with main := .clearsListen, closed := s.closed + 1 } : State).taken =
      s.taken := by
    rw [taken_at hat, taken_at (a := .clears) rfl]
    simp only [State.handlersAt, reduceCtorEq, decide_true, decide_false, Bool.toNat_true,
      Bool.toNat_false]
    omega
  refine ⟨fun hopen => ?_, fun hshut => ?_, fun hleaves => (by cases hleaves), hinv.stopped, ?_⟩
  · have hset := hinv.set hopen
    rw [hat] at hset
    exact ⟨congrArg (· + 1) hset.1, hset.2⟩
  · rw [hsame]
    exact hinv.reset hshut
  · have hbound := hinv.bound_at hat
    rw [hsame]
    exact hbound

/-- And resets `g_listen_fd`. -/
theorem ListenInv.clearsIt (hinv : ListenInv s) (hat : s.main.listenAt = .clears) :
    ListenInv { s with main := .waitsToDrain, listenFd := false } := by
  have hsame : ({ s with main := .waitsToDrain, listenFd := false } : State).taken = s.taken := by
    rw [taken_at hat]
    rfl
  refine ⟨fun hopen => (by cases hopen), fun _ => ?_, fun _ => rfl, fun _ hopen => (by cases hopen),
    ?_⟩
  · rw [hsame]
    cases hfd : s.listenFd with
    | false => exact hinv.reset hfd
    | true =>
      have hclosed := (hinv.set hfd).1
      rw [hat] at hclosed
      rw [State.taken, hclosed]
      simp only [decide_true, Bool.toNat_true]
      omega
  · have hbound := hinv.bound_at hat
    rw [hsame]
    exact hbound

end Main

/-- Every step keeps it. -/
theorem ListenInv.step {s s' : State} {e : Event} (hinv : ListenInv s) (h : ListenMove s e s') :
    ListenInv s' := by
  cases h with
  | leaves hleaves he => exact hinv.leaves hleaves
  | signal => exact hinv.deliver _ _
  | handler hat hstep => exact hinv.handler hat hstep
  | tests hat =>
    have hkeeps : s.main.listenAt = .keeps := by
      rw [hat]
      rfl
    split
    · rename_i hfd
      exact hinv.finds hkeeps hfd
    · rename_i hfd
      exact hinv.missesIt hkeeps ((Bool.not_eq_true _).mp hfd)
  | closes hat => exact hinv.closesIt (by rw [hat]; rfl)
  | clears hat => exact hinv.clearsIt (by rw [hat]; rfl)

/-! ## Every run -/

theorem listenInv_listening (s : State) (h : Listening s) : ListenInv s := by
  subst h
  exact ⟨fun _ => ⟨rfl, rfl, rfl⟩, fun hshut => (by cases hshut), fun hleaves => (by cases hleaves),
    fun hstop => (by cases hstop), by decide⟩

theorem listenInv_comes {s : State} (h : Reached s) : ListenInv s :=
  h.invariant listenInv_listening fun _ _ hinv he => hinv.step (advance_next he).listen

theorem reads_set {s : State} {e : Event} (h : reads s e = true) : s.listenFd = true := by
  cases e with
  | main => exact (Bool.and_eq_true_iff.mp h).2
  | handler k => exact (Bool.and_eq_true_iff.mp h).2
  | _ => cases h

/-- While `g_listen_fd` is set, who has taken the socket has it still. -/
theorem held_iff {s : State} (hinv : ListenInv s) (hfd : s.listenFd = true) :
    s.held = true ↔ 1 ≤ s.taken := by
  obtain ⟨hclosed, hcloses, -⟩ := hinv.set hfd
  have hholds : (s.handlers.any fun h => h.place = .clears true) = true ↔
      0 < s.handlersAt HandlerAt.holds := by
    rw [List.any_eq_true, State.handlersAt, List.countP_pos_iff]
    refine exists_congr fun h => and_congr_right fun hmem => ?_
    have hnot := List.countP_eq_zero.mp hcloses h hmem
    cases hplace : h.place <;> simp_all [HandlerAt.holds, HandlerAt.closesSocket]
  rw [State.held, Bool.or_eq_true, Bool.or_eq_true, hholds, State.taken, hclosed]
  cases s.main.listenAt <;> simp <;> omega

/-- More than one has taken the socket where one read `g_listen_fd` behind another. -/
theorem readTwice_iff {es : List Event} {s : State} (hinv : ListenInv s)
    (hrun : Guarded next Enabled s es) :
    1 < (es.foldl next s).taken ↔ 1 < s.taken ∨ ReadTwice s es := by
  induction es generalizing s with
  | nil => simp [ReadTwice]
  | cons e es ih =>
    have hmove := (advance_next hrun.1).listen
    have htaken := taken_step hmove
    rw [List.foldl_cons, ih (hinv.step hmove) hrun.2, htaken, ReadTwice, ← or_assoc]
    refine or_congr_left ?_
    cases hreads : reads s e with
    | false => simp
    | true =>
      rw [held_iff hinv (reads_set hreads)]
      simp
      omega

/-- Where `main` has left the socket behind and every handler has returned, the socket is closed.
Each handler and `main` close it once at most, and it is closed more than once in the runs in which
somebody reads `g_listen_fd` that another has read and not yet reset, and in no others. -/
theorem listen_closed {es : List Event} (hrun : Guarded next Enabled {} es)
    (hleft : (es.foldl next {}).main.listenAt = .leaves)
    (hdone : ∀ h ∈ (es.foldl next {}).handlers, h.place = .returned) :
    1 ≤ (es.foldl next {}).closed ∧
      (es.foldl next {}).closed ≤ 1 + (es.foldl next {}).handlers.length ∧
      (1 < (es.foldl next {}).closed ↔ ReadTwice {} es) := by
  have hstart : Reached {} := .start rfl
  have hinv := listenInv_comes (comes_run es hstart hrun)
  have htaken : (es.foldl next {}).taken = (es.foldl next {}).closed := by
    have hnone : (es.foldl next {}).handlersAt HandlerAt.holds = 0 :=
      List.countP_eq_zero.mpr fun h hmem => by rw [hdone h hmem]; decide
    rw [taken_at hleft, hnone]
    rfl
  rw [← htaken]
  refine ⟨hinv.reset (hinv.left hleft), ?_, ?_⟩
  · have hbound := hinv.bound
    omega
  · rw [readTwice_iff (listenInv_comes hstart) hrun]
    exact or_iff_right (by decide)

/-- The signal comes to a client thread, a connection takes `main` out of `accept`, and `main` reads
`g_listen_fd` before the handler resets it. -/
def closedTwiceRun : List Event :=
  [.main, .main, .accept .connection, .main, .main, .main, .main, .create true, .main, .main,
    .signal (.client 0) .interrupt, .handler 0, .handler 0, .handler 0, .handler 0,
    .accept .connection, .main, .main, .handler 0, .main, .handler 0, .main]

theorem listen_closed_twice :
    (closedTwiceRun.foldl next {}).closed = 2 ∧ (1 < (closedTwiceRun.foldl next {}).closed ↔
      ReadTwice {} closedTwiceRun) := by
  have hrun : Guarded next Enabled {} closedTwiceRun := by
    simp only [closedTwiceRun, Guarded]
    decide
  exact ⟨by decide, (listen_closed hrun (by decide) (by decide)).2.2⟩

end Sf37.Server.Shutdown
