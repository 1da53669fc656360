/-
Sf37.Server.ShutdownEnds — the drain of the server comes to its end.

Behind the stop nothing goes on for ever, and nothing is stuck but `main` in `accept`: a signal
takes it out of there only where the handler runs on `main` itself.

* `advance_falls`: every step of a thread takes the server nearer to its end; a signal and a wake-up
  without a cause add a bounded number of steps.
* `exists_step`: as long as somebody is not at rest, somebody can take a step.
* `blockedInv_comes`: `main` is in `accept` behind the stop only where another thread ran the
  handler.
-/
import Sf37.Server.ShutdownListen

namespace Sf37.Server.Shutdown

open Sf37.Run

/-! ## The way to the end -/

/-- `main` is behind the loop of connections. -/
def MainAt.leftLoop : MainAt → Bool
  | .testsListen | .closesListen | .clearsListen | .waitsToDrain | .testsClients | .waiting
  | .woken | .drained | .storing | .freeing | .destroying | .closingEngine | .returned => true
  | _ => false

/-- How far `main` is from its end, when the stop has been requested. A thread that it still makes
is part of its way. -/
def MainAt.rank : MainAt → Nat
  | .waitsToCount => 32
  | .counting => 31
  | .counted => 30
  | .creating => 29
  | .waitsToUncount => 17
  | .uncounting => 16
  | .calling => 16
  | .uncountBroadcast => 15
  | .accepting => 15
  | .uncounted => 14
  | .acceptFailed _ => 14
  | .accepted => 14
  | .loop => 13
  | .testsListen => 12
  | .closesListen => 11
  | .clearsListen => 10
  | .waitsToDrain => 9
  | .woken => 8
  | .testsClients => 7
  | .waiting => 6
  | .drained => 5
  | .storing => 4
  | .freeing => 3
  | .destroying => 2
  | .closingEngine => 1
  | .returned => 0

def HandlerAt.rank : HandlerAt → Nat
  | .testsStop => 6
  | .setsStop => 5
  | .testsListen => 4
  | .copies => 3
  | .clears _ => 2
  | .closes _ => 1
  | .returned => 0

/-- How far the server is from its end. -/
def State.rank (s : State) : Nat :=
  (s.threads.map ClientAt.rank).sum + (s.handlers.map fun h => h.place.rank).sum + s.main.rank +
    (!s.killed).toNat

/-- The server is on its way to the end. -/
def Stopping (s : State) : Prop := s.stopRequested = true ∨ s.main.leftLoop = true

/-- A step that a thread takes by itself. What `accept` brings comes from outside. -/
def Event.caused : Event → Bool
  | .signal _ _ | .accept _ | .spurious => false
  | _ => true

/-- A broadcast sends `main` back to its test. -/
theorem broadcast_rank (s : State) : (broadcast s).main.rank ≤ s.main.rank + 2 := by
  rw [broadcast]
  simp only
  split
  · rename_i hwaiting
    rw [hwaiting]
    decide
  · omega

theorem clientMove_falls {s s' : State} {i : Nat} {a : ClientAt} (hat : s.threads[i]? = some a)
    (hmove : ClientMove s i a s') : s'.rank < s.rank := by
  have hsum : ∀ b, ((s.goto i b).threads.map ClientAt.rank).sum + a.rank =
      (s.threads.map ClientAt.rank).sum + b.rank := fun b => sum_map_set ClientAt.rank hat
  cases hmove with
  | @goesOn _ b hgen hclients ha hb hrank hstop =>
    have hb := hsum b
    simp only [State.rank, State.goto] at hb ⊢
    omega
  | takesGen hfree =>
    have hb := hsum .checksStop
    simp only [State.rank, State.goto, ClientAt.rank] at hb ⊢
    omega
  | leavesGen =>
    have hb := hsum .answering
    simp only [State.rank, State.goto, ClientAt.rank] at hb ⊢
    omega
  | takesClients hfree =>
    have hb := hsum .counting
    simp only [State.rank, State.goto, ClientAt.rank] at hb ⊢
    omega
  | counts =>
    have hb := hsum .broadcasting
    simp only [State.rank, State.goto, ClientAt.rank] at hb ⊢
    omega
  | broadcasts =>
    -- the thread pays for the way of `main` back to its test
    have hb := hsum .leavesClients
    have hmain := broadcast_rank (s.goto i .leavesClients)
    simp only [State.rank, State.goto, ClientAt.rank, broadcast] at hb hmain ⊢
    omega
  | leavesClients =>
    have hb := hsum .finished
    simp only [State.rank, State.goto, ClientAt.rank] at hb ⊢
    omega

/-- A step of `main` changes its own part of the way only. -/
theorem rank_main {s s' : State} {m : MainAt} (m' : MainAt) (hat : s.main = m)
    (hat' : s'.main = m') (hthreads : s'.threads = s.threads)
    (hhandlers : s'.handlers = s.handlers) (hkilled : s'.killed = s.killed)
    (hrank : m'.rank < m.rank) : s'.rank < s.rank := by
  rw [State.rank, State.rank, hthreads, hhandlers, hkilled, hat, hat']
  omega

theorem MainAt.Goes.falls {stop : Bool} {m m' : MainAt} (h : m.Goes stop m')
    (hstop : m.leftLoop = false → stop = true) : m'.rank < m.rank := by
  cases h with
  | loop =>
    rw [hstop rfl]
    decide
  | acceptFailed interrupted =>
    rw [hstop rfl]
    exact Nat.lt_of_lt_of_le (show MainAt.testsListen.rank < 14 by decide) (Nat.le_refl _)
  | accepted =>
    rw [hstop rfl]
    decide
  | _ => decide

/-- A step of `main` behind the stop. -/
theorem MainStep.falls {s s' : State} (hstop : Stopping s) (h : MainStep s s') :
    s'.rank < s.rank := by
  cases h with
  | @goes m m' hat hgo =>
    refine rank_main m' hat rfl rfl rfl rfl (hgo.falls fun hleft => hstop.resolve_right ?_)
    rw [hat, hleft]
    decide
  | @takes m m' hat hgo hfree => exact rank_main m' hat rfl rfl rfl rfl (by cases hgo <;> decide)
  | @gives m m' hat hgo => exact rank_main m' hat rfl rfl rfl rfl (by cases hgo <;> decide)
  | calls hat => exact rank_main _ hat rfl rfl rfl rfl (by dsimp only; split <;> decide)
  | testsListen hat => exact rank_main _ hat rfl rfl rfl rfl (by dsimp only; split <;> decide)
  | counts hat => exact rank_main .counted hat rfl rfl rfl rfl (by decide)
  | uncounts hat => exact rank_main .uncountBroadcast hat rfl rfl rfl rfl (by decide)
  | broadcasts hat => exact rank_main .uncounted hat rfl rfl rfl rfl (by decide)
  | closesListen hat => exact rank_main .clearsListen hat rfl rfl rfl rfl (by decide)
  | clearsListen hat => exact rank_main .waitsToDrain hat rfl rfl rfl rfl (by decide)
  | sleeps hat hpos => exact rank_main .waiting hat rfl rfl rfl rfl (by decide)
  | passes hat hzero => exact rank_main .drained hat rfl rfl rfl rfl (by decide)

/-- A step of a handler. -/
theorem stopSignalHandler_falls {s s' : State} {k : Nat} {h : Handler} (hlive : s.killed = false)
    (hat : s.handlers[k]? = some h) (hstep : stopSignalHandler s k h = some s') :
    s'.rank < s.rank := by
  have hsum : ∀ a : HandlerAt,
      ((s.moveHandler k h a).handlers.map fun h => h.place.rank).sum + h.place.rank =
        (s.handlers.map fun h => h.place.rank).sum + a.rank := by
    intro a
    have hset := sum_map_set (b := { h with place := a }) (fun h' : Handler => h'.place.rank) hat
    exact hset
  have hfalls : ∀ a : HandlerAt, a.rank < h.place.rank →
      (s.threads.map ClientAt.rank).sum +
        ((s.moveHandler k h a).handlers.map fun h => h.place.rank).sum + s.main.rank +
          (!s.killed).toNat < s.rank := by
    intro a ha
    have hmove := hsum a
    rw [State.rank]
    omega
  cases hplace : h.place <;> rw [stopSignalHandler, hplace] at hstep <;> cases hstep <;>
    rw [hplace] at hfalls
  case testsStop =>
    split
    · rw [State.rank, State.rank, hlive]
      simp
    · exact hfalls .setsStop (by decide)
  case setsStop => exact hfalls .testsListen (by decide)
  case testsListen =>
    split
    · exact hfalls .copies (by decide)
    · exact hfalls .returned (by decide)
  case copies => exact hfalls (.clears s.listenFd) (Nat.lt_succ_self 2)
  case clears socket => exact hfalls (.closes socket) (Nat.lt_succ_self 1)
  case closes socket => exact hfalls .returned (Nat.lt_succ_self 0)

/-- What an event costs: a new handler has its way to go, and a wake-up without a cause sends `main`
back to its test. -/
def Event.cost : Event → Nat
  | .signal _ _ => 6
  | .spurious => 2
  | _ => 0

theorem deliver_rank (s : State) (p : Party) (sig : StopSignal) :
    (deliver s p sig).rank ≤ s.rank + 6 := by
  have hmain : (deliver s p sig).main.rank ≤ s.main.rank := by
    rw [deliver]
    dsimp only
    split
    · rename_i haccept
      rw [haccept.2]
      decide
    · exact Nat.le_refl _
  have hhandlers : ((deliver s p sig).handlers.map fun h => h.place.rank).sum =
      (s.handlers.map fun h => h.place.rank).sum + 6 := by
    rw [deliver]
    simp [HandlerAt.rank]
  have hsame : (deliver s p sig).threads = s.threads ∧ (deliver s p sig).killed = s.killed :=
    ⟨rfl, rfl⟩
  rw [State.rank, State.rank, hhandlers, hsame.1, hsame.2]
  omega

/-- Behind the stop a step of a thread takes the server nearer to its end, and what comes from
outside takes it no further away than it costs. -/
theorem advance_falls {s s' : State} {e : Event} (hlive : s.killed = false) (hstop : Stopping s)
    (h : Advance s e s') : s'.rank + e.caused.toNat ≤ s.rank + e.cost := by
  cases h with
  | signal htakes => exact deliver_rank s _ _
  | handler hat hstep => exact stopSignalHandler_falls hlive hat hstep
  | @accept r hat =>
    refine Nat.le_of_lt (rank_main r.leads hat rfl rfl rfl rfl ?_)
    cases r <;> decide
  | create hat =>
    simp only [State.rank, hat, List.map_append, List.map_cons, List.map_nil, List.sum_append,
      List.sum_cons, List.sum_nil, Event.caused, Event.cost, MainAt.rank, ClientAt.rank,
      Bool.toNat_true]
    omega
  | createFails hat => exact rank_main .waitsToUncount hat rfl rfl rfl rfl (by decide)
  | spurious hat =>
    simp only [State.rank, hat, Event.caused, Event.cost, MainAt.rank, Bool.toNat_false]
    omega
  | main hfree hstep => exact hstep.falls hstop
  | client he hat hmove =>
    have hfalls := clientMove_falls hat hmove
    have hle : e.caused.toNat ≤ 1 := Bool.toNat_le _
    omega

/-! ## No thread is stuck -/

/-- Nobody has anything left to do, but for what `accept` may bring. -/
def AtRest (s : State) : Prop :=
  (s.main = .returned ∨ s.main = .accepting) ∧ (∀ a ∈ s.threads, a = .finished) ∧
    ∀ h ∈ s.handlers, h.place = .returned

/-- A step of a thread that no handler stands on. -/
theorem enabled_of {s : State} {e : Event} (hlive : s.killed = false)
    (hfree : ∀ p, s.interrupted p = false) (s' : State) (h : eventStep s e = some s') :
    Enabled s e := by
  have hgoes : (s.killed || e.party.any s.interrupted) = false := by
    rw [hlive, Bool.false_or]
    cases e.party with
    | none => rfl
    | some p => exact hfree p
  rw [Enabled, advance, hgoes, if_neg (by decide), h]
  rfl

/-- The last handler that has not returned. -/
theorem exists_innermost {hs : List Handler} (h : ∃ h ∈ hs, h.place ≠ .returned) :
    ∃ k h, hs[k]? = some h ∧ h.place ≠ .returned ∧
      ∀ h' ∈ hs.drop (k + 1), h'.place = .returned := by
  induction hs with
  | nil =>
    obtain ⟨h, hmem, -⟩ := h
    cases hmem
  | cons a hs ih =>
    by_cases hlater : ∃ h ∈ hs, h.place ≠ .returned
    · obtain ⟨k, h, hat, hruns, hlast⟩ := ih hlater
      exact ⟨k + 1, h, hat, hruns, hlast⟩
    · simp only [not_exists, not_and, not_not] at hlater
      obtain ⟨h, hmem, hruns⟩ := h
      rcases List.mem_cons.mp hmem with rfl | hmem
      · exact ⟨0, h, rfl, hruns, hlater⟩
      · exact absurd (hlater h hmem) hruns

/-- A handler that has not returned can take a step. -/
theorem handler_step {s : State} (hlive : s.killed = false)
    (h : ∃ h ∈ s.handlers, h.place ≠ .returned) : ∃ e, e.caused = true ∧ Enabled s e := by
  obtain ⟨k, h, hat, hruns, hlast⟩ := exists_innermost h
  have hinner : s.innermost k h = true := by
    rw [State.innermost, Bool.not_eq_true', List.any_eq_false]
    intro h' hmem
    simp [Handler.runs, hlast h' hmem]
  obtain ⟨s', hstep⟩ : ∃ s', stopSignalHandler s k h = some s' := by
    rw [stopSignalHandler]
    cases hplace : h.place with
    | returned => exact absurd hplace hruns
    | _ => exact ⟨_, rfl⟩
  refine ⟨.handler k, rfl, ?_⟩
  rw [Enabled, advance, hlive, eventStep, hat, Option.bind_some, hinner, if_pos rfl, hstep]
  rfl

/-- A thread that waits for no mutex can take a step. -/
theorem thread_step {s : State} (hlive : s.killed = false) (hfree : ∀ p, s.interrupted p = false)
    {i : Nat} {a : ClientAt} (hat : s.threads[i]? = some a)
    (hgen : a = .waitsForGen → s.genMu = none)
    (hclients : a = .waitsForClients → s.clientsMu = none) (ha : a ≠ .finished) :
    ∃ e, e.caused = true ∧ Enabled s e := by
  have hstep : ∀ s', clientStep s i a = some s' → ∃ e : Event, e.caused = true ∧ Enabled s e := by
    intro s' hs'
    refine ⟨.client i, rfl, enabled_of hlive hfree s' ?_⟩
    rw [eventStep, hat, Option.bind_some, hs']
  cases a with
  | finished => exact absurd rfl ha
  | reading =>
    exact ⟨.request i false, rfl, enabled_of hlive hfree (s.goto i .answering) (if_pos hat)⟩
  | parsing =>
    exact ⟨.parsed i false, rfl, enabled_of hlive hfree (s.goto i .leavesGen) (if_pos hat)⟩
  | waitsForGen => exact hstep _ (if_pos (hgen rfl))
  | waitsForClients => exact hstep _ (if_pos (hclients rfl))
  | _ => exact hstep _ rfl

/-- `main` can take a step unless it waits for the mutex, for a broadcast, for a connection or for
nothing more. -/
theorem main_step {s : State} (hlive : s.killed = false) (hfree : ∀ p, s.interrupted p = false)
    (hmutex : s.main.inClients = false → s.clientsMu = none) (hwaits : s.main ≠ .waiting)
    (haccept : s.main ≠ .accepting) (hend : s.main ≠ .returned) :
    ∃ e, e.caused = true ∧ Enabled s e := by
  have hstep : ∀ m s', s.main = m → mainStep s m = some s' →
      ∃ e : Event, e.caused = true ∧ Enabled s e := by
    intro m s' hm hs'
    subst hm
    exact ⟨.main, rfl, enabled_of hlive hfree s' hs'⟩
  have hlocks : ∀ m m', s.main = m → m.inClients = false →
      mainStep s m = (if s.clientsMu = none then some { s with main := m', clientsMu := some .main }
        else none) → ∃ e : Event, e.caused = true ∧ Enabled s e := by
    intro m m' hm hout hs
    exact hstep m _ hm (hs.trans (if_pos (hmutex (hm ▸ hout))))
  cases hat : s.main with
  | waiting => exact absurd hat hwaits
  | accepting => exact absurd hat haccept
  | returned => exact absurd hat hend
  | creating => exact ⟨.create false, rfl, enabled_of hlive hfree _ (if_pos hat)⟩
  | waitsToCount => exact hlocks _ .counting hat rfl rfl
  | waitsToUncount => exact hlocks _ .uncounting hat rfl rfl
  | waitsToDrain => exact hlocks _ .testsClients hat rfl rfl
  | woken => exact hlocks _ .testsClients hat rfl rfl
  | testsClients =>
    by_cases hpos : 0 < s.clients
    · exact hstep _ _ hat (if_pos hpos)
    · exact hstep _ _ hat (if_neg hpos)
  | _ => exact hstep _ _ hat rfl

/-- Until all are at rest, somebody can take a step. -/
theorem exists_step {s : State} (h : Inv s) (hlive : s.killed = false) (hmore : ¬ AtRest s) :
    ∃ e, e.caused = true ∧ Enabled s e := by
  by_cases hhandlers : ∃ h ∈ s.handlers, h.place ≠ .returned
  · exact handler_step hlive hhandlers
  simp only [not_exists, not_and, not_not] at hhandlers
  have hfree : ∀ p, s.interrupted p = false := by
    intro p
    rw [State.interrupted, List.any_eq_false]
    intro h hmem
    simp [Handler.runs, hhandlers h hmem]
  by_cases hall : ∀ a ∈ s.threads, a = .finished
  · -- only `main` is left
    have hthread : ∀ (i : Nat) (a : ClientAt), s.threads[i]? = some a → a = .finished :=
      fun i a hi => hall a (List.mem_of_getElem? hi)
    refine main_step hlive hfree (fun hout => h.mutex.free fun q hq => ?_) (fun hwaiting => ?_)
      (fun hat => hmore ⟨.inr hat, hall, hhandlers⟩) fun hat => hmore ⟨.inl hat, hall, hhandlers⟩
    · cases q with
      | main =>
        rw [InClients, hout] at hq
        cases hq
      | client i =>
        obtain ⟨a, hi, ha⟩ := hq
        rw [hthread i a hi] at ha
        cases ha
    · rcases h.waits hwaiting with hpos | hmem
      · have hnone : s.threads.countP ClientAt.counted = 0 :=
          List.countP_eq_zero.mpr fun a ha => by rw [hall a ha]; decide
        rw [h.count, hnone, hwaiting] at hpos
        exact absurd hpos (by decide)
      · cases hall _ hmem
  · simp only [not_forall] at hall
    obtain ⟨a, hmem, ha⟩ := hall
    obtain ⟨i, hat⟩ := List.mem_iff_getElem?.mp hmem
    -- a thread that waits for a mutex waits for one that can take a step
    have hholder : ∀ (owner : Party), (InGen s owner ∨ InClients s owner) →
        ∃ e, e.caused = true ∧ Enabled s e := by
      intro owner hin
      cases owner with
      | main =>
        have hlocked : s.main.inClients = true := hin.resolve_left id
        refine main_step hlive hfree (fun hout => ?_) ?_ ?_ ?_
        · rw [hlocked] at hout
          cases hout
        all_goals
          intro hat
          rw [hat] at hlocked
          cases hlocked
      | client j =>
        obtain ⟨b, hb, hlocked⟩ :
            ∃ b, s.threads[j]? = some b ∧ (b.inGen = true ∨ b.inClients = true) := by
          rcases hin with ⟨b, hb, hlocked⟩ | ⟨b, hb, hlocked⟩
          · exact ⟨b, hb, .inl hlocked⟩
          · exact ⟨b, hb, .inr hlocked⟩
        refine thread_step hlive hfree hb ?_ ?_ ?_ <;> rintro rfl <;> simp [ClientAt.inGen,
          ClientAt.inClients] at hlocked
    by_cases hgen : a = .waitsForGen ∧ s.genMu ≠ none
    · obtain ⟨owner, howner⟩ := Option.ne_none_iff_exists'.mp hgen.2
      exact hholder owner (.inl ((h.gen owner).mp howner))
    by_cases hclients : a = .waitsForClients ∧ s.clientsMu ≠ none
    · obtain ⟨owner, howner⟩ := Option.ne_none_iff_exists'.mp hclients.2
      exact hholder owner (.inr ((h.mutex owner).mp howner))
    refine thread_step hlive hfree hat (fun hwaits => ?_) (fun hwaits => ?_) ha
    · exact not_not.mp fun hheld => hgen ⟨hwaits, hheld⟩
    · exact not_not.mp fun hheld => hclients ⟨hwaits, hheld⟩

theorem MainStep.not_returned {s s' : State} (h : MainStep s s') : s.main ≠ .returned := by
  cases h with
  | goes hat hgo => cases hgo <;> simp [hat]
  | takes hat hgo => cases hgo <;> simp [hat]
  | gives hat hgo => cases hgo <;> simp [hat]
  | _ => simp [*]

theorem MainStep.not_accepting {s s' : State} (h : MainStep s s') : s.main ≠ .accepting := by
  cases h with
  | goes hat hgo => cases hgo <;> simp [hat]
  | takes hat hgo => cases hgo <;> simp [hat]
  | gives hat hgo => cases hgo <;> simp [hat]
  | _ => simp [*]

/-- And at rest nobody can. -/
theorem AtRest.stuck {s : State} (h : AtRest s) {e : Event} (he : e.caused = true) :
    ¬ Enabled s e := by
  intro hon
  obtain ⟨hmain, hthreads, hhandlers⟩ := h
  obtain ⟨s', hs'⟩ := Option.isSome_iff_exists.mp hon
  cases advance_can hs' with
  | signal htakes => cases he
  | accept hat => cases he
  | spurious hat => cases he
  | handler hat hstep =>
    rw [stopSignalHandler, hhandlers _ (List.mem_of_getElem? hat)] at hstep
    cases hstep
  | create hat => rcases hmain with hm | hm <;> rw [hat] at hm <;> cases hm
  | createFails hat => rcases hmain with hm | hm <;> rw [hat] at hm <;> cases hm
  | main hfree hstep =>
    rcases hmain with hm | hm
    · exact hstep.not_returned hm
    · exact hstep.not_accepting hm
  | client he hat hmove =>
    rw [hthreads _ (List.mem_of_getElem? hat)] at hmove
    cases hmove with
    | goesOn hgen hclients ha => cases ha

/-! ## Blocked in `accept` -/

/-- Where `main` is blocked in `accept`, no handler stands on it, and none has set the flag but on
another thread. -/
def BlockedInv (s : State) : Prop :=
  s.main = .accepting →
    (∀ h ∈ s.handlers, h.on = .main → h.place = .returned) ∧
      (s.stopRequested = true → ∃ h ∈ s.handlers, h.on ≠ .main)

theorem returned_of_free {s : State} {p : Party} (hfree : s.interrupted p = false) :
    ∀ h ∈ s.handlers, h.on = p → h.place = .returned := by
  intro h hmem hon
  have hnot := List.any_eq_false.mp hfree h hmem
  simpa [hon, Handler.runs] using hnot

/-- The flag is set and the socket open: a handler is still on its way. -/
theorem exists_running {s : State} (hlisten : ListenInv s) (hkeeps : s.main.listenAt = .keeps)
    (hopen : s.closed = 0) (hstop : s.stopRequested = true) :
    ∃ h ∈ s.handlers, h.place ≠ .returned := by
  have hfind : ∀ p : HandlerAt → Bool, p .returned = false → 0 < s.handlersAt p →
      ∃ h ∈ s.handlers, h.place ≠ .returned := by
    intro p hp hpos
    obtain ⟨h, hmem, hplace⟩ := List.countP_pos_iff.mp hpos
    refine ⟨h, hmem, fun hreturned => ?_⟩
    rw [hreturned, hp] at hplace
    cases hplace
  cases hfd : s.listenFd with
  | true => exact hfind HandlerAt.willReset rfl (hlisten.stopped hstop hfd)
  | false =>
    have htaken := hlisten.reset hfd
    rw [taken_at hkeeps, hopen] at htaken
    have hholds : 1 ≤ s.handlersAt HandlerAt.holds := by simpa using htaken
    exact hfind HandlerAt.holds rfl hholds

theorem stopSignalHandler_handlers {s s' : State} {k : Nat} {h : Handler}
    (hstep : stopSignalHandler s k h = some s') :
    h.place ≠ .returned ∧
      (s'.handlers = s.handlers ∨ ∃ a, s'.handlers = (s.moveHandler k h a).handlers) := by
  cases hplace : h.place <;> rw [stopSignalHandler, hplace] at hstep <;> cases hstep <;>
    refine ⟨by simp, ?_⟩
  case testsStop =>
    split
    · exact .inl rfl
    · exact .inr ⟨_, rfl⟩
  all_goals exact .inr ⟨_, rfl⟩

theorem blockedInv_handler {s s' : State} {k : Nat} {h : Handler} (hinv : BlockedInv s)
    (hat : s.handlers[k]? = some h) (hstep : stopSignalHandler s k h = some s') :
    BlockedInv s' := by
  intro haccept
  rw [(stopSignalHandler_untouched hstep).main] at haccept
  obtain ⟨hreturned, -⟩ := hinv haccept
  obtain ⟨hruns, hhandlers⟩ := stopSignalHandler_handlers hstep
  have hon : h.on ≠ .main := fun hon => hruns (hreturned h (List.mem_of_getElem? hat) hon)
  rcases hhandlers with hsame | ⟨a, hmoved⟩
  · rw [hsame]
    exact ⟨hreturned, fun _ => ⟨h, List.mem_of_getElem? hat, hon⟩⟩
  · rw [hmoved]
    refine ⟨fun h' hmem hmain => ?_, fun _ => ⟨{ h with place := a }, ?_, hon⟩⟩
    · rcases List.mem_or_eq_of_mem_set hmem with hold | rfl
      · exact hreturned h' hold hmain
      · exact absurd hmain hon
    · exact List.mem_set (List.getElem?_eq_some_iff.mp hat).1 _

/-- A signal to `main` takes it out of `accept`. -/
theorem blockedInv_signal {s : State} {p : Party} {sig : StopSignal} (hinv : BlockedInv s) :
    BlockedInv (deliver s p sig) := by
  intro haccept
  by_cases hmain : p = .main ∧ s.main = .accepting
  · have hfailed : (deliver s p sig).main = .acceptFailed true := if_pos hmain
    rw [hfailed] at haccept
    cases haccept
  · have hsame : (deliver s p sig).main = s.main := if_neg hmain
    rw [hsame] at haccept
    have hp : p ≠ .main := fun hp => hmain ⟨hp, haccept⟩
    refine ⟨fun h hmem hon => ?_, fun _ =>
      ⟨⟨p, sig, .testsStop⟩, List.mem_append_right _ (List.mem_singleton.mpr rfl), hp⟩⟩
    rcases List.mem_append.mp hmem with hold | hnew
    · exact (hinv haccept).1 h hold hon
    · rw [List.mem_singleton.mp hnew] at hon
      exact absurd hon hp

theorem ClientMove.accepting {s s' : State} {i : Nat} {a : ClientAt} (hmove : ClientMove s i a s')
    (haccept : s'.main = .accepting) : s.main = .accepting := by
  cases hmove with
  | broadcasts =>
    have hgoto : (s.goto i .leavesClients).main = s.main := rfl
    rw [broadcast, hgoto] at haccept
    dsimp only at haccept
    split at haccept
    · cases haccept
    · exact haccept
  | _ => exact haccept

theorem blockedInv_main {s s' : State} (hlisten : ListenInv s)
    (hfree : s.interrupted .main = false) (hstep : MainStep s s') : BlockedInv s' := by
  have hnot : ∀ m, s'.main = m → m ≠ .accepting → BlockedInv s' := fun m hm hne haccept =>
    absurd (hm.symm.trans haccept) hne
  cases hstep with
  | goes hat hgo =>
    refine hnot _ rfl ?_
    cases hgo with
    | acceptFailed interrupted => cases s.stopRequested <;> cases interrupted <;> simp
    | _ => cases s.stopRequested <;> simp
  | takes hat hgo hclients => cases hgo <;> exact hnot _ rfl (by simp)
  | gives hat hgo => cases hgo <;> exact hnot _ rfl (by simp)
  | calls hat =>
    intro haccept
    have hreturned := returned_of_free hfree
    refine ⟨hreturned, fun hstop => ?_⟩
    have hopen : s.closed = 0 := by
      by_contra hne
      simp only [if_neg hne] at haccept
      cases haccept
    obtain ⟨h, hmem, hruns⟩ := exists_running hlisten (by rw [hat]; rfl) hopen hstop
    exact ⟨h, hmem, fun hon => hruns (hreturned h hmem hon)⟩
  | testsListen hat => exact hnot _ rfl (by split <;> simp)
  | _ => exact hnot _ rfl (by simp)

theorem blockedInv_step {s s' : State} {e : Event} (hlisten : ListenInv s) (hinv : BlockedInv s)
    (h : Advance s e s') : BlockedInv s' := by
  have hnot : ∀ m, s'.main = m → m ≠ .accepting → BlockedInv s' := fun m hm hne haccept =>
    absurd (hm.symm.trans haccept) hne
  cases h with
  | @signal p sig htakes => exact blockedInv_signal hinv
  | handler hat hstep => exact blockedInv_handler hinv hat hstep
  | @accept r hat => exact hnot r.leads rfl (by cases r <;> simp [Accepted.leads])
  | create hat => exact hnot .loop rfl (by simp)
  | createFails hat => exact hnot .waitsToUncount rfl (by simp)
  | spurious hat => exact hnot .woken rfl (by simp)
  | main hfree hstep => exact blockedInv_main hlisten hfree hstep
  | client he hat hmove =>
    have hleaves := hmove.leavesListen
    intro haccept
    rw [hleaves.handlers, hleaves.stop]
    exact hinv (hmove.accepting haccept)

theorem blockedInv_comes {s : State} (h : Reached s) : BlockedInv s := by
  induction h with
  | start hs =>
    subst hs
    intro haccept
    cases haccept
  | step h e he ih => exact blockedInv_step (listenInv_comes h) ih (advance_next he)

/-! ## The run to the end -/

theorem ClientMove.leftLoop {s s' : State} {i : Nat} {a : ClientAt} (hmove : ClientMove s i a s')
    (h : s.main.leftLoop = true) : s'.main.leftLoop = true := by
  cases hmove with
  | broadcasts =>
    have hgoto : (s.goto i .leavesClients).main = s.main := rfl
    rw [broadcast, hgoto]
    dsimp only
    split
    · rfl
    · exact h
  | _ => exact h

theorem MainStep.leftLoop {s s' : State} (hstep : MainStep s s') (h : s.main.leftLoop = true) :
    s'.main.leftLoop = true := by
  cases hstep with
  | goes hat hgo =>
    rw [hat] at h
    cases hgo <;> first | rfl | cases h
  | takes hat hgo =>
    rw [hat] at h
    cases hgo <;> first | rfl | cases h
  | gives hat hgo =>
    rw [hat] at h
    cases hgo <;> first | rfl | cases h
  | testsListen hat =>
    dsimp only
    split <;> rfl
  | calls hat => rw [hat] at h; cases h
  | counts hat => rw [hat] at h; cases h
  | uncounts hat => rw [hat] at h; cases h
  | broadcasts hat => rw [hat] at h; cases h
  | _ => rfl

/-- Nothing brings `main` back to its loop. -/
theorem Advance.leftLoop {s s' : State} {e : Event} (hstep : Advance s e s')
    (h : s.main.leftLoop = true) : s'.main.leftLoop = true := by
  cases hstep with
  | @signal p sig htakes =>
    have hnot : ¬ (p = .main ∧ s.main = .accepting) := by
      rintro ⟨-, hat⟩
      rw [hat] at h
      cases h
    have hsame : (deliver s p sig).main = s.main := if_neg hnot
    rwa [hsame]
  | handler hat hstep => rwa [(stopSignalHandler_untouched hstep).main]
  | accept hat => rw [hat] at h; cases h
  | create hat => rw [hat] at h; cases h
  | createFails hat => rw [hat] at h; cases h
  | spurious hat => rfl
  | main hfree hstep => exact hstep.leftLoop h
  | client he hat hmove => exact hmove.leftLoop h

theorem Advance.stopping {s s' : State} {e : Event} (hstep : Advance s e s') (h : Stopping s) :
    Stopping s' := h.imp hstep.stop_stays hstep.leftLoop

theorem not_killed {s : State} {e : Event} (he : Enabled s e) : s.killed = false := by
  by_contra hkilled
  rw [Enabled, advance, (Bool.not_eq_false _).mp hkilled] at he
  cases he

/-- What is left of the way behind a run, and the steps the run took on it. -/
theorem run_rank {es : List Event} {s : State} (hstop : Stopping s)
    (hrun : Guarded next Enabled s es) :
    (es.foldl next s).rank + es.countP Event.caused ≤ s.rank + (es.map Event.cost).sum := by
  induction es generalizing s with
  | nil => exact Nat.le_refl _
  | cons e es ih =>
    have hadvance := advance_next hrun.1
    have hfalls := advance_falls (not_killed hrun.1) hstop hadvance
    have hlater := ih (hadvance.stopping hstop) hrun.2
    have hcaused : (if e.caused = true then 1 else 0) = e.caused.toNat := by
      cases e.caused <;> rfl
    rw [List.foldl_cons, List.countP_cons, List.map_cons, List.sum_cons, hcaused]
    omega

theorem run_stopping {es : List Event} {s : State} (hstop : Stopping s)
    (hrun : Guarded next Enabled s es) : Stopping (es.foldl next s) := by
  induction es generalizing s with
  | nil => exact hstop
  | cons e es ih => exact ih ((advance_next hrun.1).stopping hstop) hrun.2

theorem run_leftLoop {es : List Event} {s : State} (h : s.main.leftLoop = true)
    (hrun : Guarded next Enabled s es) : (es.foldl next s).main.leftLoop = true := by
  induction es generalizing s with
  | nil => exact h
  | cons e es ih => exact ih ((advance_next hrun.1).leftLoop h) hrun.2

/-- The way to the end: behind the stop a run takes no more steps than its way is long and its
signals and wake-ups cost. Where nobody can go on, every client thread has finished, and `main` has
returned; but it may still be blocked in `accept` where it had not left its loop, and then a thread
that is not `main` ran the handler. -/
theorem shutdown_ends {s : State} (h : Reached s) (hstop : Stopping s) {es : List Event}
    (hrun : Guarded next Enabled s es) :
    es.countP Event.caused ≤ s.rank + (es.map Event.cost).sum ∧
      ((es.foldl next s).killed = false →
        (∀ e, e.caused = true → ¬ Enabled (es.foldl next s) e) →
        (∀ a ∈ (es.foldl next s).threads, a = .finished) ∧
          ((es.foldl next s).main = .returned ∨
            (es.foldl next s).main = .accepting ∧ s.main.leftLoop = false ∧
              ∃ h ∈ (es.foldl next s).handlers, h.on ≠ .main)) := by
  refine ⟨?_, fun hlive hstuck => ?_⟩
  · have hway := run_rank hstop hrun
    omega
  · have hreached := comes_run es h hrun
    have hrest : AtRest (es.foldl next s) := by
      by_contra hmore
      obtain ⟨e, he, hon⟩ := exists_step (inv_comes hreached) hlive hmore
      exact hstuck e he hon
    refine ⟨hrest.2.1, hrest.1.imp_right fun haccept => ⟨haccept, ?_, ?_⟩⟩
    · by_contra hleft
      have hleft := run_leftLoop ((Bool.not_eq_false _).mp hleft) hrun
      rw [haccept] at hleft
      cases hleft
    · have hstopped : (es.foldl next s).stopRequested = true := by
        refine (run_stopping hstop hrun).resolve_right ?_
        rw [haccept]
        decide
      exact (blockedInv_comes hreached haccept).2 hstopped

/-- The thread of a request runs the handler: `main` stays in `accept`. -/
example :
    let s := [Event.main, .main, .accept .connection, .main, .main, .main, .main, .create true,
      .main, .main, .signal (.client 0) .interrupt, .handler 0, .handler 0, .handler 0, .handler 0,
      .handler 0, .handler 0, .request 0 false, .client 0, .client 0, .client 0, .client 0,
      .client 0].foldl next {}
    s.stopRequested = true ∧ s.main = .accepting ∧ s.threads = [.finished] ∧ s.clients = 0 := by
  decide

/-- The signal takes `main` out of `accept` while a request is under generation. -/
def interruptedRun : List Event :=
  [.main, .main, .accept .connection, .main, .main, .main, .main, .create true, .main, .main,
    .request 0 true, .client 0, .client 0, .parsed 0 true, .client 0, .client 0,
    .signal .main .interrupt, .handler 0, .handler 0]

/-- `main` sleeps until the thread of the request has finished. -/
def drainRun : List Event :=
  [.handler 0, .handler 0, .handler 0, .handler 0, .main, .main, .main, .main, .client 0, .client 0,
    .client 0, .client 0, .client 0, .client 0, .client 0, .main, .main, .main, .main, .main, .main,
    .main]

theorem shutdown_ends_drained :
    (drainRun.foldl next (interruptedRun.foldl next {})).threads = [.finished] ∧
      ((drainRun.foldl next (interruptedRun.foldl next {})).main = .returned ∨
        (drainRun.foldl next (interruptedRun.foldl next {})).main = .accepting ∧
          (interruptedRun.foldl next {}).main.leftLoop = false ∧
            ∃ h ∈ (drainRun.foldl next (interruptedRun.foldl next {})).handlers,
              h.on ≠ .main) := by
  have hall : Guarded next Enabled {} (interruptedRun ++ drainRun) := by
    simp only [interruptedRun, drainRun, List.cons_append, List.nil_append, Guarded]
    decide
  obtain ⟨hbefore, hbehind⟩ := guarded_append.mp hall
  have hreached : Reached (interruptedRun.foldl next {}) :=
    comes_run interruptedRun (.start rfl) hbefore
  have hrest : AtRest (drainRun.foldl next (interruptedRun.foldl next {})) :=
    ⟨.inl (by decide), by decide, by decide⟩
  exact ⟨by decide, ((shutdown_ends hreached (.inl (by decide)) hbehind).2 (by decide)
    fun e he => hrest.stuck he).2⟩

end Sf37.Server.Shutdown
