/-
Sf37.Quantize.ExpertWorkers — the threads that make the experts of a routed matrix.

A worker takes the number of an expert from a counter, reads the two tensors of the expert from
files that it shares with the other workers, and copies the bytes it has made into its part of
the output. A step is what a worker does between two places where another may come in; the copy
is a step for each byte. An error exit ends the program.

* `workerStep_effect`: what a step does with the mutexes, the counter and the files.
* `inv_run`: what holds in every order of the steps.
-/
import Sf37.Quantize.GenerateExpert
import Sf37.Run.Tickets

namespace Sf37.Quantize.Experts

open Sf37.Run Sf37.Text

/-! ## The source -/

/-- What `db_tensor` has found: the name of the shard's file, the shard and the entry. -/
structure Found where
  file : Bytes
  shard : Shard
  entry : TensorEntry

/-- `db_tensor` -/
def dbFind (db : StDb) (name : Bytes) : Option Found := do
  let w ← hmapGet WeightMapEntry.name db.weights name
  let s ← db.shard w.file
  let te ← hmapGet TensorEntry.name s.tensors name
  some ⟨w.file, s, te⟩

/-- Where a worker stands: `expert_worker`, `generate_one_expert`, `db_read` and `db_tensor`. While it
reads the scales it has the weights. -/
inductive WorkerAt where
  /-- before `pthread_mutex_lock(&j->lock)` -/
  | waitsForJob
  /-- `int xid = j->next++` -/
  | takes
  | leavesJob (xid : ℕ)
  /-- `if (xid >= j->n_experts) break` -/
  | tests (xid : ℕ)
  /-- before `pthread_mutex_lock(&db->lock)` -/
  | waitsForDb (xid : ℕ) (w : Option StValue)
  | inDb (xid : ℕ) (w : Option StValue)
  | leavesDb (xid : ℕ) (w : Option StValue) (f : Found)
  /-- before `pthread_mutex_lock(&s->lock)` -/
  | waitsForShard (xid : ℕ) (w : Option StValue) (f : Found)
  /-- `fseeko` -/
  | seeks (xid : ℕ) (w : Option StValue) (f : Found)
  /-- `fread` -/
  | reads (xid : ℕ) (w : Option StValue) (f : Found)
  | leavesShard (xid : ℕ) (w : Option StValue) (f : Found) (v : StValue)
  | converts (xid : ℕ) (w s : StValue)
  /-- `memcpy`, with the bytes that are left -/
  | copies (xid : ℕ) (done todo : Bytes)
  | waitsToCount (xid : ℕ)
  /-- `++j->done` -/
  | counts (xid : ℕ)
  | leavesCount
  | finished

/-- What the workers share. -/
structure State where
  workers : List WorkerAt
  next : ℕ
  done : ℕ
  jobLock : Option ℕ
  dbLock : Option ℕ
  /-- the `lock` of each shard, by the name of its file -/
  shardLock : Bytes → Option ℕ
  loaded : Bytes → Bool
  /-- where the `fp` of a shard stands -/
  position : Bytes → ℕ
  out : ℕ → UInt8
  died : Bool

/-- The value of a function at one place. -/
def update {α β : Type} [DecidableEq α] (f : α → β) (a : α) (b : β) : α → β :=
  fun c => if c = a then b else f c

namespace ExpertJob

variable (J : ExpertJob)

/-- The tensor that is read next. -/
def readName (xid : ℕ) : Option StValue → Bytes
  | none => J.weightName xid
  | some _ => J.scaleName xid

/-- The rest of the part under `db->lock`: the error exits of `db_tensor`, or `shard_load`, which leaves
the file of a new shard behind its header. -/
def findStep (s : State) (i xid : ℕ) (w : Option StValue) : Option Found → Option State
  | none => some { s with died := true }
  | some f =>
      some { s with
        workers := s.workers.set i (.leavesDb xid w f)
        loaded := update s.loaded f.file true
        position := if s.loaded f.file then s.position
          else update s.position f.file f.shard.dataBase }

/-- What is copied, or an error exit. -/
def convertStep (s : State) (i xid : ℕ) : Option Bytes → Option State
  | none => some { s with died := true }
  | some q => some { s with workers := s.workers.set i (.copies xid [] q) }

/-- A step of the worker `i`; a worker that waits for a mutex or has finished takes none. -/
def workerStep (s : State) (i : ℕ) : WorkerAt → Option State
  | .waitsForJob =>
      if s.jobLock = none then
        some { s with workers := s.workers.set i .takes, jobLock := some i }
      else none
  | .takes => some { s with workers := s.workers.set i (.leavesJob s.next), next := s.next + 1 }
  | .leavesJob xid => some { s with workers := s.workers.set i (.tests xid), jobLock := none }
  | .tests xid =>
      some { s with workers :=
        s.workers.set i (if J.nExperts ≤ xid then .finished else .waitsForDb xid none) }
  | .waitsForDb xid w =>
      if s.dbLock = none then
        some { s with workers := s.workers.set i (.inDb xid w), dbLock := some i }
      else none
  | .inDb xid w => findStep s i xid w (dbFind J.db (J.readName xid w))
  | .leavesDb xid w f =>
      some { s with workers := s.workers.set i (.waitsForShard xid w f), dbLock := none }
  | .waitsForShard xid w f =>
      if s.shardLock f.file = none then
        some { s with
          workers := s.workers.set i (.seeks xid w f)
          shardLock := update s.shardLock f.file (some i) }
      else none
  | .seeks xid w f =>
      let place := f.shard.place f.entry.info
      if 2 ^ 63 ≤ place then some { s with died := true }
      else some { s with
        workers := s.workers.set i (.reads xid w f)
        position := update s.position f.file place }
  | .reads xid w f =>
      let data := (f.shard.file.drop (s.position f.file)).take f.entry.info.nbytes
      if data.length ≠ f.entry.info.nbytes then some { s with died := true }
      else some { s with
        workers := s.workers.set i
          (.leavesShard xid w f ⟨f.entry.info.dtype, f.entry.info.shape, data⟩)
        position := update s.position f.file (s.position f.file + data.length) }
  | .leavesShard xid w f v =>
      some { s with
        workers := s.workers.set i (match w with
          | none => .waitsForDb xid (some v)
          | some w => .converts xid w v)
        shardLock := update s.shardLock f.file none }
  | .converts xid w v => convertStep s i xid (J.convert xid w v)
  | .copies xid _ [] => some { s with workers := s.workers.set i (.waitsToCount xid) }
  | .copies xid done (c :: todo) =>
      some { s with
        workers := s.workers.set i (.copies xid (done ++ [c]) todo)
        out := update s.out (xid * J.perExpert + done.length) c }
  | .waitsToCount xid =>
      if s.jobLock = none then
        some { s with workers := s.workers.set i (.counts xid), jobLock := some i }
      else none
  | .counts _ =>
      some { s with workers := s.workers.set i .leavesCount, done := s.done + 1 }
  | .leavesCount =>
      some { s with workers := s.workers.set i .waitsForJob, jobLock := none }
  | .finished => none

/-- The step of the worker whose turn it is. -/
def advance (s : State) (i : ℕ) : Option State :=
  if s.died then none else s.workers[i]?.bind (J.workerStep s i)

/-- The turn of a worker that can not go on changes nothing. -/
def next (s : State) (i : ℕ) : State := (J.advance s i).getD s

/-- The workers of `generate_expert`: the threads and the one that made them. -/
def workerCount (nThreads : ℤ) : ℕ :=
  let count := if 0 < nThreads then nThreads.toNat else 8
  let count := if J.nExperts < count then J.nExperts else count
  if count < 1 then 1 else count

/-- The job before the workers begin; some shards have been loaded for other tensors. -/
def start (nThreads : ℤ) (loaded : Bytes → Bool) (position : Bytes → ℕ) (out : ℕ → UInt8) : State where
  workers := List.replicate (J.workerCount nThreads) .waitsForJob
  next := 0
  done := 0
  jobLock := none
  dbLock := none
  shardLock _ := none
  loaded := loaded
  position := position
  out := out
  died := false

end ExpertJob

/-! ## The parts of the code -/

namespace WorkerAt

/-- The part under `j->lock`. -/
def InJob : WorkerAt → Prop
  | .takes | .leavesJob _ | .counts _ | .leavesCount => True
  | _ => False

/-- The part under `db->lock`. -/
def InDb : WorkerAt → Prop
  | .inDb _ _ | .leavesDb _ _ _ => True
  | _ => False

/-- The part under the lock of a shard. -/
def InShard (file : Bytes) : WorkerAt → Prop
  | .seeks _ _ f | .reads _ _ f | .leavesShard _ _ f _ => f.file = file
  | _ => False

/-- The expert that the worker has taken and not counted. -/
def held : WorkerAt → Option ℕ
  | .leavesJob xid | .tests xid | .waitsForDb xid _ | .inDb xid _ | .leavesDb xid _ _
  | .waitsForShard xid _ _ | .seeks xid _ _ | .reads xid _ _ | .leavesShard xid _ _ _
  | .converts xid _ _ | .copies xid _ _ | .waitsToCount xid | .counts xid => some xid
  | .waitsForJob | .takes | .leavesCount | .finished => none

end WorkerAt

/-- What the read of the scales costs, while it is ahead. -/
def toRead : Option StValue → ℕ
  | none => 7
  | some _ => 0

/-- How far a worker is from its end, when there are no more experts to take. -/
def WorkerAt.rank (J : ExpertJob) : WorkerAt → ℕ
  | .finished => 0
  | .takes => 4
  | .waitsForJob => 5
  | .leavesCount => 6
  | .counts _ => 7
  | .waitsToCount _ => 8
  | .copies _ _ todo => todo.length + 9
  | .converts _ _ _ => J.perExpert + 10
  | .leavesShard _ w _ _ => J.perExpert + toRead w + 11
  | .reads _ w _ => J.perExpert + toRead w + 12
  | .seeks _ w _ => J.perExpert + toRead w + 13
  | .waitsForShard _ w _ => J.perExpert + toRead w + 14
  | .leavesDb _ w _ => J.perExpert + toRead w + 15
  | .inDb _ w => J.perExpert + toRead w + 16
  | .waitsForDb _ w => J.perExpert + toRead w + 17
  | .tests xid => if xid < J.nExperts then J.perExpert + 25 else 2
  | .leavesJob xid => if xid < J.nExperts then J.perExpert + 26 else 3

/-- What the experts that have not been taken will cost. -/
def ahead (J : ExpertJob) (next : ℕ) : ℕ := (J.nExperts - next) * (J.perExpert + 23)

/-- How far the workers together are from their end. -/
def State.rank (J : ExpertJob) (s : State) : ℕ :=
  (s.workers.map (WorkerAt.rank J)).sum + ahead J s.next

/-- What the worker knows of the expert it has taken. -/
def Knows (J : ExpertJob) (s : State) : WorkerAt → Prop
  | .waitsForDb xid w | .inDb xid w =>
      xid < J.nExperts ∧ ∀ v ∈ w, dbRead J.db (J.weightName xid) = some v
  | .leavesDb xid w f | .waitsForShard xid w f | .seeks xid w f =>
      (xid < J.nExperts ∧ ∀ v ∈ w, dbRead J.db (J.weightName xid) = some v) ∧
        dbFind J.db (J.readName xid w) = some f ∧ s.loaded f.file = true
  | .reads xid w f =>
      (xid < J.nExperts ∧ ∀ v ∈ w, dbRead J.db (J.weightName xid) = some v) ∧
        dbFind J.db (J.readName xid w) = some f ∧ s.loaded f.file = true ∧
        f.shard.place f.entry.info < 2 ^ 63 ∧ s.position f.file = f.shard.place f.entry.info
  | .leavesShard xid w _ v =>
      (xid < J.nExperts ∧ ∀ v ∈ w, dbRead J.db (J.weightName xid) = some v) ∧
        dbRead J.db (J.readName xid w) = some v
  | .converts xid w v =>
      xid < J.nExperts ∧ dbRead J.db (J.weightName xid) = some w ∧
        dbRead J.db (J.scaleName xid) = some v
  | .copies xid done todo =>
      xid < J.nExperts ∧ J.generateOneExpert xid = some (done ++ todo) ∧
        ∀ k < done.length, some (s.out (xid * J.perExpert + k)) = done[k]?
  | .waitsToCount xid | .counts xid =>
      xid < J.nExperts ∧ ∃ q, J.generateOneExpert xid = some q ∧
        ∀ k < q.length, some (s.out (xid * J.perExpert + k)) = q[k]?
  | .leavesJob xid | .tests xid => xid < s.next
  | .finished => J.nExperts ≤ s.next
  | .waitsForJob | .takes | .leavesCount => True

/-- The bytes of an expert stand in the output. -/
def Stored (J : ExpertJob) (s : State) (xid : ℕ) : Prop :=
  ∃ q, J.generateOneExpert xid = some q ∧
    ∀ k < q.length, some (s.out (xid * J.perExpert + k)) = q[k]?

/-- A worker that has taken an expert below the number of them. -/
def Working (J : ExpertJob) (a : WorkerAt) : Bool :=
  match a.held with
  | some xid => decide (xid < J.nExperts)
  | none => false

theorem working_some {J : ExpertJob} {a : WorkerAt} {xid : ℕ} (h : a.held = some xid) :
    Working J a = decide (xid < J.nExperts) := by
  rw [Working, h]

theorem working_none {J : ExpertJob} {a : WorkerAt} (h : a.held = none) : Working J a = false := by
  rw [Working, h]

theorem rank_tests {J : ExpertJob} {xid : ℕ} (h : xid < J.nExperts) :
    (WorkerAt.tests xid).rank J = J.perExpert + 25 ∧
      (WorkerAt.leavesJob xid).rank J = J.perExpert + 26 := ⟨if_pos h, if_pos h⟩

theorem rank_tests_last {J : ExpertJob} {xid : ℕ} (h : J.nExperts ≤ xid) :
    (WorkerAt.tests xid).rank J = 2 ∧ (WorkerAt.leavesJob xid).rank J = 3 :=
  ⟨if_neg (Nat.not_lt.mpr h), if_neg (Nat.not_lt.mpr h)⟩

/-- What holds whatever the order of the steps was; `out` is the output before. -/
structure Inv (J : ExpertJob) (out : ℕ → UInt8) (s : State) : Prop where
  workers : s.workers ≠ []
  tickets : Tickets WorkerAt.held s.next s.workers
  job : Owns s.jobLock (Stands WorkerAt.InJob s.workers)
  db : Owns s.dbLock (Stands WorkerAt.InDb s.workers)
  shard : ∀ file, Owns (s.shardLock file) (Stands (WorkerAt.InShard file) s.workers)
  knows : ∀ (i : ℕ) (a : WorkerAt), s.workers[i]? = some a → Knows J s a
  stored : ∀ xid < J.nExperts, Settled WorkerAt.held s.next s.workers xid → Stored J s xid
  count : s.done + s.workers.countP (Working J) = min s.next J.nExperts
  beyond : ∀ a, J.nExperts * J.perExpert ≤ a → s.out a = out a
  died : s.died = true → ∃ xid < J.nExperts, J.generateOneExpert xid = none

/-! ## What a step can do -/

/-- What the step of a worker from one place to another does with the mutexes. -/
structure LockEffect (s s' : State) (i : ℕ) (a b : WorkerAt) : Prop where
  job : LockMove i a.InJob b.InJob s.jobLock s'.jobLock
  db : LockMove i a.InDb b.InDb s.dbLock s'.dbLock
  shard : ∀ file, LockMove i (a.InShard file) (b.InShard file) (s.shardLock file)
    (s'.shardLock file)

/-- What it does with the files and the output: a file is moved under its lock or when it is new, and
the output is written in the part of the expert. -/
structure MemoryEffect (J : ExpertJob) (s s' : State) (a : WorkerAt) : Prop where
  loaded : ∀ file, s.loaded file = true → s'.loaded file = true
  position : ∀ file, s'.position file = s.position file ∨ a.InShard file ∨ s.loaded file = false
  out : ∀ k, s'.out k = s.out k ∨ ∃ xid, a.held = some xid ∧ xid < J.nExperts ∧
    xid * J.perExpert ≤ k ∧ k < xid * J.perExpert + J.perExpert

/-- And what it does with all the rest. -/
structure Effect (J : ExpertJob) (s s' : State) (i : ℕ) (a b : WorkerAt) : Prop where
  workers : s'.workers = s.workers.set i b
  died : s'.died = s.died
  ticket : TicketMove a.held b.held s.next s'.next
  locks : LockEffect s s' i a b
  memory : MemoryEffect J s s' a
  count : s'.done + (Working J b).toNat + min s.next J.nExperts =
    s.done + (Working J a).toNat + min s'.next J.nExperts
  rank : b.rank J + ahead J s'.next < a.rank J + ahead J s.next
  knows : Knows J s' b
  drops : ∀ xid, a.held = some xid → b.held = none → xid < J.nExperts → Stored J s' xid

theorem LockEffect.same {s s' : State} {i : ℕ} {a b : WorkerAt} (hjob : s'.jobLock = s.jobLock)
    (hdb : s'.dbLock = s.dbLock) (hshard : s'.shardLock = s.shardLock) (ha : b.InJob ↔ a.InJob)
    (hb : b.InDb ↔ a.InDb) (hc : ∀ file, b.InShard file ↔ a.InShard file) :
    LockEffect s s' i a b := by
  refine ⟨?_, ?_, fun file => ?_⟩
  · rw [hjob]
    exact .keeps ha
  · rw [hdb]
    exact .keeps hb
  · rw [hshard]
    exact .keeps (hc file)

theorem MemoryEffect.same {J : ExpertJob} {s s' : State} {a : WorkerAt}
    (hloaded : s'.loaded = s.loaded) (hposition : s'.position = s.position)
    (hout : s'.out = s.out) : MemoryEffect J s s' a :=
  ⟨fun _ h => hloaded ▸ h, fun _ => .inl (by rw [hposition]), fun _ => .inl (by rw [hout])⟩

/-- A step that only goes on. -/
theorem Effect.plain {J : ExpertJob} {s s' : State} {i : ℕ} {a b : WorkerAt} {xid : ℕ}
    (hworkers : s'.workers = s.workers.set i b) (hdied : s'.died = s.died)
    (hnext : s'.next = s.next) (hdone : s'.done = s.done) (locks : LockEffect s s' i a b)
    (memory : MemoryEffect J s s' a) (ha : a.held = some xid) (hb : b.held = some xid)
    (hrank : b.rank J < a.rank J) (knows : Knows J s' b) : Effect J s s' i a b where
  workers := hworkers
  died := hdied
  ticket := by
    rw [ha, hb, hnext]
    exact .keeps
  locks := locks
  memory := memory
  count := by rw [hnext, hdone, working_some ha, working_some hb]
  rank := by
    rw [hnext]
    exact Nat.add_lt_add_right hrank _
  knows := knows
  drops x _ hnone := by
    rw [hb] at hnone
    cases hnone

section Reading

variable {J : ExpertJob} {xid : ℕ} {w : Option StValue}

theorem dbTensor_eq_dbFind (db : StDb) (name : Bytes) :
    dbTensor db name = (dbFind db name).map fun f => (f.entry, f.shard) := by
  unfold dbTensor dbFind
  cases hmapGet WeightMapEntry.name db.weights name with
  | none => rfl
  | some e =>
    simp only [bind, Option.bind_some]
    cases db.shard e.file with
    | none => rfl
    | some s =>
      simp only [Option.bind_some]
      cases hmapGet TensorEntry.name s.tensors name <;> rfl

theorem dbRead_found {db : StDb} {name : Bytes} {f : Found} (h : dbFind db name = some f) :
    dbRead db name =
      if 2 ^ 63 ≤ f.shard.place f.entry.info ∨
          ((f.shard.file.drop (f.shard.place f.entry.info)).take f.entry.info.nbytes).length ≠
            f.entry.info.nbytes then none
      else some ⟨f.entry.info.dtype, f.entry.info.shape,
        (f.shard.file.drop (f.shard.place f.entry.info)).take f.entry.info.nbytes⟩ := by
  rw [dbRead, dbTensor_eq_dbFind, h]
  rfl

/-- A read that fails is one that the expert can not do without. -/
theorem generateOneExpert_unread (hw : ∀ v ∈ w, dbRead J.db (J.weightName xid) = some v)
    (h : dbRead J.db (J.readName xid w) = none) : J.generateOneExpert xid = none := by
  unfold ExpertJob.generateOneExpert
  cases w with
  | none =>
    rw [show dbRead J.db (J.weightName xid) = none from h]
    rfl
  | some v =>
    rw [hw v rfl, show dbRead J.db (J.scaleName xid) = none from h]
    rfl

theorem generateOneExpert_read {v s : StValue} (hw : dbRead J.db (J.weightName xid) = some v)
    (hs : dbRead J.db (J.scaleName xid) = some s) : J.generateOneExpert xid = J.convert xid v s := by
  rw [ExpertJob.generateOneExpert, hw, hs]
  rfl

end Reading

theorem update_self {α β : Type} [DecidableEq α] (f : α → β) (a : α) (b : β) : update f a b a = b :=
  if_pos rfl

theorem update_of_ne {α β : Type} [DecidableEq α] (f : α → β) {a c : α} (b : β) (h : c ≠ a) :
    update f a b c = f c := if_neg h

/-- The lock of one shard. -/
theorem shardMove {s : State} {i : ℕ} {a b : WorkerAt} {f : Bytes} {owner : Option ℕ}
    (hone : LockMove i (a.InShard f) (b.InShard f) (s.shardLock f) owner)
    (hother : ∀ file ≠ f, (b.InShard file ↔ a.InShard file)) (file : Bytes) :
    LockMove i (a.InShard file) (b.InShard file) (s.shardLock file)
      (update s.shardLock f owner file) := by
  by_cases hfile : file = f
  · subst hfile
    rw [update_self]
    exact hone
  · rw [update_of_ne _ _ hfile]
    exact .keeps (hother file hfile)

theorem takes_rank (J : ExpertJob) (next : ℕ) :
    (WorkerAt.leavesJob next).rank J + ahead J (next + 1) < WorkerAt.takes.rank J + ahead J next := by
  have hfour : WorkerAt.takes.rank J = 4 := rfl
  rw [ahead, ahead, hfour]
  rcases Nat.lt_or_ge next J.nExperts with hlt | hge
  · have hone : J.nExperts - next = J.nExperts - (next + 1) + 1 := by omega
    rw [(rank_tests hlt).2, hone, Nat.succ_mul]
    omega
  · rw [(rank_tests_last hge).2, Nat.sub_eq_zero_of_le hge, Nat.sub_eq_zero_of_le (by omega)]
    omega

section Step

variable {J : ExpertJob} {s s' : State} {i : ℕ}

theorem tests_effect {xid : ℕ} (hknows : Knows J s (.tests xid))
    (h : J.workerStep s i (.tests xid) = some s') : ∃ b, Effect J s s' i (.tests xid) b := by
  cases h
  have hbelow : xid < s.next := hknows
  by_cases hlt : J.nExperts ≤ xid
  · rw [if_pos hlt]
    refine ⟨.finished, ⟨rfl, rfl, .drops, .same rfl rfl rfl Iff.rfl Iff.rfl fun _ => Iff.rfl,
      .same rfl rfl rfl, ?_, ?_, Nat.le_trans hlt (Nat.le_of_lt hbelow), ?_⟩⟩
    · rw [working_none rfl, working_some rfl, decide_eq_false (Nat.not_lt.mpr hlt)]
    · rw [(rank_tests_last hlt).1]
      exact Nat.add_lt_add_right Nat.two_pos _
    · rintro x ⟨rfl⟩ - hx
      exact absurd hx (Nat.not_lt.mpr hlt)
  · rw [if_neg hlt]
    refine ⟨.waitsForDb xid none, .plain rfl rfl rfl rfl
      (.same rfl rfl rfl Iff.rfl Iff.rfl fun _ => Iff.rfl) (.same rfl rfl rfl) rfl rfl ?_
      ⟨Nat.lt_of_not_le hlt, by simp⟩⟩
    rw [(rank_tests (Nat.lt_of_not_le hlt)).1]
    exact Nat.lt_succ_self _

theorem inDb_effect {xid : ℕ} {w : Option StValue} (hknows : Knows J s (.inDb xid w))
    (h : J.workerStep s i (.inDb xid w) = some s') :
    (∃ b, Effect J s s' i (.inDb xid w) b) ∨
      s' = { s with died := true } ∧ ∃ xid < J.nExperts, J.generateOneExpert xid = none := by
  change ExpertJob.findStep s i xid w (dbFind J.db (J.readName xid w)) = some s' at h
  cases hfind : dbFind J.db (J.readName xid w) with
  | none =>
    rw [hfind] at h
    cases h
    refine .inr ⟨rfl, xid, hknows.1, generateOneExpert_unread hknows.2 ?_⟩
    rw [dbRead, dbTensor_eq_dbFind, hfind]
    rfl
  | some f =>
    rw [hfind] at h
    cases h
    refine .inl ⟨.leavesDb xid w f, .plain rfl rfl rfl rfl
      (.same rfl rfl rfl Iff.rfl Iff.rfl fun _ => Iff.rfl) ⟨?_, ?_, fun _ => .inl rfl⟩ rfl rfl
      (Nat.lt_succ_self _) ⟨hknows, hfind, update_self _ _ _⟩⟩
    · intro file hfile
      by_cases hsame : file = f.file
      · exact if_pos hsame
      · exact (if_neg hsame).trans hfile
    · intro file
      by_cases hloaded : s.loaded f.file = true
      · exact .inl (congrFun (if_pos hloaded) file)
      · rw [if_neg hloaded]
        by_cases hfile : file = f.file
        · subst hfile
          exact .inr (.inr ((Bool.not_eq_true _).mp hloaded))
        · exact .inl (update_of_ne _ _ hfile)

theorem seeks_effect {xid : ℕ} {w : Option StValue} {f : Found} (hknows : Knows J s (.seeks xid w f))
    (h : J.workerStep s i (.seeks xid w f) = some s') :
    (∃ b, Effect J s s' i (.seeks xid w f) b) ∨
      s' = { s with died := true } ∧ ∃ xid < J.nExperts, J.generateOneExpert xid = none := by
  obtain ⟨hread, hfind, hloaded⟩ := hknows
  change (if 2 ^ 63 ≤ f.shard.place f.entry.info then some _ else some _) = some s' at h
  split at h
  · rename_i hplace
    cases h
    refine .inr ⟨rfl, xid, hread.1, generateOneExpert_unread hread.2 ?_⟩
    rw [dbRead_found hfind, if_pos (.inl hplace)]
  · rename_i hplace
    cases h
    refine .inl ⟨.reads xid w f, .plain rfl rfl rfl rfl
      (.same rfl rfl rfl Iff.rfl Iff.rfl fun _ => Iff.rfl)
      ⟨fun _ h => h, fun file => ?_, fun _ => .inl rfl⟩ rfl rfl (Nat.lt_succ_self _)
      ⟨hread, hfind, hloaded, Nat.lt_of_not_le hplace, update_self _ _ _⟩⟩
    by_cases hfile : file = f.file
    · subst hfile
      exact .inr (.inl rfl)
    · exact .inl (update_of_ne _ _ hfile)

theorem reads_effect {xid : ℕ} {w : Option StValue} {f : Found} (hknows : Knows J s (.reads xid w f))
    (h : J.workerStep s i (.reads xid w f) = some s') :
    (∃ b, Effect J s s' i (.reads xid w f) b) ∨
      s' = { s with died := true } ∧ ∃ xid < J.nExperts, J.generateOneExpert xid = none := by
  obtain ⟨hread, hfind, hloaded, hplace, hpos⟩ := hknows
  change (if ((f.shard.file.drop (s.position f.file)).take f.entry.info.nbytes).length ≠
    f.entry.info.nbytes then some _ else some _) = some s' at h
  rw [hpos] at h
  have hfound := dbRead_found hfind
  split at h
  · rename_i hshort
    cases h
    refine .inr ⟨rfl, xid, hread.1, generateOneExpert_unread hread.2 ?_⟩
    rw [hfound, if_pos (.inr hshort)]
  · rename_i hfull
    cases h
    refine .inl ⟨.leavesShard xid w f _, .plain rfl rfl rfl rfl
      (.same rfl rfl rfl Iff.rfl Iff.rfl fun _ => Iff.rfl)
      ⟨fun _ h => h, fun file => ?_, fun _ => .inl rfl⟩ rfl rfl (Nat.lt_succ_self _) ⟨hread, ?_⟩⟩
    · by_cases hfile : file = f.file
      · subst hfile
        exact .inr (.inl rfl)
      · exact .inl (update_of_ne _ _ hfile)
    · rw [hfound, if_neg (not_or.mpr ⟨Nat.not_le.mpr hplace, hfull⟩)]

theorem leavesShard_effect {xid : ℕ} {w : Option StValue} {f : Found} {v : StValue}
    (hknows : Knows J s (.leavesShard xid w f v))
    (h : J.workerStep s i (.leavesShard xid w f v) = some s') :
    ∃ b, Effect J s s' i (.leavesShard xid w f v) b := by
  obtain ⟨hread, hv⟩ := hknows
  cases h
  have hgives : ∀ file ≠ f.file, (False ↔ f.file = file) := fun file hfile =>
    iff_of_false id (Ne.symm hfile)
  cases w with
  | none =>
    refine ⟨.waitsForDb xid (some v), .plain rfl rfl rfl rfl
      ⟨.keeps Iff.rfl, .keeps Iff.rfl, shardMove (.gives rfl id) hgives⟩ (.same rfl rfl rfl)
      rfl rfl (Nat.lt_succ_self _) ⟨hread.1, ?_⟩⟩
    rintro u ⟨rfl⟩
    exact hv
  | some u =>
    exact ⟨.converts xid u v, .plain rfl rfl rfl rfl
      ⟨.keeps Iff.rfl, .keeps Iff.rfl, shardMove (.gives rfl id) hgives⟩ (.same rfl rfl rfl)
      rfl rfl (Nat.lt_succ_self _) ⟨hread.1, hread.2 u rfl, hv⟩⟩

theorem converts_effect {xid : ℕ} {w v : StValue} (hknows : Knows J s (.converts xid w v))
    (h : J.workerStep s i (.converts xid w v) = some s') :
    (∃ b, Effect J s s' i (.converts xid w v) b) ∨
      s' = { s with died := true } ∧ ∃ xid < J.nExperts, J.generateOneExpert xid = none := by
  obtain ⟨hlt, hw, hv⟩ := hknows
  have hone := generateOneExpert_read hw hv
  change ExpertJob.convertStep s i xid (J.convert xid w v) = some s' at h
  cases hq : J.convert xid w v with
  | none =>
    rw [hq] at h
    cases h
    exact .inr ⟨rfl, xid, hlt, hone.trans hq⟩
  | some q =>
    rw [hq] at h
    cases h
    refine .inl ⟨.copies xid [] q, .plain rfl rfl rfl rfl
      (.same rfl rfl rfl Iff.rfl Iff.rfl fun _ => Iff.rfl) (.same rfl rfl rfl) rfl rfl ?_
      ⟨hlt, hone.trans hq, fun k hk => absurd hk (Nat.not_lt_zero k)⟩⟩
    change q.length + 9 < J.perExpert + 10
    rw [length_convert hq]
    exact Nat.lt_succ_self _

theorem copies_effect {xid : ℕ} {done todo : Bytes} (hknows : Knows J s (.copies xid done todo))
    (h : J.workerStep s i (.copies xid done todo) = some s') :
    ∃ b, Effect J s s' i (.copies xid done todo) b := by
  obtain ⟨hlt, hone, hout⟩ := hknows
  cases todo with
  | nil =>
    cases h
    rw [List.append_nil] at hone
    exact ⟨.waitsToCount xid, .plain rfl rfl rfl rfl
      (.same rfl rfl rfl Iff.rfl Iff.rfl fun _ => Iff.rfl) (.same rfl rfl rfl) rfl rfl
      (Nat.lt_succ_self _) ⟨hlt, done, hone, hout⟩⟩
  | cons c todo =>
    cases h
    have hlen := length_generateOneExpert hone
    rw [List.length_append, List.length_cons] at hlen
    refine ⟨.copies xid (done ++ [c]) todo, .plain rfl rfl rfl rfl
      (.same rfl rfl rfl Iff.rfl Iff.rfl fun _ => Iff.rfl)
      ⟨fun _ h => h, fun _ => .inl rfl, fun k => ?_⟩ rfl rfl (Nat.lt_succ_self _)
      ⟨hlt, ?_, fun k hk => ?_⟩⟩
    · by_cases hk : k = xid * J.perExpert + done.length
      · exact .inr ⟨xid, rfl, hlt, by omega, by omega⟩
      · exact .inl (update_of_ne _ _ hk)
    · rw [List.append_assoc]
      exact hone
    · rw [List.length_append, List.length_singleton] at hk
      change some (update s.out _ c (xid * J.perExpert + k)) = (done ++ [c])[k]?
      rcases Nat.lt_succ_iff_lt_or_eq.mp hk with hold | rfl
      · rw [update_of_ne _ _ (by omega), hout k hold, List.getElem?_append_left hold]
      · rw [update_self, List.getElem?_concat_length]

theorem takes_effect (h : J.workerStep s i .takes = some s') :
    Effect J s s' i .takes (.leavesJob s.next) := by
  cases h
  refine ⟨rfl, rfl, .takes, .same rfl rfl rfl Iff.rfl Iff.rfl fun _ => Iff.rfl, .same rfl rfl rfl, ?_,
    takes_rank J s.next, Nat.lt_succ_self _, fun x hx => by cases hx⟩
  rw [working_some rfl, working_none rfl]
  change s.done + (decide (s.next < J.nExperts)).toNat + min s.next J.nExperts =
    s.done + 0 + min (s.next + 1) J.nExperts
  rcases Nat.lt_or_ge s.next J.nExperts with hlt | hge
  · rw [decide_eq_true hlt, Bool.toNat_true]
    omega
  · rw [decide_eq_false (Nat.not_lt.mpr hge), Bool.toNat_false]
    omega

theorem counts_effect {xid : ℕ} (hknows : Knows J s (.counts xid))
    (h : J.workerStep s i (.counts xid) = some s') :
    Effect J s s' i (.counts xid) .leavesCount := by
  obtain ⟨hlt, hstored⟩ := hknows
  cases h
  refine ⟨rfl, rfl, .drops, .same rfl rfl rfl Iff.rfl Iff.rfl fun _ => Iff.rfl, .same rfl rfl rfl, ?_,
    Nat.add_lt_add_right (Nat.lt_succ_self _) _, trivial, ?_⟩
  · rw [working_none rfl, working_some rfl, decide_eq_true hlt]
    rfl
  · rintro x ⟨rfl⟩ - -
    exact hstored

/-- A step of a worker goes on to another place, or it is an error exit that the expert comes to in
any case. -/
theorem workerStep_effect {a : WorkerAt} (hknows : Knows J s a)
    (h : J.workerStep s i a = some s') :
    (∃ b, Effect J s s' i a b) ∨
      s' = { s with died := true } ∧ ∃ xid < J.nExperts, J.generateOneExpert xid = none := by
  cases a with
  | waitsForJob =>
    obtain ⟨hfree, hs'⟩ := Option.ite_none_right_eq_some.mp h
    cases hs'
    exact .inl ⟨.takes, rfl, rfl, .keeps, ⟨hfree ▸ .takes trivial, .keeps Iff.rfl,
      fun _ => .keeps Iff.rfl⟩, .same rfl rfl rfl, rfl,
      Nat.add_lt_add_right (Nat.lt_succ_self _) _, trivial, fun x hx => by cases hx⟩
  | takes => exact .inl ⟨_, takes_effect h⟩
  | leavesJob xid =>
    cases h
    refine .inl ⟨.tests xid, .plain rfl rfl rfl rfl
      ⟨.gives trivial id, .keeps Iff.rfl, fun _ => .keeps Iff.rfl⟩ (.same rfl rfl rfl) rfl rfl ?_
      hknows⟩
    rcases Nat.lt_or_ge xid J.nExperts with hlt | hge
    · rw [(rank_tests hlt).1, (rank_tests hlt).2]
      exact Nat.lt_succ_self _
    · rw [(rank_tests_last hge).1, (rank_tests_last hge).2]
      exact Nat.lt_succ_self _
  | tests xid => exact .inl (tests_effect hknows h)
  | waitsForDb xid w =>
    obtain ⟨hfree, hs'⟩ := Option.ite_none_right_eq_some.mp h
    cases hs'
    exact .inl ⟨.inDb xid w, .plain rfl rfl rfl rfl
      ⟨.keeps Iff.rfl, hfree ▸ .takes trivial, fun _ => .keeps Iff.rfl⟩ (.same rfl rfl rfl) rfl rfl
      (Nat.lt_succ_self _) hknows⟩
  | inDb xid w => exact inDb_effect hknows h
  | leavesDb xid w f =>
    cases h
    exact .inl ⟨.waitsForShard xid w f, .plain rfl rfl rfl rfl
      ⟨.keeps Iff.rfl, .gives trivial id, fun _ => .keeps Iff.rfl⟩ (.same rfl rfl rfl) rfl rfl
      (Nat.lt_succ_self _) hknows⟩
  | waitsForShard xid w f =>
    obtain ⟨hfree, hs'⟩ := Option.ite_none_right_eq_some.mp h
    cases hs'
    have htakes : ∀ file ≠ f.file, (f.file = file ↔ False) := fun file hfile =>
      iff_of_false (Ne.symm hfile) id
    exact .inl ⟨.seeks xid w f, .plain rfl rfl rfl rfl
      ⟨.keeps Iff.rfl, .keeps Iff.rfl, shardMove (hfree ▸ .takes rfl) htakes⟩ (.same rfl rfl rfl)
      rfl rfl (Nat.lt_succ_self _) hknows⟩
  | seeks xid w f => exact seeks_effect hknows h
  | reads xid w f => exact reads_effect hknows h
  | leavesShard xid w f v => exact .inl (leavesShard_effect hknows h)
  | converts xid w v => exact converts_effect hknows h
  | copies xid done todo => exact .inl (copies_effect hknows h)
  | waitsToCount xid =>
    obtain ⟨hfree, hs'⟩ := Option.ite_none_right_eq_some.mp h
    cases hs'
    exact .inl ⟨.counts xid, .plain rfl rfl rfl rfl
      ⟨hfree ▸ .takes trivial, .keeps Iff.rfl, fun _ => .keeps Iff.rfl⟩ (.same rfl rfl rfl) rfl rfl
      (Nat.lt_succ_self _) hknows⟩
  | counts xid => exact .inl ⟨_, counts_effect hknows h⟩
  | leavesCount =>
    cases h
    exact .inl ⟨.waitsForJob, rfl, rfl, .keeps, ⟨.gives trivial id, .keeps Iff.rfl,
      fun _ => .keeps Iff.rfl⟩, .same rfl rfl rfl, rfl,
      Nat.add_lt_add_right (Nat.lt_succ_self _) _, trivial, fun x hx => by cases hx⟩
  | finished => cases h

end Step

/-! ## Every order of steps -/

/-- A place in the part of one expert is in no other's. -/
theorem part_unique {per x y k : ℕ} (hlo : x * per ≤ y * per + k) (hhi : y * per + k < x * per + per)
    (hk : k < per) : x = y := by
  rcases Nat.lt_trichotomy x y with hlt | heq | hgt
  · have hmul := Nat.mul_le_mul_right per hlt
    rw [Nat.succ_mul] at hmul
    omega
  · exact heq
  · have hmul := Nat.mul_le_mul_right per hgt
    rw [Nat.succ_mul] at hmul
    omega

section Invariant

variable {J : ExpertJob} {out : ℕ → UInt8} {s s' : State} {i : ℕ} {a b : WorkerAt}

/-- A worker writes into the part of its own expert only. -/
theorem out_frame (heff : Effect J s s' i a b) {xid : ℕ} (hnot : a.held ≠ some xid) {k : ℕ}
    (hk : k < J.perExpert) : s'.out (xid * J.perExpert + k) = s.out (xid * J.perExpert + k) := by
  rcases heff.memory.out (xid * J.perExpert + k) with hsame | ⟨x, hx, -, hlo, hhi⟩
  · exact hsame
  · exact absurd (part_unique hlo hhi hk ▸ hx) hnot

theorem stored_frame (heff : Effect J s s' i a b) {xid : ℕ} (hnot : a.held ≠ some xid)
    (h : Stored J s xid) : Stored J s' xid := by
  obtain ⟨q, hq, hout⟩ := h
  refine ⟨q, hq, fun k hk => ?_⟩
  rw [out_frame heff hnot (length_generateOneExpert hq ▸ hk)]
  exact hout k hk

/-- What a worker knows stays true under the steps of the others. -/
theorem knows_other (h : Inv J out s) (hat : s.workers[i]? = some a) (heff : Effect J s s' i a b)
    {j : ℕ} {c : WorkerAt} (hj : s.workers[j]? = some c) (hne : j ≠ i) : Knows J s' c := by
  have hknows := h.knows j c hj
  have hticket : ∀ x, c.held = some x → a.held ≠ some x := fun x hc ha =>
    hne (h.tickets.unique j i x ⟨c, hj, hc⟩ ⟨a, hat, ha⟩)
  cases c with
  | waitsForDb xid w => exact hknows
  | inDb xid w => exact hknows
  | leavesDb xid w f => exact ⟨hknows.1, hknows.2.1, heff.memory.loaded _ hknows.2.2⟩
  | waitsForShard xid w f => exact ⟨hknows.1, hknows.2.1, heff.memory.loaded _ hknows.2.2⟩
  | seeks xid w f => exact ⟨hknows.1, hknows.2.1, heff.memory.loaded _ hknows.2.2⟩
  | reads xid w f =>
    obtain ⟨hread, hfind, hloaded, hplace, hpos⟩ := hknows
    refine ⟨hread, hfind, heff.memory.loaded _ hloaded, hplace, ?_⟩
    -- the file of a locked shard is moved by the owner of the lock only
    rcases heff.memory.position f.file with hsame | hin | hnew
    · rw [hsame, hpos]
    · exact absurd ((h.shard f.file).unique ⟨_, hj, rfl⟩ ⟨a, hat, hin⟩) hne
    · rw [hloaded] at hnew
      cases hnew
  | leavesShard xid w f v => exact hknows
  | converts xid w v => exact hknows
  | copies xid done todo =>
    obtain ⟨hlt, hone, hout⟩ := hknows
    refine ⟨hlt, hone, fun k hk => ?_⟩
    have hlen := length_generateOneExpert hone
    rw [List.length_append] at hlen
    rw [out_frame heff (hticket xid rfl) (by omega)]
    exact hout k hk
  | waitsToCount xid => exact ⟨hknows.1, stored_frame heff (hticket xid rfl) hknows.2⟩
  | counts xid => exact ⟨hknows.1, stored_frame heff (hticket xid rfl) hknows.2⟩
  | leavesJob xid => exact Nat.lt_of_lt_of_le hknows (heff.ticket.le)
  | tests xid => exact Nat.lt_of_lt_of_le hknows (heff.ticket.le)
  | finished => exact Nat.le_trans hknows (heff.ticket.le)
  | waitsForJob => trivial
  | takes => trivial
  | leavesCount => trivial

theorem inv_effect (h : Inv J out s) (hat : s.workers[i]? = some a) (heff : Effect J s s' i a b) :
    Inv J out s' where
  workers := by
    rw [heff.workers, ne_eq, List.set_eq_nil_iff]
    exact h.workers
  tickets := by
    rw [heff.workers]
    exact h.tickets.move hat heff.ticket
  job := by
    rw [heff.workers]
    exact h.job.move hat heff.locks.job
  db := by
    rw [heff.workers]
    exact h.db.move hat heff.locks.db
  shard file := by
    rw [heff.workers]
    exact (h.shard file).move hat (heff.locks.shard file)
  knows j c hj := by
    rw [heff.workers] at hj
    by_cases hne : j = i
    · subst hne
      rw [set_at hat] at hj
      cases hj
      exact heff.knows
    · rw [List.getElem?_set_ne (Ne.symm hne)] at hj
      exact knows_other h hat heff hj hne
  stored xid hlt hx := by
    rw [heff.workers] at hx
    rcases settled_move hat heff.ticket hx with hold | ⟨ha, hb⟩
    · exact stored_frame heff (fun ha => hold.2 i ⟨a, hat, ha⟩) (h.stored xid hlt hold)
    · exact heff.drops xid ha hb hlt
  count := by
    have hworking := @countP_set _ s.workers i a b (Working J) hat
    have hcount := heff.count
    have hold := h.count
    rw [heff.workers]
    omega
  beyond k hk := by
    rcases heff.memory.out k with hsame | ⟨x, -, hlt, -, hhi⟩
    · rw [hsame, h.beyond k hk]
    · have hmul := Nat.mul_le_mul_right J.perExpert hlt
      rw [Nat.succ_mul] at hmul
      omega
  died hdied := h.died (heff.died ▸ hdied)

theorem inv_next (h : Inv J out s) (i : ℕ) : Inv J out (J.next s i) := by
  cases hstep : J.advance s i with
  | none =>
    rw [ExpertJob.next, hstep]
    exact h
  | some s' =>
    rw [ExpertJob.next, hstep, Option.getD_some]
    unfold ExpertJob.advance at hstep
    split at hstep
    · cases hstep
    · obtain ⟨a, hat, ha⟩ := Option.bind_eq_some_iff.mp hstep
      rcases workerStep_effect (h.knows i a hat) ha with ⟨b, heff⟩ | ⟨rfl, hnone⟩
      · exact inv_effect h hat heff
      · exact { h with died := fun _ => hnone }

theorem workerCount_pos (J : ExpertJob) (nThreads : ℤ) : 0 < J.workerCount nThreads := by
  have hone : ∀ count : ℕ, 0 < if count < 1 then 1 else count := by
    intro count
    split <;> omega
  exact hone _

theorem inv_start (J : ExpertJob) (nThreads : ℤ) (loaded : Bytes → Bool) (position : Bytes → ℕ)
    (out : ℕ → UInt8) : Inv J out (J.start nThreads loaded position out) := by
  have hwaits : ∀ (i : ℕ) (a : WorkerAt),
      (J.start nThreads loaded position out).workers[i]? = some a → a = .waitsForJob := by
    intro i a hi
    exact List.eq_of_mem_replicate (List.mem_of_getElem? hi)
  have hnobody : ∀ p : WorkerAt → Prop, ¬ p .waitsForJob →
      ∀ i, ¬ Stands p (J.start nThreads loaded position out).workers i := by
    rintro p hp i ⟨a, hi, ha⟩
    exact hp (hwaits i a hi ▸ ha)
  have hfree : ∀ p : WorkerAt → Prop, ¬ p .waitsForJob →
      Owns none (Stands p (J.start nThreads loaded position out).workers) := fun p hp i =>
    iff_of_false (by simp) (hnobody p hp i)
  refine ⟨?_, ⟨fun i x hi => ?_, fun i j x hi => ?_⟩, hfree _ id, hfree _ id,
    fun file => hfree _ id, ?_, ?_, ?_, fun _ _ => rfl, by simp [ExpertJob.start]⟩
  · rw [ExpertJob.start, ne_eq, List.replicate_eq_nil_iff]
    exact Nat.ne_of_gt (workerCount_pos J nThreads)
  · exact absurd hi (hnobody _ (fun hx => (by cases hx)) i)
  · exact absurd hi (hnobody _ (fun hx => (by cases hx)) i)
  · intro i a hi
    rw [hwaits i a hi]
    trivial
  · exact fun x _ hx => absurd hx.1 (Nat.not_lt_zero x)
  · have hnone : (J.start nThreads loaded position out).workers.countP (Working J) = 0 :=
      List.countP_eq_zero.mpr fun a ha => by
        rw [List.eq_of_mem_replicate ha]
        rw [working_none rfl]
        exact Bool.false_ne_true
    rw [hnone]
    exact (Nat.zero_min _).symm

/-- What holds in every order of the steps. -/
theorem inv_run (J : ExpertJob) (nThreads : ℤ) (loaded : Bytes → Bool) (position : Bytes → ℕ)
    (out : ℕ → UInt8) (turns : List ℕ) :
    Inv J out (turns.foldl J.next (J.start nThreads loaded position out)) := by
  have hrun : ∀ (turns : List ℕ) (s : State), Inv J out s → Inv J out (turns.foldl J.next s) := by
    intro turns
    induction turns with
    | nil => exact fun s hs => hs
    | cons i turns ih => exact fun s hs => ih _ (inv_next hs i)
  exact hrun turns _ (inv_start J nThreads loaded position out)

end Invariant

end Sf37.Quantize.Experts
