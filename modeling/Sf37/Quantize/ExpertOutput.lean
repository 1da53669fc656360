/-
Sf37.Quantize.ExpertOutput — what the workers leave in the output, whatever the order of their
steps.

* `exists_step`: while a worker has not finished, one of them can go on.
* `run_rank`: the steps of a run are no more than the way is long.
* `out_finished`: the output of workers that have all finished.
* `generateExpert_workers`: together.
-/
import Sf37.Quantize.ExpertWorkers

namespace Sf37.Quantize.Experts

open Sf37.Run Sf37.Text

variable {J : ExpertJob} {out : ℕ → UInt8} {s : State}

/-! ## No worker is stuck -/

theorem enabled_at {s' : State} {i : ℕ} {a : WorkerAt} (hlive : s.died = false)
    (hat : s.workers[i]? = some a) (h : J.workerStep s i a = some s') :
    (J.advance s i).isSome = true := by
  rw [ExpertJob.advance, hlive, if_neg (by simp), hat, Option.bind_some, h]
  rfl

/-- A worker that waits for no mutex can go on. -/
theorem worker_step {i : ℕ} {a : WorkerAt} (hlive : s.died = false)
    (hat : s.workers[i]? = some a) (hjob : a = .waitsForJob → s.jobLock = none)
    (hcount : ∀ xid, a = .waitsToCount xid → s.jobLock = none)
    (hdb : ∀ xid w, a = .waitsForDb xid w → s.dbLock = none)
    (hshard : ∀ xid w f, a = .waitsForShard xid w f → s.shardLock f.file = none)
    (hmore : a ≠ .finished) : (J.advance s i).isSome = true := by
  have hstep : ∀ s', J.workerStep s i a = some s' → (J.advance s i).isSome = true := fun s' =>
    enabled_at hlive hat
  cases a with
  | finished => exact absurd rfl hmore
  | waitsForJob => exact hstep _ (if_pos (hjob rfl))
  | waitsToCount xid => exact hstep _ (if_pos (hcount xid rfl))
  | waitsForDb xid w => exact hstep _ (if_pos (hdb xid w rfl))
  | waitsForShard xid w f => exact hstep _ (if_pos (hshard xid w f rfl))
  | takes => exact hstep _ rfl
  | leavesJob xid => exact hstep _ rfl
  | tests xid => exact hstep _ rfl
  | leavesDb xid w f => exact hstep _ rfl
  | leavesShard xid w f v => exact hstep _ rfl
  | counts xid => exact hstep _ rfl
  | leavesCount => exact hstep _ rfl
  | inDb xid w =>
    cases hfind : dbFind J.db (J.readName xid w) with
    | none => exact hstep _ (congrArg (ExpertJob.findStep s i xid w) hfind)
    | some f => exact hstep _ (congrArg (ExpertJob.findStep s i xid w) hfind)
  | seeks xid w f =>
    by_cases hplace : 2 ^ 63 ≤ f.shard.place f.entry.info
    · exact hstep _ (if_pos hplace)
    · exact hstep _ (if_neg hplace)
  | reads xid w f =>
    by_cases hshort : ((f.shard.file.drop (s.position f.file)).take
        f.entry.info.nbytes).length ≠ f.entry.info.nbytes
    · exact hstep _ (if_pos hshort)
    · exact hstep _ (if_neg hshort)
  | converts xid w v =>
    cases hq : J.convert xid w v with
    | none => exact hstep _ (congrArg (ExpertJob.convertStep s i xid) hq)
    | some q => exact hstep _ (congrArg (ExpertJob.convertStep s i xid) hq)
  | copies xid done todo => cases todo <;> exact hstep _ rfl

/-- The owner of a mutex waits for no other. -/
theorem owner_step (hlive : s.died = false) {j : ℕ}
    (hin : ∃ c, s.workers[j]? = some c ∧ (c.InJob ∨ c.InDb ∨ ∃ file, c.InShard file)) :
    (J.advance s j).isSome = true := by
  obtain ⟨c, hj, hc⟩ := hin
  refine worker_step hlive hj ?_ ?_ ?_ ?_ ?_
  · rintro rfl
    simp [WorkerAt.InJob, WorkerAt.InDb, WorkerAt.InShard] at hc
  · rintro xid rfl
    simp [WorkerAt.InJob, WorkerAt.InDb, WorkerAt.InShard] at hc
  · rintro xid w rfl
    simp [WorkerAt.InJob, WorkerAt.InDb, WorkerAt.InShard] at hc
  · rintro xid w f rfl
    simp [WorkerAt.InJob, WorkerAt.InDb, WorkerAt.InShard] at hc
  · rintro rfl
    simp [WorkerAt.InJob, WorkerAt.InDb, WorkerAt.InShard] at hc

/-- While a worker has not finished, one of them can go on. -/
theorem exists_step (h : Inv J out s) (hlive : s.died = false) {a : WorkerAt} (ha : a ∈ s.workers)
    (hmore : a ≠ .finished) : ∃ i, (J.advance s i).isSome = true := by
  obtain ⟨i, hat⟩ := List.mem_iff_getElem?.mp ha
  by_cases hjob : s.jobLock = none
  · by_cases hdb : s.dbLock = none
    · by_cases hshard : ∃ file, s.shardLock file ≠ none
      · obtain ⟨file, hfile⟩ := hshard
        obtain ⟨j, hj⟩ := Option.ne_none_iff_exists'.mp hfile
        obtain ⟨c, hc, hin⟩ := (h.shard file j).mp hj
        exact ⟨j, owner_step hlive ⟨c, hc, .inr (.inr ⟨file, hin⟩)⟩⟩
      · simp only [not_exists, not_not] at hshard
        exact ⟨i, worker_step hlive hat (fun _ => hjob) (fun _ _ => hjob) (fun _ _ _ => hdb)
          (fun _ _ f _ => hshard f.file) hmore⟩
    · obtain ⟨j, hj⟩ := Option.ne_none_iff_exists'.mp hdb
      obtain ⟨c, hc, hin⟩ := (h.db j).mp hj
      exact ⟨j, owner_step hlive ⟨c, hc, .inr (.inl hin)⟩⟩
  · obtain ⟨j, hj⟩ := Option.ne_none_iff_exists'.mp hjob
    obtain ⟨c, hc, hin⟩ := (h.job j).mp hj
    exact ⟨j, owner_step hlive ⟨c, hc, .inl hin⟩⟩

/-! ## The length of a run -/

/-- The turns in which the worker went on. -/
def moves (J : ExpertJob) : State → List ℕ → ℕ
  | _, [] => 0
  | s, i :: turns => (if (J.advance s i).isSome then 1 else 0) + moves J (J.next s i) turns

/-- An error exit ends the program. -/
theorem moves_died (h : s.died = true) (turns : List ℕ) : moves J s turns = 0 := by
  induction turns with
  | nil => rfl
  | cons i turns ih =>
    have hnone : J.advance s i = none := if_pos h
    rw [moves, ExpertJob.next, hnone, Option.getD_none, ih]
    rfl

theorem run_rank (h : Inv J out s) (turns : List ℕ) : moves J s turns ≤ s.rank J + 1 := by
  induction turns generalizing s with
  | nil => exact Nat.zero_le _
  | cons i turns ih =>
    rw [moves]
    cases hstep : J.advance s i with
    | none =>
      have hlater := ih h
      rw [ExpertJob.next, hstep, Option.getD_none]
      simpa using hlater
    | some s' =>
      have hnext : J.next s i = s' := by rw [ExpertJob.next, hstep, Option.getD_some]
      have hinv := inv_next h i
      rw [hnext] at hinv ⊢
      have hlater := ih hinv
      unfold ExpertJob.advance at hstep
      split at hstep
      · cases hstep
      · obtain ⟨a, hat, ha⟩ := Option.bind_eq_some_iff.mp hstep
        rcases workerStep_effect (h.knows i a hat) ha with ⟨b, heff⟩ | ⟨rfl, -⟩
        · have hsum := @sum_map_set _ s.workers i a b (WorkerAt.rank J) hat
          have hrank := heff.rank
          rw [State.rank, heff.workers] at hlater
          rw [State.rank]
          simp only [Option.isSome_some, if_true]
          omega
        · rw [moves_died rfl turns]
          simp only [Option.isSome_some, if_true]
          omega

/-! ## The output -/

theorem settled_finished (h : Inv J out s) (hall : ∀ a ∈ s.workers, a = .finished) {xid : ℕ}
    (hx : xid < J.nExperts) : Settled WorkerAt.held s.next s.workers xid := by
  obtain ⟨a, ha⟩ := List.exists_mem_of_ne_nil _ h.workers
  obtain ⟨i, hat⟩ := List.mem_iff_getElem?.mp ha
  have hend : J.nExperts ≤ s.next := by
    have hknows := h.knows i a hat
    rw [hall a ha] at hknows
    exact hknows
  refine ⟨Nat.lt_of_lt_of_le hx hend, ?_⟩
  rintro j ⟨c, hj, hc⟩
  rw [hall c (List.mem_of_getElem? hj)] at hc
  cases hc

/-- The output of workers that have all finished is that of one expert after the other. -/
theorem out_finished (h : Inv J out s) (hall : ∀ a ∈ s.workers, a = .finished) :
    s.done = J.nExperts ∧ ∃ q, J.generateExperts = some q ∧
      ∀ k, s.out k = (q[k]?).getD (out k) := by
  have hstored : ∀ xid < J.nExperts, Stored J s xid := fun xid hx =>
    h.stored xid hx (settled_finished h hall hx)
  have hdone : s.done = J.nExperts := by
    have hnone : s.workers.countP (Working J) = 0 := List.countP_eq_zero.mpr fun a ha => by
      rw [hall a ha, working_none rfl]
      exact Bool.false_ne_true
    have hcount := h.count
    rw [hnone] at hcount
    obtain ⟨a, ha⟩ := List.exists_mem_of_ne_nil _ h.workers
    obtain ⟨i, hat⟩ := List.mem_iff_getElem?.mp ha
    have hknows := h.knows i a hat
    rw [hall a ha] at hknows
    have hend : J.nExperts ≤ s.next := hknows
    omega
  obtain ⟨q, hq⟩ := generateUpTo_some fun x hx => (hstored x hx).imp fun _ hone => hone.1
  have hlen := length_generateUpTo hq
  refine ⟨hdone, q, hq, fun k => ?_⟩
  by_cases hk : k < q.length
  · -- the byte stands in the part of one expert
    have hpos : 0 < J.perExpert := by
      rw [hlen] at hk
      exact Nat.pos_of_mul_pos_left (Nat.zero_lt_of_lt hk)
    have hx : k / J.perExpert < J.nExperts := by
      rw [Nat.div_lt_iff_lt_mul hpos, ← hlen]
      exact hk
    obtain ⟨r, hr, hout⟩ := hstored _ hx
    have hrest : k % J.perExpert < r.length := by
      rw [length_generateOneExpert hr]
      exact Nat.mod_lt _ hpos
    have hbyte := generateUpTo_byte hq hx hr hrest
    have hplace := hout _ hrest
    rw [Nat.div_add_mod'] at hbyte hplace
    rw [hbyte, ← hplace, Option.getD_some]
  · rw [List.getElem?_eq_none (Nat.le_of_not_lt hk), Option.getD_none]
    exact h.beyond k (hlen ▸ Nat.le_of_not_lt hk)

theorem start_rank (J : ExpertJob) (nThreads : ℤ) (loaded : Bytes → Bool) (position : Bytes → ℕ)
    (out : ℕ → UInt8) : (J.start nThreads loaded position out).rank J =
      J.workerCount nThreads * 5 + J.nExperts * (J.perExpert + 23) := by
  rw [State.rank, ExpertJob.start, List.map_replicate, List.sum_replicate_nat]
  rfl

/-- `generate_expert`, whatever the order in which the workers go on: an error exit is one that the
experts one after the other would come to as well; workers that have all finished leave the output
of the experts one after the other; and a run comes to one of these ends. -/
theorem generateExpert_workers (J : ExpertJob) (nThreads : ℤ) (loaded : Bytes → Bool)
    (position : Bytes → ℕ) (out : ℕ → UInt8) (turns : List ℕ) :
    let s₀ := J.start nThreads loaded position out
    let s := turns.foldl J.next s₀
    (s.died = true → J.generateExperts = none) ∧
      ((∀ a ∈ s.workers, a = .finished) → s.done = J.nExperts ∧
        ∃ q, J.generateExperts = some q ∧ ∀ k, s.out k = (q[k]?).getD (out k)) ∧
      moves J s₀ turns ≤ J.workerCount nThreads * 5 + J.nExperts * (J.perExpert + 23) + 1 ∧
      ((∀ i, J.advance s i = none) → s.died = true ∨ ∀ a ∈ s.workers, a = .finished) := by
  intro s₀ s
  have hinv : Inv J out s := inv_run J nThreads loaded position out turns
  refine ⟨fun hdied => ?_, out_finished hinv, ?_, fun hstuck => ?_⟩
  · obtain ⟨xid, hx, hnone⟩ := hinv.died hdied
    exact generateUpTo_none hx hnone
  · rw [← start_rank J nThreads loaded position out]
    exact run_rank (inv_start J nThreads loaded position out) turns
  · cases hdied : s.died with
    | true => exact .inl rfl
    | false =>
      refine .inr fun a ha => ?_
      by_contra hmore
      obtain ⟨i, hi⟩ := exists_step hinv hdied ha hmore
      rw [hstuck i] at hi
      cases hi

end Sf37.Quantize.Experts
