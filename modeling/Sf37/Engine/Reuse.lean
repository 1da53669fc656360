/-
Sf37.Engine.Reuse — the prefix a session says it can reuse and the one a sync reuses.

* `reuses_iff`: a successful sync keeps the rows of the promised prefix and evaluates
  only the rest exactly when the session has no token behind it, images match, and on the
  CPU no layer has lost count.
-/
import Sf37.Engine.Progress

namespace Sf37.Engine

open Sf37.Text Sf37.Store
open Sf37.Server (Token Tokens ImageSignature commonLen commonLen_le_left take_commonLen
  commonLen_of_isPrefix)

variable {dev : Device}

/-! ## Rows that are kept -/

/-- The rows of the first `n` positions stand where they stood, as they were; on the GPU
those that the positions behind did not need the place of. -/
def KeepsRows (dev : Device) (s s' : Session) (n : Nat) : Prop :=
  ∀ il < mainLayers, ∀ p < n, (dev.cuda = true → s'.checkpoint.length ≤ p + dev.cacheCap il) →
    s'.place dev il p = s.place dev il p ∧
      (0 ≤ s.place dev il p → s'.rowAt dev il p = s.rowAt dev il p)

/-- A prompt was brought in with the first `n` tokens reused. -/
def Reuses (dev : Device) (s : Session) (prompt : Tokens) (n : Nat) (r : SyncOut) : Prop :=
  KeepsRows dev s r.session n ∧ r.evaluated = prompt.length - n

theorem storeRows_cpu (vals : Nat → StepValues) (hcpu : dev.cuda = false) (il : Nat) (pos count : Nat) (layer : LayerCache)
    (h : layer.n + count ≤ dev.ctxSize) :
    (storeRows dev vals il pos count layer).n = layer.n + count ∧
      ∀ i, i < layer.n → (storeRows dev vals il pos count layer).k i = layer.k i ∧
        (storeRows dev vals il pos count layer).v i = layer.v i := by
  induction count generalizing pos layer with
  | zero => exact ⟨rfl, fun i _ => ⟨rfl, rfl⟩⟩
  | succ count ih =>
    have hstep : dev.storeRow il pos layer ((vals pos).k il) ((vals pos).v il) =
        { n := layer.n + 1
          k := Ring.set layer.k layer.n ((vals pos).k il)
          v := Ring.set layer.v layer.n ((vals pos).v il) } := by
      rw [Device.storeRow, if_neg (by simp [hcpu]), kvCachePush,
        if_neg (by rw [dev.cacheCap_of_cpu hcpu]; omega)]
    rw [storeRows, hstep]
    obtain ⟨hn, hrows⟩ := ih (pos + 1) { n := layer.n + 1
                                         k := Ring.set layer.k layer.n ((vals pos).k il)
                                         v := Ring.set layer.v layer.n ((vals pos).v il) }
      (by dsimp only; omega)
    refine ⟨by rw [hn]; dsimp only; omega, fun i hi => ?_⟩
    obtain ⟨hk, hv⟩ := hrows i (by dsimp only; omega)
    rw [hk, hv]
    exact ⟨Ring.set_of_ne _ _ (by omega), Ring.set_of_ne _ _ (by omega)⟩

theorem storeRows_cuda (vals : Nat → StepValues) (hcuda : dev.cuda = true) (il : Nat)
    (pos count : Nat) (layer : LayerCache) :
    (storeRows dev vals il pos count layer).n = layer.n ∧
      ∀ p, p < pos → pos + count ≤ p + dev.cacheCap il →
        (storeRows dev vals il pos count layer).k (p % dev.cacheCap il) =
            layer.k (p % dev.cacheCap il) ∧
          (storeRows dev vals il pos count layer).v (p % dev.cacheCap il) =
            layer.v (p % dev.cacheCap il) := by
  induction count generalizing pos layer with
  | zero => exact ⟨rfl, fun p _ _ => ⟨rfl, rfl⟩⟩
  | succ count ih =>
    have hstep : dev.storeRow il pos layer ((vals pos).k il) ((vals pos).v il) =
        storeKvCache (dev.cacheCap il) pos layer ((vals pos).k il) ((vals pos).v il) :=
      if_pos hcuda
    rw [storeRows, hstep]
    obtain ⟨hn, hrows⟩ := ih (pos + 1)
      (storeKvCache (dev.cacheCap il) pos layer ((vals pos).k il) ((vals pos).v il))
    refine ⟨hn, fun p hp hcap => ?_⟩
    obtain ⟨hk, hv⟩ := hrows p (by omega) (by omega)
    have hne : p % dev.cacheCap il ≠ pos % dev.cacheCap il := Ring.mod_ne_of_lt hp (by omega)
    rw [hk, hv]
    exact ⟨Ring.set_of_ne _ _ hne, Ring.set_of_ne _ _ hne⟩

/-- What a successful sync leaves, its base and the count it evaluated. -/
theorem sessionSync_ok {imPatch : Option Token} {env : SyncEnv} {vals : Nat → StepValues} {s : Session} {prompt : Tokens}
    {features : Option ImageFeatures}
    (h : (sessionSync dev imPatch env vals s prompt features).ok = true) :
    ∃ sig s', prompt.length ≤ dev.ctxSize ∧
      sessionPrepareImageSignature imPatch prompt features = some sig ∧
      Progress dev vals prompt (syncBase dev s prompt sig).1 (syncBase dev s prompt sig).2
        prompt.length noneTorn s' ∧
      (s' = (syncBase dev s prompt sig).1 ∨ s'.checkpointValid = true) ∧
      (sessionSync dev imPatch env vals s prompt features).session = noteSignature s' sig ∧
      (sessionSync dev imPatch env vals s prompt features).evaluated =
        prompt.length - (syncBase dev s prompt sig).2 := by
  rcases sessionSync_cases dev imPatch env vals s prompt features with
    ⟨-, hr⟩ | ⟨sig, r, hctx, hsig, hloop, hr⟩
  · rw [hr] at h
    nomatch h
  · have hok : r.ok = true := by
      rw [hr] at h
      by_cases hok : r.ok = true
      · exact hok
      · rwa [if_neg hok] at h
    obtain ⟨hp, hev, hv⟩ := hloop.done hok
    rw [if_pos hok] at hr
    exact ⟨sig, r.session, hctx, hsig, hp, hv, congrArg SyncOut.session hr, by
      rw [congrArg SyncOut.evaluated hr]
      dsimp only
      omega⟩

/-- On the CPU a sync that has tokens to evaluate sets the counters to what the prompt has, and
leaves the rows behind the session's tokens. -/
theorem layer_of_progress_cpu {vals : Nat → StepValues} {s s' : Session} {prompt : Tokens} {il : Nat}
    (hcpu : dev.cuda = false) (hctx : prompt.length ≤ dev.ctxSize)
    (hlt : s.checkpoint.length < prompt.length) (hil : il < mainLayers)
    (hp : Progress dev vals prompt (sessionRewind dev s s.checkpoint.length) s.checkpoint.length
      prompt.length noneTorn s') :
    (s'.layer il).n = prompt.length ∧
      ∀ i < s.checkpoint.length, (s'.layer il).k i = (s.layer il).k i ∧
        (s'.layer il).v i = (s.layer il).v i := by
  have hbase : (sessionRewind dev s s.checkpoint.length).layer il =
      { s.layer il with n := s.checkpoint.length } := by
    show (if dev.cuda = true then s.layer il else _) = _
    rw [if_neg (by simp [hcpu])]
    show ({ s.layer il with n := min s.checkpoint.length s.checkpoint.length } : LayerCache) = _
    rw [Nat.min_self]
  have hlayer := hp.layer il
  rw [if_pos hil, hbase, noneTorn, Nat.add_zero] at hlayer
  obtain ⟨hcount, hrows⟩ := storeRows_cpu vals hcpu il s.checkpoint.length
    (prompt.length - s.checkpoint.length) { s.layer il with n := s.checkpoint.length }
    (by dsimp only; omega)
  rw [← hlayer] at hcount hrows
  refine ⟨?_, hrows⟩
  rw [hcount]
  dsimp only
  omega

/-- A sync that goes on from the session's tokens keeps their rows where they are,
unless it moves the counters of the CPU. -/
theorem keepsRows_of_progress {vals : Nat → StepValues} {s s' base : Session} {prompt : Tokens} {n : Nat}
    (hctx : prompt.length ≤ dev.ctxSize) (hlen : s.checkpoint.length = n)
    (hbegins : s.checkpoint <+: prompt)
    (hbase : base = if n < prompt.length then sessionRewind dev s n else s)
    (hp : Progress dev vals prompt base n prompt.length noneTorn s')
    (hcount : dev.cuda = true ∨ prompt.length = n ∨ ∀ il < mainLayers, (s.layer il).n = n) :
    KeepsRows dev s s' n := by
  subst hlen
  have hn : s.checkpoint.length ≤ prompt.length := hbegins.length_le
  have hblen : base.checkpoint.length = s.checkpoint.length := by
    rw [hbase]
    split
    · show (s.checkpoint.take (min s.checkpoint.length s.checkpoint.length)).length = _
      rw [Nat.min_self, List.take_length]
    · rfl
  have hlen' : s'.checkpoint.length = prompt.length := hp.length hblen
  intro il hil p hpn hcap
  have hlayer : s'.layer il = storeRows dev vals il s.checkpoint.length
      (prompt.length - s.checkpoint.length) (base.layer il) := by
    rw [hp.layer il, if_pos hil]
    rfl
  by_cases hcuda : dev.cuda = true
  · have hbl : base.layer il = s.layer il := by
      rw [hbase]
      split
      · exact if_pos hcuda
      · rfl
    have hplace : ∀ t : Session, t.place dev il p = ((p % dev.cacheCap il : Nat) : Int) :=
      fun t => if_pos hcuda
    obtain ⟨-, hrows⟩ := storeRows_cuda vals hcuda il s.checkpoint.length
      (prompt.length - s.checkpoint.length) (s.layer il)
    obtain ⟨hk, hv⟩ := hrows p hpn (by
      have := hcap hcuda
      omega)
    refine ⟨by rw [hplace, hplace], fun _ => ?_⟩
    rw [Session.rowAt, Session.rowAt, hplace, hplace, Int.toNat_natCast, hlayer, hbl, hk, hv]
  · have hplace : ∀ t : Session,
        t.place dev il p = ((t.layer il).n : Int) - t.checkpoint.length + p := fun t => if_neg hcuda
    by_cases hlt : s.checkpoint.length < prompt.length
    · have hs : (s.layer il).n = s.checkpoint.length := by
        rcases hcount with h | h | h
        · exact absurd h hcuda
        · omega
        · exact h il hil
      rw [if_pos hlt] at hbase
      obtain ⟨hcnt, hrows⟩ := layer_of_progress_cpu (by simpa using hcuda) hctx hlt hil (hbase ▸ hp)
      have hsp : s.place dev il p = p := by rw [hplace, hs]; omega
      have hsp' : s'.place dev il p = p := by rw [hplace, hcnt, hlen']; omega
      refine ⟨hsp'.trans hsp.symm, fun _ => ?_⟩
      obtain ⟨hk, hv⟩ := hrows p hpn
      rw [Session.rowAt, Session.rowAt, hsp, hsp', Int.toNat_natCast, hk, hv]
    · have hbs : base = s := by rw [hbase, if_neg hlt]
      have hl : s'.layer il = s.layer il := by
        have hzero : prompt.length - s.checkpoint.length = 0 := by omega
        rw [hlayer, hbs, hzero, storeRows]
      have hpl : s'.place dev il p = s.place dev il p := by
        rw [hplace, hplace, hl, hlen']
        omega
      exact ⟨hpl, fun _ => by rw [Session.rowAt, Session.rowAt, hpl, hl]⟩

/-- Rows that stand where they stood on the CPU, behind the same number of tokens as counted,
stood where they were counted before. -/
theorem KeepsRows.counter {s s' : Session} {n il : Nat} (h : KeepsRows dev s s' n) (hn : 0 < n)
    (hcpu : dev.cuda = false) (hil : il < mainLayers)
    (hcount : (s'.layer il).n = s'.checkpoint.length) : (s.layer il).n = s.checkpoint.length := by
  have hgpu : ¬ dev.cuda = true := by simp [hcpu]
  have hplace := (h il hil 0 hn fun hc => absurd hc hgpu).1
  rw [Session.place, Session.place, if_neg hgpu, if_neg hgpu, hcount] at hplace
  omega

/-! ## The promise -/

theorem signatureMatches_iff {s : Session} {sig : Option ImageSignature} :
    signatureMatches s sig = true ↔ ∀ g, sig = some g → s.imageSignature = some g := by
  cases sig with
  | none => exact ⟨fun _ g hg => (nomatch hg), fun _ => rfl⟩
  | some g =>
    rw [signatureMatches, decide_eq_true_iff]
    exact ⟨fun h g' hg => by rw [h, Option.some.inj hg], fun h => h g rfl⟩

/-- A session whose tokens all begin the prompt, with the images of the prompt, is gone on from. -/
theorem syncBase_of_begins {s : Session} {prompt : Tokens} {sig : Option ImageSignature}
    (hvalid : s.checkpointValid = true) (hbegins : s.checkpoint <+: prompt) (hne : s.checkpoint ≠ [])
    (hmatch : signatureMatches s sig = true) :
    syncBase dev s prompt sig = (if s.checkpoint.length < prompt.length then
      sessionRewind dev s s.checkpoint.length else s, s.checkpoint.length) := by
  have hcommon : sessionCommonPrefix s prompt = s.checkpoint.length :=
    (if_pos hvalid).trans (commonLen_of_isPrefix hbegins)
  have hpos := List.length_pos_iff.mpr hne
  have hgo : ¬ (¬ s.checkpointValid = true ∨ sessionCommonPrefix s prompt = 0 ∨
      sessionCommonPrefix s prompt < s.checkpoint.length) := by
    rw [hcommon]
    rintro (h | h | h)
    · exact h hvalid
    · omega
    · omega
  rw [syncBase, if_neg (not_not.mpr hmatch), if_neg hgo, hcommon]
  split <;> rfl

/-- A successful sync keeps what `sf37_session_reusable_prefix` promised exactly when all
the session's tokens begin the prompt, the images of the prompt are those of the
session, and on the CPU no layer's counter differs from the count of tokens. -/
theorem reuses_iff (dev : Device) (imPatch : Option Token) (env : SyncEnv)
    (vals : Nat → StepValues) (s : Session) (prompt : Tokens) (features : Option ImageFeatures)
    (hpos : 0 < sessionReusablePrefix dev imPatch s prompt features)
    (hok : (sessionSync dev imPatch env vals s prompt features).ok = true) :
    Reuses dev s prompt (sessionReusablePrefix dev imPatch s prompt features)
        (sessionSync dev imPatch env vals s prompt features) ↔
      s.checkpoint <+: prompt ∧
        (∀ sig, sessionPrepareImageSignature imPatch prompt features = some (some sig) →
          s.imageSignature = some sig) ∧
        (dev.cuda = true ∨ prompt.length = s.checkpoint.length ∨
          ∀ il < mainLayers, (s.layer il).n = s.checkpoint.length) := by
  obtain ⟨-, hvalid, hn, hcommon, -⟩ := reusablePrefix_pos hpos
  obtain ⟨sig, s', hctx, hsig, hp, -, hsess, hev⟩ := sessionSync_ok hok
  obtain ⟨n, hndef⟩ : ∃ n, n = sessionReusablePrefix dev imPatch s prompt features := ⟨_, rfl⟩
  rw [← hndef] at hpos hn ⊢
  have hmatch : signatureMatches s sig = true ↔
      ∀ g, sessionPrepareImageSignature imPatch prompt features = some (some g) →
        s.imageSignature = some g := by
    rw [hsig, signatureMatches_iff]
    exact ⟨fun h g hg => h g (Option.some.inj hg), fun h g hg => h g (congrArg some hg)⟩
  rw [← hmatch]
  constructor
  · rintro ⟨hkeep, hcount⟩
    rw [hev] at hcount
    have hle : commonLen s.checkpoint prompt ≤ prompt.length := by
      have h := congrArg List.length (take_commonLen s.checkpoint prompt)
      rw [List.length_take, List.length_take] at h
      have := commonLen_le_left s.checkpoint prompt
      omega
    obtain ⟨-, -, -, hreset | ⟨hm, -, hne, hbegins, hbase⟩⟩ := syncBase_spec dev s prompt sig
    · rw [hreset] at hcount
      dsimp only at hcount
      omega
    refine ⟨hbegins, hm, ?_⟩
    by_cases hcuda : dev.cuda = true
    · exact Or.inl hcuda
    have hcpu : dev.cuda = false := by simpa using hcuda
    refine Or.inr ?_
    by_cases hlt : s.checkpoint.length < prompt.length
    · refine Or.inr fun il hil => hkeep.counter hpos hcpu hil ?_
      rw [if_pos hlt] at hbase
      rw [hbase] at hp
      have hlen' : s'.checkpoint.length = prompt.length := hp.length (by
        show (s.checkpoint.take (min s.checkpoint.length s.checkpoint.length)).length = _
        rw [Nat.min_self, List.take_length])
      rw [hsess, noteSignature_layer, noteSignature_checkpoint, hlen']
      exact (layer_of_progress_cpu hcpu hctx hlt hil hp).1
    · exact Or.inl (Nat.le_antisymm (Nat.le_of_not_lt hlt) hbegins.length_le)
  · rintro ⟨hbegins, hm, hcount⟩
    have hlen : n = s.checkpoint.length := hn.trans (commonLen_of_isPrefix hbegins)
    have hne : s.checkpoint ≠ [] := List.length_pos_iff.mp (hlen ▸ hpos)
    rw [syncBase_of_begins hvalid hbegins hne hm] at hp hev
    refine ⟨?_, by rw [hev, hlen]⟩
    rw [hsess]
    have hk := keepsRows_of_progress hctx hlen.symm hbegins rfl (hlen ▸ hp)
      (hlen ▸ hcount)
    intro il hil p hpn hcap
    rw [noteSignature_checkpoint] at hcap
    have h := hk il hil p hpn hcap
    rw [noteSignature_place, noteSignature_rowAt]
    exact h

theorem reuses_iff_append :
    Reuses cpuDevice (.ofTokens [1]) [1, 2] 1
      (sessionSync cpuDevice none .quiet (fun _ => .zero) (.ofTokens [1]) [1, 2] none) :=
  (reuses_iff cpuDevice none .quiet (fun _ => .zero) (.ofTokens [1]) [1, 2] none
    (by decide) (by decide)).mpr ⟨by decide, nofun, by decide⟩

/-- Two of three tokens are promised, and all three of the prompt are evaluated. -/
theorem not_reuses_diverging :
    sessionReusablePrefix cpuDevice none (.ofTokens [1, 2, 3]) [1, 2, 4] none = 2 ∧
      (sessionSync cpuDevice none .quiet (fun _ => .zero) (.ofTokens [1, 2, 3]) [1, 2, 4]
        none).ok = true ∧
      ¬ Reuses cpuDevice (.ofTokens [1, 2, 3]) [1, 2, 4] 2
        (sessionSync cpuDevice none .quiet (fun _ => .zero) (.ofTokens [1, 2, 3]) [1, 2, 4] none) :=
  ⟨by decide, by decide, fun h => absurd h.2 (by decide)⟩

end Sf37.Engine
