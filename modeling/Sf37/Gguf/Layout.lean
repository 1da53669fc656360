/-
Sf37.Gguf.Layout — what a GGUF file that is walked over looks like.

A layout is a list of metadata pairs and a list of tensor infos. Its text is what the
file format lays down, and `Layout.walked` is what the loader makes of it.

* `reads_ggufWalk`: the walk of `gguf_open` takes exactly the texts of layouts.
* `stops_ggufWalk`: it reads outside the file only for the name of a tensor whose count
  of dimensions is wrong, when the name is so long that its length is a negative `int`.
-/
import Sf37.Gguf.Open

namespace Sf37.Gguf

open Sf37.Text Sf37.Run

/-! ## Metadata pairs -/

/-- A metadata pair as a file has it. -/
structure Pair where
  key : Bytes
  type : Nat
  value : Bytes

namespace Pair

/-- Its bytes. -/
def text (k : Pair) : Bytes := stringText k.key ++ (littleEndian 4 k.type ++ k.value)

structure WellFormed (k : Pair) : Prop where
  key : k.key.length < 2 ^ 64
  type : k.type < 2 ^ 32
  value : ValueText 3 k.type k.value

/-- What the loader keeps of a pair that stands at `pos`. -/
def kv (pos : Nat) (k : Pair) : Kv := ⟨k.key, k.type, pos + (stringText k.key).length + 4⟩

/-- The pair is `general.alignment`, with a number that is not zero. -/
def Aligns (k : Pair) : Prop :=
  cstr k.key = alignmentKey ∧ k.type = ggufValueUint32 ∧ ofLittleEndian k.value ≠ 0

instance (k : Pair) : Decidable k.Aligns := inferInstanceAs (Decidable (_ ∧ _ ∧ _))

/-- The alignment after a pair. -/
def alignment (before : Nat) (k : Pair) : Nat :=
  if k.Aligns then ofLittleEndian k.value else before

end Pair

/-- The value of `general.alignment` is looked at and then skipped. -/
theorem readsNext_aligned {α : Type} (before : Nat) (make : Nat → α) :
    ReadsNext Mapped (do
      let alignment ← peekAlignment before
      skipValue 3 ggufValueUint32
      pure (make alignment)) 4 (fun _ p =>
        make (if ofLittleEndian p ≠ 0 then ofLittleEndian p else before)) truncated := by
  have hskip : ReadsNext Mapped (skipValue 3 ggufValueUint32) 4 (fun _ _ => ()) truncated :=
    readsNext_cursorSkip 4
  intro file hfile pos hpos
  have hnumber := readsNext_cursorNumber 4 file hfile pos hpos
  have hend := hskip file hfile pos hpos
  by_cases h : pos + 4 ≤ file.length
  · rw [if_pos h] at hnumber hend ⊢
    have hpeek : peekAlignment before file pos = .ok (if ofLittleEndian ((file.drop pos).take 4) ≠ 0
        then ofLittleEndian ((file.drop pos).take 4) else before, pos) := by
      rw [peekAlignment, cursorU32, hnumber]
    rw [Reader.bind_of_ok hpeek, Reader.bind_of_ok hend]
    rfl
  · rw [if_neg h] at hnumber hend ⊢
    have hpeek : peekAlignment before file pos = .ok (before, pos) := by
      rw [peekAlignment, cursorU32, hnumber]
      rfl
    rw [Reader.bind_of_ok hpeek, Reader.bind_of_error hend]

/-- The end of a turn of the loop over the metadata. -/
theorem reads_ggufValue (key : Bytes) (type before valuePos : Nat) :
    Reads Mapped (do
      let alignment ← kvAlignment key type before
      skipValue 3 type
      pure ((⟨key, type, valuePos⟩ : Kv), alignment)) fun _ out p =>
        ValueText 3 type p ∧
          out = (⟨key, type, valuePos⟩, Pair.alignment before ⟨key, type, p⟩) := by
  unfold kvAlignment
  by_cases h : cstr key = alignmentKey ∧ type = ggufValueUint32
  · obtain ⟨hkey, rfl⟩ := h
    rw [if_pos ⟨hkey, rfl⟩]
    refine (readsNext_aligned before fun alignment =>
      ((⟨key, ggufValueUint32, valuePos⟩ : Kv), alignment)).reads.congr fun pos out p => ?_
    have haligns : ∀ v : Bytes, (Pair.mk key ggufValueUint32 v).Aligns ↔ ofLittleEndian v ≠ 0 :=
      fun v => ⟨fun h => h.2.2, fun h => ⟨hkey, rfl, h⟩⟩
    have hvalue : ValueText 3 ggufValueUint32 p ↔ p.length = 4 :=
      ⟨fun h => h.2, fun h => ⟨by decide, h⟩⟩
    simp only [Pair.alignment, haligns, hvalue]
  · rw [if_neg h]
    have haligns : ∀ v : Bytes, ¬ (Pair.mk key type v).Aligns := fun v hv => h ⟨hv.1, hv.2.1⟩
    refine ((reads_pure before).bind fun alignment => (reads_skipValue 3 type).bind fun _ =>
      reads_pure ((⟨key, type, valuePos⟩ : Kv), alignment)).congr fun pos out p => ⟨?_, ?_⟩
    · rintro ⟨_, q, r, ⟨rfl, rfl⟩, ⟨_, v, s, hv, ⟨rfl, rfl⟩, rfl⟩, rfl⟩
      rw [List.nil_append, List.append_nil, Pair.alignment, if_neg (haligns _)]
      exact ⟨hv, rfl⟩
    · rintro ⟨hv, rfl⟩
      rw [Pair.alignment, if_neg (haligns p)]
      exact ⟨before, [], p, ⟨rfl, rfl⟩, ⟨(), p, [], hv, ⟨rfl, rfl⟩, (List.append_nil p).symm⟩, rfl⟩

theorem reads_ggufKv (before : Nat) :
    Reads Mapped (ggufKv before) fun pos out p =>
      ∃ k : Pair, k.WellFormed ∧ out.1 = k.kv pos ∧ out.2 = k.alignment before ∧ p = k.text := by
  refine (reads_cursorString.bind fun key => (reads_cursorNumber 4).bind fun type =>
    reads_position.bind fun valuePos =>
      reads_ggufValue key.text type before valuePos).congr fun pos out p => ⟨?_, ?_⟩
  · rintro ⟨key, q, r, ⟨hkey, -, rfl⟩, ⟨type, t, u, ⟨htype, rfl⟩, ⟨_, w, v, ⟨rfl, rfl⟩, ⟨hv, rfl⟩,
      rfl⟩, rfl⟩, rfl⟩
    refine ⟨⟨key.text, type, _⟩, ⟨hkey, htype, hv⟩, ?_, rfl, rfl⟩
    rw [Pair.kv, length_littleEndian]
  · rintro ⟨k, ⟨hkey, htype, hv⟩, hkv, hal, rfl⟩
    refine ⟨⟨pos + 8, k.key⟩, _, _, ⟨hkey, rfl, rfl⟩, ⟨k.type, _, _, ⟨htype, rfl⟩, ⟨_, [], k.value,
      ⟨rfl, rfl⟩, ⟨hv, ?_⟩, rfl⟩, rfl⟩, rfl⟩
    rw [length_littleEndian]
    exact Prod.ext hkv hal

theorem stops_peekAlignment (before : Nat) :
    Stops Mapped Stop.outside (peekAlignment before) Nowhere := by
  intro file hfile pos hpos
  refine ⟨fun h => ?_, False.elim⟩
  have hnumber := readsNext_cursorNumber 4 file hfile pos hpos
  rw [peekAlignment, cursorU32, hnumber] at h
  by_cases hle : pos + 4 ≤ file.length
  · rw [if_pos hle] at h
    cases h
  · rw [if_neg hle] at h
    cases h

theorem within_peekAlignment (before : Nat) : Within Mapped (peekAlignment before) := by
  intro file hfile pos hpos v after h
  have hnumber := readsNext_cursorNumber 4 file hfile pos hpos
  rw [peekAlignment, cursorU32, hnumber] at h
  split at h
  · cases h
    exact hpos
  · cases h
    exact hpos
  · cases h

theorem stops_ggufKv (before : Nat) : Stops Mapped Stop.outside (ggufKv before) Nowhere := by
  refine stops_cursorString.bind_nowhere reads_cursorString fun key =>
    (stops_cursorNumber 4).bind_nowhere (reads_cursorNumber 4) fun type =>
      stops_position.bind_nowhere reads_position fun valuePos => ?_
  have hwithin : Within Mapped (kvAlignment key.text type before) := by
    unfold kvAlignment
    split
    · exact within_peekAlignment before
    · exact (reads_pure before).within
  exact hwithin.bind_nowhere ((stops_peekAlignment before).ite_nowhere (stops_pure _ _))
    fun alignment => (stops_skipValue 3 type).bind_nowhere (reads_skipValue 3 type)
      fun _ => stops_pure _ _

/-! ## Tensor infos -/

/-- A tensor info as a file has it. -/
structure TensorInfo where
  name : Bytes
  dim : List Nat
  type : Nat
  relOffset : Nat

namespace TensorInfo

/-- Its bytes. -/
def text (i : TensorInfo) : Bytes :=
  stringText i.name ++ (littleEndian 4 i.dim.length ++ (i.dim.flatMap (littleEndian 8) ++
    (littleEndian 4 i.type ++ littleEndian 8 i.relOffset)))

structure WellFormed (i : TensorInfo) : Prop where
  name : i.name.length < 2 ^ 64
  dim : ∀ d ∈ i.dim, d < 2 ^ 64
  type : i.type < 2 ^ 32
  relOffset : i.relOffset < 2 ^ 64
  sized : ∃ ti, Sized i.type i.dim ti

/-- What the loader keeps of it, before the tensor has a place. -/
def tensor (i : TensorInfo) : Tensor :=
  ⟨i.name, i.dim.length, i.dim, i.type, i.relOffset, 0, tensorBytes i.type i.dim⟩

end TensorInfo

/-- A turn of the loop over the dimensions. -/
theorem reads_dim (_ : Unit) :
    Reads Mapped (do
      let d ← cursorU64
      pure (d, ())) fun _ (out : Nat × Unit) p => NumberText 8 out.1 p := by
  refine ((reads_cursorNumber 8).bind fun d => reads_pure (d, ())).congr
    fun pos out p => ⟨?_, fun hp => ?_⟩
  · rintro ⟨d, q, _, hq, ⟨rfl, rfl⟩, rfl⟩
    rwa [List.append_nil]
  · exact ⟨out.1, p, [], hp, ⟨rfl, rfl⟩, (List.append_nil p).symm⟩

/-- The loop over the dimensions. -/
theorem reads_dims (ndim : Nat) :
    Reads Mapped (Reader.turns (fun _ => do
      let d ← cursorU64
      pure (d, ())) ndim ()) fun _ out p =>
        out.1.length = ndim ∧ (∀ d ∈ out.1, d < 2 ^ 64) ∧ p = out.1.flatMap (littleEndian 8) := by
  have hitem : ∀ (u : Unit) (pos d : Nat) (u' : Unit) (q : Bytes),
      NumberText 8 d q ↔ ∃ b, b < 2 ^ 64 ∧ d = b ∧ u' = () ∧ q = littleEndian 8 b := by
    intro u pos d u' q
    exact ⟨fun h => ⟨d, h.1, rfl, rfl, h.2⟩, fun ⟨b, hb, hd, _, hq⟩ => hd ▸ ⟨hb, hq⟩⟩
  refine (Reads.turns reads_dim ndim ()).congr fun pos out p => ?_
  rw [← Prod.eta out, takesTurns_iff hitem]
  constructor
  · rintro ⟨dim, hlen, hdim, has, -, rfl⟩
    rw [placed_const, List.map_id'] at has
    subst has
    exact ⟨hlen, hdim, rfl⟩
  · rintro ⟨hlen, hdim, rfl⟩
    exact ⟨out.1, hlen, hdim, by rw [placed_const, List.map_id'], rfl, rfl⟩

theorem stops_dims (ndim : Nat) :
    Stops Mapped Stop.outside (Reader.turns (fun _ => do
      let d ← cursorU64
      pure (d, ())) ndim ()) Nowhere :=
  Stops.turns_nowhere reads_dim (fun _ => (stops_cursorNumber 8).bind_nowhere
    (reads_cursorNumber 8) fun _ => stops_pure _ _) ndim ()

/-- The end of a turn of the loop over the tensor infos. -/
theorem reads_ggufSize {dim : List Nat} {ndim : Nat} (hndim : dim.length = ndim) (type : Nat)
    (make : Nat → Tensor) (error : Bytes) :
    Reads Mapped (do
      let nbytes ← tensorNbytes type dim ndim
      if nbytes = 0 then Reader.stop (.failed error)
      else pure (make nbytes, ())) fun _ out p =>
        p = [] ∧ (∃ ti, Sized type dim ti) ∧ out.1 = make (tensorBytes type dim) := by
  subst hndim
  refine ((reads_tensorNbytes type dim).bind fun nbytes =>
    (reads_stop _).ite (reads_pure (make nbytes, ()))).congr fun pos out p => ⟨?_, ?_⟩
  · rintro ⟨nbytes, q, r, ⟨rfl, hnbytes⟩, hr, rfl⟩
    split at hr
    · exact hr.elim
    · rename_i hne
      obtain ⟨rfl, rfl⟩ := hr
      obtain ⟨hsized, rfl⟩ := nbytesIs_iff.mp ⟨hnbytes, hne⟩
      exact ⟨rfl, hsized, rfl⟩
  · rintro ⟨rfl, hsized, hout⟩
    obtain ⟨hnbytes, hne⟩ := nbytesIs_iff.mpr ⟨hsized, rfl⟩
    refine ⟨tensorBytes type dim, [], [], ⟨rfl, hnbytes⟩, ?_, rfl⟩
    beta_reduce
    rw [if_neg hne]
    exact ⟨Prod.ext hout rfl, rfl⟩

theorem reads_ggufTensor (u : Unit) :
    Reads Mapped (ggufTensor u) fun _ out p =>
      ∃ i : TensorInfo, i.WellFormed ∧ out.1 = i.tensor ∧ p = i.text := by
  refine (reads_cursorString.bind fun name => (reads_cursorNumber 4).bind fun ndim =>
    (reads_bind_stop (printed name) _).ite ((reads_dims ndim).bind_of fun _ dim _ hdim =>
      (reads_cursorNumber 4).bind fun type => (reads_cursorNumber 8).bind fun relOffset =>
        reads_ggufSize hdim.1 type (fun nbytes =>
          ⟨name.text, ndim, dim.1, type, relOffset, 0, nbytes⟩) _)).congr fun pos out p => ⟨?_, ?_⟩
  · rintro ⟨name, _, _, ⟨hname, -, rfl⟩, ⟨ndim, _, q, ⟨hndim, rfl⟩, hq, rfl⟩, rfl⟩
    split at hq
    · exact hq.elim
    · obtain ⟨⟨dim, _⟩, _, _, ⟨rfl, hdim, rfl⟩, ⟨type, _, _, ⟨htype, rfl⟩, ⟨relOffset, _, _,
        ⟨hrel, rfl⟩, ⟨rfl, hsized, hout⟩, rfl⟩, rfl⟩, rfl⟩ := hq
      exact ⟨⟨name.text, dim, type, relOffset⟩, ⟨hname, hdim, htype, hrel, hsized⟩, hout,
        by rw [List.append_nil]; rfl⟩
  · rintro ⟨i, hi, hout, rfl⟩
    obtain ⟨ti, hti⟩ := hi.sized
    have hpos := hti.ndim_pos
    have hle := hti.ndim_le
    have hndim : ¬ (i.dim.length = 0 ∨ maxDims < i.dim.length) := by omega
    unfold maxDims at hle
    refine ⟨⟨pos + 8, i.name⟩, _, _, ⟨hi.name, rfl, rfl⟩, ⟨i.dim.length, _, _, ⟨by omega, rfl⟩, ?_,
      rfl⟩, rfl⟩
    beta_reduce
    rw [if_neg hndim]
    exact ⟨(i.dim, ()), _, _, ⟨rfl, hi.dim, rfl⟩, ⟨i.type, _, _, ⟨hi.type, rfl⟩, ⟨i.relOffset, _,
      [], ⟨hi.relOffset, rfl⟩, ⟨rfl, hi.sized, hout⟩, (List.append_nil _).symm⟩, rfl⟩, rfl⟩

theorem stops_printed (s : Str) :
    Stops Mapped Stop.outside (printed s) fun file _ =>
      2 ^ 31 ≤ s.text.length % 2 ^ 32 ∧ NulFree (file.drop s.ptr) := by
  intro file _ pos _
  unfold printed NulFree
  by_cases hlen : s.text.length % 2 ^ 32 < 2 ^ 31
  · simp only [if_pos hlen, reduceCtorEq, false_iff]
    omega
  · by_cases hnul : (0 : UInt8) ∈ file.drop s.ptr
    · simp only [if_neg hlen, if_pos hnul, reduceCtorEq, false_iff]
      exact fun h => h.2 hnul
    · simp only [if_neg hlen, if_neg hnul, true_iff]
      exact ⟨by omega, hnul⟩

/-- A tensor info with a wrong count of dimensions stands at a place, and the end of the
file is met while its name is printed. -/
def EndlessAt (file : Bytes) (pos : Nat) : Prop :=
  ∃ name ndim, (ndim = 0 ∨ maxDims < ndim) ∧ name.length < 2 ^ 64 ∧ ndim < 2 ^ 32 ∧
    StandsAt (stringText name ++ littleEndian 4 ndim) file pos ∧
    2 ^ 31 ≤ name.length % 2 ^ 32 ∧ NulFree (file.drop (pos + 8))

/-- After a count of dimensions that is right, no byte outside the file is read. -/
theorem stops_ggufTensorRest (name : Str) (ndim : Nat) :
    Stops Mapped Stop.outside (do
      let (dim, _) ← Reader.turns (fun _ => do
        let d ← cursorU64
        pure (d, ())) ndim ()
      let type ← cursorU32
      let relOffset ← cursorU64
      let nbytes ← tensorNbytes type dim ndim
      if nbytes = 0 then
        Reader.stop (.failed (bytes "tensor " ++ cstr name.text ++
          bytes " has unsupported type/layout " ++ decimal type))
      else pure ((⟨name.text, ndim, dim, type, relOffset, 0, nbytes⟩ : Tensor), ())) Nowhere := by
  refine (stops_dims ndim).bind_nowhere_of (reads_dims ndim) fun _ dim _ hdim =>
    (stops_cursorNumber 4).bind_nowhere (reads_cursorNumber 4) fun type =>
      (stops_cursorNumber 8).bind_nowhere (reads_cursorNumber 8) fun relOffset => ?_
  have hnbytes := reads_tensorNbytes type dim.1
  rw [hdim.1] at hnbytes
  exact (stops_tensorNbytes type dim.1 ndim).bind_nowhere hnbytes fun nbytes =>
    (stops_stop (Stop.failed_ne _)).ite_nowhere (stops_pure _ _)

theorem stops_ggufTensor (u : Unit) :
    Stops Mapped Stop.outside (ggufTensor u) EndlessAt := by
  have hshown : ∀ (name : Str) (ndim : Nat), Stops Mapped Stop.outside (do
      let shown ← printed name
      Reader.stop (α := Tensor × Unit) (.failed (bytes "tensor " ++ shown ++
        bytes " has unsupported ndim " ++ decimal ndim))) fun file _ =>
          2 ^ 31 ≤ name.text.length % 2 ^ 32 ∧ NulFree (file.drop name.ptr) :=
    fun name ndim => (stops_printed name).bind_stop fun _ => Stop.failed_ne _
  refine (stops_cursorString.bind reads_cursorString fun name =>
    (stops_cursorNumber 4).bind (reads_cursorNumber 4) fun ndim =>
      (hshown name ndim).ite (stops_ggufTensorRest name ndim)).congr fun file pos => ⟨?_, ?_⟩
  · rintro (h | ⟨name, _, ⟨hname, hptr, rfl⟩, hstands,
      h | ⟨ndim, _, ⟨hndim, rfl⟩, hnumber, h⟩⟩)
    · exact h.elim
    · exact h.elim
    · split at h
      · rename_i hbad
        rw [hptr] at h
        exact ⟨name.text, ndim, hbad, hname, hndim, standsAt_append.mpr ⟨hstands, hnumber⟩, h.1, h.2⟩
      · exact h.elim
  · rintro ⟨name, ndim, hbad, hname, hndim, hstands, hlen, hnul⟩
    obtain ⟨hstands, hnumber⟩ := standsAt_append.mp hstands
    refine .inr ⟨⟨pos + 8, name⟩, _, ⟨hname, rfl, rfl⟩, hstands, .inr ⟨ndim, _, ⟨hndim, rfl⟩,
      hnumber, ?_⟩⟩
    beta_reduce
    rw [if_pos hbad]
    exact ⟨hlen, hnul⟩

/-! ## The walk -/

/-- The metadata pairs and the tensor infos of a file. -/
structure Layout where
  pairs : List Pair
  infos : List TensorInfo

/-- The bytes before the metadata. -/
def headerText (nTensors nKv : Nat) : Bytes :=
  ggufMagic ++ (littleEndian 4 ggufVersion ++ (littleEndian 8 nTensors ++ littleEndian 8 nKv))

namespace Layout

/-- The bytes before the data. -/
def text (l : Layout) : Bytes :=
  headerText l.infos.length l.pairs.length ++
    (l.pairs.flatMap Pair.text ++ l.infos.flatMap TensorInfo.text)

structure WellFormed (l : Layout) : Prop where
  nKv : l.pairs.length < 2 ^ 64
  nTensors : l.infos.length < 2 ^ 64
  pairs : ∀ k ∈ l.pairs, k.WellFormed
  infos : ∀ i ∈ l.infos, i.WellFormed

/-- The alignment the pairs ask for. -/
def alignment (l : Layout) : Nat := l.pairs.foldl Pair.alignment 32

/-- What the loader keeps after the walk over a file of a size. -/
def walked (size : Nat) (l : Layout) : GgufFile :=
  ⟨size, ggufVersion, l.pairs.length, l.infos.length, l.alignment, 0,
    placed Pair.kv Pair.text (headerText l.infos.length l.pairs.length).length l.pairs,
    l.infos.map TensorInfo.tensor⟩

end Layout

theorem length_headerText (nTensors nKv : Nat) : (headerText nTensors nKv).length = 24 := by
  have hmagic : ggufMagic.length = 4 := by decide
  simp only [headerText, List.length_append, length_littleEndian, hmagic]

theorem ggufStart_eq {file : Bytes} (hfile : Mapped file) {pos : Nat} :
    ggufStart file pos = if pos + 4 ≤ file.length then
        if (file.drop pos).take 4 = ggufMagic then .ok ((), pos + 4)
        else .error (.failed (bytes "model is not a GGUF file"))
      else .error (truncated pos) := by
  unfold ggufStart
  by_cases hle : pos + 4 ≤ file.length
  · have hneed : cursorNeed 4 file pos = .ok ((), pos) := if_neg (by omega)
    rw [if_pos hle, Reader.bind_of_ok hneed, Reader.bind_of_ok (load_eq hle)]
    by_cases hmagic : (file.drop pos).take 4 = ggufMagic
    · rw [if_neg (not_not.mpr hmagic), if_pos hmagic, advance_eq hfile hle]
    · rw [if_pos hmagic, if_neg hmagic]
      rfl
  · have hneed : cursorNeed 4 file pos = .error (truncated pos) := if_pos (by omega)
    rw [if_neg hle, Reader.bind_of_error hneed]

theorem reads_ggufStart : Reads Mapped ggufStart fun _ _ p => p = ggufMagic := by
  have hlen : ggufMagic.length = 4 := by decide
  intro file hfile pos hpos _ after
  rw [ggufStart_eq hfile]
  constructor
  · intro h
    split at h
    · split at h
      · rename_i hmagic
        obtain ⟨-, rfl⟩ := Prod.mk.inj (Except.ok.inj h)
        exact ⟨ggufMagic, rfl, hmagic ▸ List.take_prefix _ _, by rw [hlen]⟩
      · cases h
    · cases h
  · rintro ⟨p, rfl, hp, rfl⟩
    have hle := hp.le hpos
    rw [hlen] at hle ⊢
    have htake := List.prefix_iff_eq_take.mp hp
    rw [hlen] at htake
    rw [if_pos hle, if_pos htake.symm]

theorem stops_ggufStart : Stops Mapped Stop.outside ggufStart Nowhere := by
  intro file hfile pos _
  rw [ggufStart_eq hfile]
  refine ⟨fun h => ?_, False.elim⟩
  split at h
  · split at h <;> cases h
  · cases h

/-- What the loops over the metadata and the tensor infos take. -/
def TakesLoops (size version nTensors nKv pos : Nat) (g : GgufFile) (p : Bytes) : Prop :=
  ∃ l : Layout, l.pairs.length = nKv ∧ l.infos.length = nTensors ∧
    (∀ k ∈ l.pairs, k.WellFormed) ∧ (∀ i ∈ l.infos, i.WellFormed) ∧
    g = ⟨size, version, nKv, nTensors, l.alignment, 0, placed Pair.kv Pair.text pos l.pairs,
      l.infos.map TensorInfo.tensor⟩ ∧
    p = l.pairs.flatMap Pair.text ++ l.infos.flatMap TensorInfo.text

/-- A turn over the metadata takes a pair. -/
theorem takesPair_iff (before pos : Nat) (kv : Kv) (after : Nat) (q : Bytes) :
    (∃ k : Pair, k.WellFormed ∧ kv = k.kv pos ∧ after = k.alignment before ∧ q = k.text) ↔
      ∃ k : Pair, k.WellFormed ∧ kv = Pair.kv pos k ∧ after = Pair.alignment before k ∧
        q = k.text := Iff.rfl

/-- A turn over the tensor infos takes an info. -/
theorem takesInfo_iff (_ : Unit) (_ : Nat) (t : Tensor) (u : Unit) (q : Bytes) :
    (∃ i : TensorInfo, i.WellFormed ∧ t = i.tensor ∧ q = i.text) ↔
      ∃ i : TensorInfo, i.WellFormed ∧ t = i.tensor ∧ u = () ∧ q = i.text :=
  ⟨fun ⟨i, hi, ht, hq⟩ => ⟨i, hi, ht, rfl, hq⟩, fun ⟨i, hi, ht, _, hq⟩ => ⟨i, hi, ht, hq⟩⟩

theorem reads_ggufLoops (size version nTensors nKv : Nat) :
    Reads Mapped (do
      let (kv, alignment) ← Reader.turns ggufKv nKv 32
      let (tensors, _) ← Reader.turns ggufTensor nTensors ()
      pure (⟨size, version, nKv, nTensors, alignment, 0, kv, tensors⟩ : GgufFile))
      (TakesLoops size version nTensors nKv) := by
  refine ((Reads.turns reads_ggufKv nKv 32).bind fun kv =>
    (Reads.turns reads_ggufTensor nTensors ()).bind fun tensors =>
      reads_pure _).congr fun pos g p => ⟨?_, ?_⟩
  · rintro ⟨⟨kv, alignment⟩, _, _, hkvs, ⟨⟨tensors, _⟩, _, _, htensors, ⟨rfl, rfl⟩, rfl⟩, rfl⟩
    obtain ⟨pairs, hnKv, hpairs, rfl, rfl, rfl⟩ := (takesTurns_iff takesPair_iff).mp hkvs
    obtain ⟨infos, hnTensors, hinfos, rfl, -, rfl⟩ := (takesTurns_iff takesInfo_iff).mp htensors
    refine ⟨⟨pairs, infos⟩, hnKv, hnTensors, hpairs, hinfos, ?_, by rw [List.append_nil]⟩
    rw [placed_const]
    rfl
  · rintro ⟨l, hnKv, hnTensors, hpairs, hinfos, rfl, rfl⟩
    refine ⟨(placed Pair.kv Pair.text pos l.pairs, l.alignment), _, _,
      (takesTurns_iff takesPair_iff).mpr ⟨l.pairs, hnKv, hpairs, rfl, rfl, rfl⟩,
      ⟨(l.infos.map TensorInfo.tensor, ()), _, [], (takesTurns_iff takesInfo_iff).mpr
        ⟨l.infos, hnTensors, hinfos, (placed_const _ _ _ _).symm, rfl, rfl⟩, ⟨rfl, rfl⟩,
        (List.append_nil _).symm⟩, rfl⟩

theorem reads_ggufWalk (size : Nat) :
    Reads Mapped (ggufWalk size) (TakesBoth (fun _ (_ : Unit) p => p = ggufMagic) fun _ =>
      TakesBoth (fun _ version p => NumberText 4 version p) fun version =>
        TakesBoth (fun _ nTensors p => NumberText 8 nTensors p) fun nTensors =>
          TakesBoth (fun _ nKv p => NumberText 8 nKv p) fun nKv pos g p =>
            if version ≠ ggufVersion then TakesNone pos g p
            else TakesLoops size version nTensors nKv pos g p) :=
  reads_ggufStart.bind fun _ => (reads_cursorNumber 4).bind fun version =>
    (reads_cursorNumber 8).bind fun nTensors => (reads_cursorNumber 8).bind fun nKv =>
      (reads_stop _).ite (reads_ggufLoops size version nTensors nKv)

/-- The walk takes exactly the texts of layouts. -/
theorem ggufWalk_iff {size : Nat} {file : Bytes} (hfile : Mapped file) {g : GgufFile} {pos : Nat} :
    ggufWalk size file 0 = .ok (g, pos) ↔
      ∃ l : Layout, l.WellFormed ∧ l.text <+: file ∧ g = l.walked size ∧ pos = l.text.length := by
  rw [reads_ggufWalk size file hfile 0 (Nat.zero_le _)]
  constructor
  · rintro ⟨p, ⟨_, _, _, rfl, ⟨version, _, _, ⟨-, rfl⟩, ⟨nTensors, _, _, ⟨hnTensors, rfl⟩,
      ⟨nKv, _, q, ⟨hnKv, rfl⟩, hq, rfl⟩, rfl⟩, rfl⟩, rfl⟩, hp, rfl⟩
    split at hq
    · exact hq.elim
    · rename_i hversion
      obtain rfl := not_not.mp hversion
      obtain ⟨l, rfl, rfl, hpairs, hinfos, rfl, rfl⟩ := hq
      have htext : l.text = ggufMagic ++ (littleEndian 4 ggufVersion ++
          (littleEndian 8 l.infos.length ++ (littleEndian 8 l.pairs.length ++
            (l.pairs.flatMap Pair.text ++ l.infos.flatMap TensorInfo.text)))) := by
        simp only [Layout.text, headerText, List.append_assoc]
      rw [← htext] at hp ⊢
      refine ⟨l, ⟨hnKv, hnTensors, hpairs, hinfos⟩, hp, ?_, Nat.zero_add _⟩
      simp only [Layout.walked, length_headerText, length_littleEndian]
      rfl
  · rintro ⟨l, hl, hp, rfl, rfl⟩
    refine ⟨l.text, ⟨(), ggufMagic, _, rfl, ⟨ggufVersion, _, _, ⟨by decide, rfl⟩,
      ⟨l.infos.length, _, _, ⟨hl.nTensors, rfl⟩, ⟨l.pairs.length, _,
        l.pairs.flatMap Pair.text ++ l.infos.flatMap TensorInfo.text, ⟨hl.nKv, rfl⟩, ?_, rfl⟩, rfl⟩,
        rfl⟩, ?_⟩, hp, (Nat.zero_add _).symm⟩
    · beta_reduce
      rw [if_neg (not_not.mpr rfl)]
      refine ⟨l, rfl, rfl, hl.pairs, hl.infos, ?_, rfl⟩
      simp only [Layout.walked, length_headerText, length_littleEndian]
      rfl
    · simp only [Layout.text, headerText, List.append_assoc]

/-! ## Where the walk leaves the file -/

/-- The file announces a tensor, after some of its infos, with a wrong count of dimensions
and a name that is printed past the end of the file. -/
def EndlessName (file : Bytes) : Prop :=
  ∃ (l : Layout) (nTensors : Nat), l.pairs.length < 2 ^ 64 ∧ nTensors < 2 ^ 64 ∧
    l.infos.length < nTensors ∧ (∀ k ∈ l.pairs, k.WellFormed) ∧ (∀ i ∈ l.infos, i.WellFormed) ∧
    let before := headerText nTensors l.pairs.length ++
      (l.pairs.flatMap Pair.text ++ l.infos.flatMap TensorInfo.text)
    before <+: file ∧ EndlessAt file before.length

/-- Where the loops leave the file. -/
theorem stops_ggufLoops (size version nTensors nKv : Nat) :
    Stops Mapped Stop.outside (do
      let (kv, alignment) ← Reader.turns ggufKv nKv 32
      let (tensors, _) ← Reader.turns ggufTensor nTensors ()
      pure (⟨size, version, nKv, nTensors, alignment, 0, kv, tensors⟩ : GgufFile)) fun file pos =>
        ∃ l : Layout, l.pairs.length = nKv ∧ l.infos.length < nTensors ∧
          (∀ k ∈ l.pairs, k.WellFormed) ∧ (∀ i ∈ l.infos, i.WellFormed) ∧
          StandsAt (l.pairs.flatMap Pair.text ++ l.infos.flatMap TensorInfo.text) file pos ∧
          EndlessAt file (pos +
            (l.pairs.flatMap Pair.text ++ l.infos.flatMap TensorInfo.text).length) := by
  refine ((Stops.turns_nowhere reads_ggufKv stops_ggufKv nKv 32).bind
    (Reads.turns reads_ggufKv nKv 32) fun kv =>
      (Stops.turns reads_ggufTensor stops_ggufTensor nTensors ()).bind
        (Reads.turns reads_ggufTensor nTensors ()) fun tensors =>
          stops_pure _ _).congr fun file pos => ⟨?_, ?_⟩
  · rintro (h | ⟨⟨kv, alignment⟩, _, hkvs, hstands, ⟨n, hn, tensors, _, _, htensors, hinfos, hend⟩ |
      ⟨_, _, _, _, h⟩⟩)
    · exact h.elim
    · obtain ⟨pairs, hnKv, hpairs, rfl, rfl, rfl⟩ := (takesTurns_iff takesPair_iff).mp hkvs
      obtain ⟨infos, rfl, hall, rfl, -, rfl⟩ := (takesTurns_iff takesInfo_iff).mp htensors
      refine ⟨⟨pairs, infos⟩, hnKv, hn, hpairs, hall, standsAt_append.mpr ⟨hstands, hinfos⟩, ?_⟩
      rw [List.length_append, ← Nat.add_assoc]
      exact hend
    · exact absurd h id
  · rintro ⟨l, hnKv, hn, hpairs, hinfos, hstands, hend⟩
    obtain ⟨hstandsKv, hstandsInfos⟩ := standsAt_append.mp hstands
    rw [List.length_append, ← Nat.add_assoc] at hend
    exact .inr ⟨(placed Pair.kv Pair.text pos l.pairs, l.alignment), _,
      (takesTurns_iff takesPair_iff).mpr ⟨l.pairs, hnKv, hpairs, rfl, rfl, rfl⟩, hstandsKv,
      .inl ⟨l.infos.length, hn, l.infos.map TensorInfo.tensor, (), _,
        (takesTurns_iff takesInfo_iff).mpr
          ⟨l.infos, rfl, hinfos, (placed_const _ _ _ _).symm, rfl, rfl⟩, hstandsInfos, hend⟩⟩

/-- The header stands in front when its fields do. -/
theorem standsAt_headerText {nTensors nKv : Nat} {file : Bytes} :
    StandsAt (headerText nTensors nKv) file 0 ↔
      StandsAt ggufMagic file 0 ∧ StandsAt (littleEndian 4 ggufVersion) file 4 ∧
        StandsAt (littleEndian 8 nTensors) file 8 ∧ StandsAt (littleEndian 8 nKv) file 16 := by
  have hlen : ggufMagic.length = 4 := by decide
  simp only [headerText, standsAt_append, length_littleEndian, hlen, Nat.zero_add, Nat.reduceAdd]

/-- The walk reads outside the file exactly for an endless name. -/
theorem stops_ggufWalk {size : Nat} {file : Bytes} (hfile : Mapped file) :
    ggufWalk size file 0 = .error .outside ↔ EndlessName file := by
  have hmagic : ggufMagic.length = 4 := by decide
  have hwalk := (stops_ggufStart.bind reads_ggufStart fun _ =>
    (stops_cursorNumber 4).bind (reads_cursorNumber 4) fun version =>
      (stops_cursorNumber 8).bind (reads_cursorNumber 8) fun nTensors =>
        (stops_cursorNumber 8).bind (reads_cursorNumber 8) fun nKv =>
          (stops_stop (Stop.failed_ne (bytes "unsupported GGUF version " ++ decimal version))).ite
            (c := version ≠ ggufVersion) (stops_ggufLoops size version nTensors nKv))
    file hfile 0 (Nat.zero_le _)
  refine hwalk.trans ⟨?_, ?_⟩
  · rintro (h | ⟨_, _, rfl, hstart, h | ⟨version, _, ⟨-, rfl⟩, hstandsVersion,
      h | ⟨nTensors, _, ⟨hnTensors, rfl⟩, hstandsTensors,
        h | ⟨nKv, _, ⟨hnKv, rfl⟩, hstandsKv, h⟩⟩⟩⟩)
    · exact h.elim
    · exact h.elim
    · exact h.elim
    · exact h.elim
    · simp only [hmagic, length_littleEndian, Nat.zero_add, Nat.reduceAdd] at h hstandsKv
      simp only [hmagic, length_littleEndian, Nat.zero_add, Nat.reduceAdd] at hstandsTensors
      simp only [hmagic, Nat.zero_add] at hstandsVersion
      split at h
      · exact h.elim
      · rename_i hversion
        obtain rfl := not_not.mp hversion
        obtain ⟨l, rfl, hn, hpairs, hinfos, hstands, hend⟩ := h
        refine ⟨l, nTensors, hnKv, hnTensors, hn, hpairs, hinfos, ?_, ?_⟩
        · refine standsAt_append.mpr ⟨standsAt_headerText.mpr
            ⟨hstart, hstandsVersion, hstandsTensors, hstandsKv⟩, ?_⟩
          rw [length_headerText]
          exact hstands
        · rw [List.length_append, length_headerText]
          exact hend
  · rintro ⟨l, nTensors, hnKv, hnTensors, hn, hpairs, hinfos, hstands, hend⟩
    obtain ⟨hheader, hstands⟩ := standsAt_append.mp
      (show StandsAt _ file 0 from hstands)
    obtain ⟨hstart, hstandsVersion, hstandsTensors, hstandsKv⟩ := standsAt_headerText.mp hheader
    rw [List.length_append, length_headerText] at hend
    rw [length_headerText] at hstands
    refine .inr ⟨(), _, rfl, hstart, .inr ⟨ggufVersion, _, ⟨by decide, rfl⟩, ?_, .inr ⟨nTensors, _,
      ⟨hnTensors, rfl⟩, ?_, .inr ⟨l.pairs.length, _, ⟨hnKv, rfl⟩, ?_, ?_⟩⟩⟩⟩
    all_goals simp only [hmagic, length_littleEndian, Nat.zero_add, Nat.reduceAdd]
    · exact hstandsVersion
    · exact hstandsTensors
    · exact hstandsKv
    · rw [if_neg (not_not.mpr rfl)]
      exact ⟨l, rfl, hn, hpairs, hinfos, hstands, hend⟩

end Sf37.Gguf
