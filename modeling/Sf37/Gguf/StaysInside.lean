/-
Sf37.Gguf.StaysInside — when `gguf_open` stays inside its file, and the tensors it accepts
do.

`abs_offset` is a sum of two 64-bit numbers and may wrap around; the check behind it then
passes for a tensor that starts before the data.

* `ggufOpenText_ok_iff`: the files that are opened, and what is read from them.
* `staysInside_iff`: the walk stays in the file, and the tensors' bytes are in it and as
  many as their dimensions say, exactly when no offset wraps and no name is endless.
-/
import Sf37.Gguf.Layout

namespace Sf37.Gguf

open Sf37.Text Sf37.Run

/-! ## The files that are opened -/

/-- The tensor with its place in the file. -/
def place (dataOffset : Nat) (t : Tensor) : Tensor :=
  { t with absOffset := absOffset dataOffset t }

theorem placeTensors_ok_iff {size dataOffset : Nat} {ts out : List Tensor} :
    placeTensors size dataOffset ts = .ok out ↔
      (∀ t ∈ ts, absOffset dataOffset t + t.nbytes ≤ size) ∧ out = ts.map (place dataOffset) := by
  induction ts generalizing out with
  | nil =>
    constructor
    · intro h
      cases h
      exact ⟨fun _ ht => absurd ht List.not_mem_nil, rfl⟩
    · rintro ⟨-, rfl⟩
      rfl
  | cons t ts ih =>
    rw [placeTensors, List.forall_mem_cons]
    by_cases hout : size < absOffset dataOffset t ∨ size - absOffset dataOffset t < t.nbytes
    · rw [if_pos hout]
      refine ⟨nofun, ?_⟩
      rintro ⟨⟨hle, -⟩, -⟩
      omega
    · have hle : absOffset dataOffset t + t.nbytes ≤ size := by omega
      rw [if_neg hout]
      cases hrest : placeTensors size dataOffset ts with
      | error e =>
        refine ⟨nofun, ?_⟩
        rintro ⟨⟨-, hall⟩, rfl⟩
        have := ih.mpr ⟨hall, rfl⟩
        rw [hrest] at this
        cases this
      | ok placed =>
        obtain ⟨hall, rfl⟩ := ih.mp hrest
        constructor
        · intro h
          cases h
          exact ⟨⟨hle, hall⟩, rfl⟩
        · rintro ⟨-, rfl⟩
          rfl

theorem placeTensors_ne_outside (size dataOffset : Nat) (ts : List Tensor) :
    placeTensors size dataOffset ts ≠ .error .outside := by
  induction ts with
  | nil => nofun
  | cons t ts ih =>
    rw [placeTensors]
    split
    · nofun
    · cases hrest : placeTensors size dataOffset ts with
      | ok placed => nofun
      | error e =>
        rw [hrest] at ih
        exact ih

namespace Layout

/-- Where the data of the tensors begin. -/
def dataOffset (l : Layout) : Nat := alignU64 l.text.length l.alignment

/-- What the loader makes of the file. -/
def opened (size : Nat) (l : Layout) : GgufFile :=
  { l.walked size with
    dataOffset := l.dataOffset
    tensors := l.infos.map fun i => place l.dataOffset i.tensor }

/-- The tensors lie in a file of a size, when offsets wrap around. -/
def FitsModulo (size : Nat) (l : Layout) : Prop :=
  ∀ i ∈ l.infos, (l.dataOffset + i.relOffset) % 2 ^ 64 + tensorBytes i.type i.dim ≤ size

end Layout

theorem ggufPlace_ok_iff {size : Nat} {l : Layout} {g : GgufFile} :
    ggufPlace (l.walked size) l.text.length = .ok g ↔ l.FitsModulo size ∧ g = l.opened size := by
  have hfits : ∀ out,
      placeTensors size l.dataOffset (l.infos.map TensorInfo.tensor) = .ok out ↔ _ :=
    fun out => placeTensors_ok_iff
  have hall : (∀ t ∈ l.infos.map TensorInfo.tensor,
      absOffset l.dataOffset t + t.nbytes ≤ size) ↔ l.FitsModulo size := List.forall_mem_map
  have hopen : ggufPlace (l.walked size) l.text.length =
      (placeTensors size l.dataOffset (l.infos.map TensorInfo.tensor)).map fun tensors =>
        { l.walked size with dataOffset := l.dataOffset, tensors := tensors } := by
    show ggufPlace (l.walked size) l.text.length = (placeTensors (l.walked size).size
      (alignU64 l.text.length (l.walked size).alignment) (l.walked size).tensors).map _
    rw [ggufPlace]
    dsimp only
    cases placeTensors _ _ _ <;> rfl
  rw [hopen]
  cases hplaced : placeTensors size l.dataOffset (l.infos.map TensorInfo.tensor) with
  | error e =>
    refine ⟨(fun h => by cases h), fun h => ?_⟩
    have := (hfits _).mpr ⟨hall.mpr h.1, rfl⟩
    rw [hplaced] at this
    cases this
  | ok placed =>
    obtain ⟨hle, rfl⟩ := (hfits _).mp hplaced
    have hopened : ({ l.walked size with
        dataOffset := l.dataOffset
        tensors := (l.infos.map TensorInfo.tensor).map (place l.dataOffset) } : GgufFile) =
          l.opened size := by
      rw [Layout.opened, List.map_map]
      rfl
    rw [Except.map, hopened, Except.ok.injEq]
    exact ⟨fun h => ⟨hall.mp hle, h.symm⟩, fun h => h.2.symm⟩

/-- The files that are opened, and what is read from them. -/
theorem ggufOpenText_ok_iff {file : File} {g : GgufFile} :
    ggufOpenText file = .ok g ↔ 32 ≤ file.data.length ∧
      ∃ l : Layout, l.WellFormed ∧ l.text <+: file.data ∧ l.FitsModulo file.data.length ∧
        g = l.opened file.data.length := by
  unfold ggufOpenText
  by_cases hsize : file.data.length < 32
  · rw [if_pos hsize]
    exact ⟨nofun, fun h => absurd h.1 (Nat.not_le.mpr hsize)⟩
  · rw [if_neg hsize, and_iff_right (Nat.not_lt.mp hsize)]
    cases hwalk : ggufWalk file.data.length file.data 0 with
    | error e =>
      refine ⟨nofun, ?_⟩
      rintro ⟨l, hl, htext, -, -⟩
      rw [(ggufWalk_iff file.fits).mpr ⟨l, hl, htext, rfl, rfl⟩] at hwalk
      cases hwalk
    | ok walked =>
      obtain ⟨g', pos⟩ := walked
      obtain ⟨l, hl, htext, rfl, rfl⟩ := (ggufWalk_iff file.fits).mp hwalk
      constructor
      · intro hplaced
        obtain ⟨hfits, rfl⟩ := ggufPlace_ok_iff.mp hplaced
        exact ⟨l, hl, htext, hfits, rfl⟩
      · rintro ⟨l', hl', htext', hfits, rfl⟩
        have hsame : ggufWalk file.data.length file.data 0 =
            .ok (l'.walked file.data.length, l'.text.length) :=
          (ggufWalk_iff file.fits).mpr ⟨l', hl', htext', rfl, rfl⟩
        rw [hwalk] at hsame
        obtain ⟨hg, hpos⟩ := Prod.mk.inj (Except.ok.inj hsame)
        change ggufPlace (l.walked file.data.length) l.text.length = _
        rw [hg, hpos]
        exact ggufPlace_ok_iff.mpr ⟨hfits, rfl⟩

theorem ggufPlace_ne_outside (g : GgufFile) (pos : Nat) :
    ggufPlace g pos ≠ .error .outside := by
  have hplaced := placeTensors_ne_outside g.size (alignU64 pos g.alignment) g.tensors
  intro hout
  rw [ggufPlace] at hout
  cases h : placeTensors g.size (alignU64 pos g.alignment) g.tensors with
  | ok placed =>
    rw [h] at hout
    cases hout
  | error e =>
    rw [h] at hout hplaced
    exact hplaced (congrArg _ (Except.error.inj hout))

/-- An endless name is a long one. -/
theorem EndlessName.length_le {file : Bytes} (h : EndlessName file) : 32 ≤ file.length := by
  obtain ⟨l, nTensors, -, -, -, -, -, hbefore, name, ndim, -, -, -, hstands, hlong, -⟩ := h
  have hname := hstands.le hbefore.length_le
  have hlen : 8 + name.length ≤ (stringText name ++ littleEndian 4 ndim).length := by
    rw [List.length_append, length_stringText]
    exact Nat.le_add_right _ _
  have := Nat.mod_le name.length (2 ^ 32)
  omega

theorem ggufOpenText_outside_iff {file : File} :
    ggufOpenText file = .error .outside ↔ EndlessName file.data := by
  unfold ggufOpenText
  by_cases hsize : file.data.length < 32
  · rw [if_pos hsize]
    exact ⟨nofun, fun h => absurd h.length_le (Nat.not_le.mpr hsize)⟩
  · have houtside : ggufWalk file.data.length file.data 0 = .error .outside ↔ _ :=
      stops_ggufWalk file.fits
    rw [if_neg hsize, ← houtside]
    cases hwalk : ggufWalk file.data.length file.data 0 with
    | error e => simp
    | ok walked => exact ⟨fun h => absurd h (ggufPlace_ne_outside _ _), nofun⟩

/-! ## The law -/

theorem ggufOpen_ok_iff {errlen : Nat} {file : File} {g : GgufFile} :
    ggufOpen errlen file = .ok g ↔ ggufOpenText file = .ok g := by
  unfold ggufOpen
  split
  · rename_i error h
    rw [h]
    exact ⟨nofun, nofun⟩
  · rfl

theorem ggufOpen_outside_iff {errlen : Nat} {file : File} :
    ggufOpen errlen file = .error .outside ↔ EndlessName file.data := by
  rw [← ggufOpenText_outside_iff]
  unfold ggufOpen
  split
  · rename_i error h
    rw [h]
    exact ⟨nofun, nofun⟩
  · rfl

/-- The bytes of a tensor lie behind the start of the data and in the file, and are as
many as its dimensions and its type say. -/
structure TensorInside (size dataOffset : Nat) (t : Tensor) : Prop where
  inside : dataOffset + t.relOffset + t.nbytes ≤ size
  place : t.absOffset = dataOffset + t.relOffset
  ndim : t.dim.length = t.ndim
  exact : ∃ ti, typeTable t.type = some ti ∧ t.nbytes * ti.block = t.dim.prod * ti.bytes

/-- `gguf_open` never reads outside the file, and the tensors of a file it opens are
inside. -/
structure StaysInside (errlen : Nat) (file : File) : Prop where
  reads : ggufOpen errlen file ≠ .error .outside
  tensors : ∀ g, ggufOpen errlen file = .ok g →
    ∀ t ∈ g.tensors, TensorInside file.data.length g.dataOffset t

/-- The file is laid out as it should be and its tensors are in it when offsets wrap
around, but the offset of one of them does wrap around. -/
def OffsetWraps (file : Bytes) : Prop :=
  32 ≤ file.length ∧ ∃ l : Layout, l.WellFormed ∧ l.text <+: file ∧ l.FitsModulo file.length ∧
    ∃ i ∈ l.infos, 2 ^ 64 ≤ l.dataOffset + i.relOffset

theorem Sized.exact {type : Nat} {dim : List Nat} {ti : TypeInfo} (h : Sized type dim ti) :
    tensorBytes type dim * ti.block = dim.prod * ti.bytes := by
  have hhead : dim.headD 0 ∣ dim.prod := by
    match dim, h.ndim_pos with
    | d :: dim, _ => exact List.dvd_prod List.mem_cons_self
  unfold tensorBytes
  simp only [h.known]
  rw [Nat.mul_right_comm, Nat.div_mul_cancel (h.rows.trans hhead)]

/-- The loader stays inside the file exactly when no offset wraps and no name is endless. -/
theorem staysInside_iff (errlen : Nat) (file : File) :
    StaysInside errlen file ↔ ¬ OffsetWraps file.data ∧ ¬ EndlessName file.data := by
  constructor
  · intro h
    refine ⟨?_, fun hend => h.reads (ggufOpen_outside_iff.mpr hend)⟩
    rintro ⟨hsize, l, hl, htext, hfits, i, hi, hwraps⟩
    have hopen : ggufOpen errlen file = .ok (l.opened file.data.length) := ggufOpen_ok_iff.mpr
      (ggufOpenText_ok_iff.mpr ⟨hsize, l, hl, htext, hfits, rfl⟩)
    have hinside := (h.tensors _ hopen _ (List.mem_map_of_mem hi)).inside
    have hfile := file.fits
    change l.dataOffset + i.relOffset + _ ≤ _ at hinside
    omega
  · rintro ⟨hwraps, hend⟩
    refine ⟨fun h => hend (ggufOpen_outside_iff.mp h), fun g hopen t ht => ?_⟩
    obtain ⟨hsize, l, hl, htext, hfits, rfl⟩ :=
      ggufOpenText_ok_iff.mp (ggufOpen_ok_iff.mp hopen)
    obtain ⟨i, hi, rfl⟩ := List.mem_map.mp ht
    have hlt : l.dataOffset + i.relOffset < 2 ^ 64 := by
      by_contra hge
      exact hwraps ⟨hsize, l, hl, htext, hfits, i, hi, Nat.not_lt.mp hge⟩
    have hmod : (l.dataOffset + i.relOffset) % 2 ^ 64 = l.dataOffset + i.relOffset :=
      Nat.mod_eq_of_lt hlt
    have hinside := hfits i hi
    rw [hmod] at hinside
    obtain ⟨ti, hti⟩ := (hl.infos i hi).sized
    exact ⟨hinside, hmod, rfl, ti, hti.known, hti.exact⟩

/-- A file of one float whose offset makes it start at the front of the file. -/
def wrappingFile : File where
  data := headerText 1 0 ++ TensorInfo.text ⟨[], [1], tensorF32, 2 ^ 64 - 64⟩
  fits := by decide

theorem not_ggufOpen_staysInside :
    ¬ ∀ (errlen : Nat) (file : File), 32 ≤ file.data.length → StaysInside errlen file := by
  intro h
  have hopen : ggufOpen 512 wrappingFile =
      .ok ⟨56, 3, 0, 1, 32, 64, [], [⟨[], 1, [1], tensorF32, 2 ^ 64 - 64, 0, 4⟩]⟩ := by
    decide
  have hinside := (h 512 wrappingFile (by decide)).tensors _ hopen _ List.mem_cons_self
  exact absurd hinside.inside (by decide)

end Sf37.Gguf
