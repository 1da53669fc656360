/-
Sf37.Store.Directory — a directory of files, one for each name, in the order it
lists them.

* `read_write_self`, `read_unlink_self` and their `_of_ne` forms: what is read back.
* `mem_files_iff`: a file is in the directory when its bytes are what is read.
* `weight_unlink`, `weight_write_le`: what a change does to the sum of a measure.
-/
import Sf37.Store.Keyed
import Sf37.Text.CString
import Mathlib.Algebra.BigOperators.Group.List.Basic
import Mathlib.Algebra.GroupWithZero.Nat

namespace Sf37.Store

open Sf37.Text

/-- A file of a directory. -/
structure File where
  name : Bytes
  bytes : Bytes
  deriving DecidableEq, Repr

/-- A directory: its files in the order it lists them, one for each name. -/
@[ext]
structure Directory where
  files : List File
  unique : Unique File.name files

namespace Directory

variable {d : Directory} {n m b : Bytes} {f : File}

/-! ## Reading and changing -/

/-- The bytes under a name. -/
def read (d : Directory) (n : Bytes) : Option Bytes := (lookup File.name n d.files).map File.bytes

/-- Take a name away. -/
def unlink (d : Directory) (n : Bytes) : Directory where
  files := remove File.name n d.files
  unique := d.unique.remove

theorem unique_append_of_not_mem {l : List File} (hl : Unique File.name l)
    (hn : ∀ f ∈ l, f.name ≠ n) : Unique File.name (l ++ [⟨n, b⟩]) := by
  rw [Unique, List.map_append]
  refine List.nodup_append.mpr ⟨hl, by simp, ?_⟩
  intro x hx y hy hxy
  obtain ⟨f, hf, rfl⟩ := List.mem_map.mp hx
  obtain rfl : y = n := by simpa using hy
  exact hn f hf hxy

/-- Create a file, or replace the bytes under its name. -/
def write (d : Directory) (n b : Bytes) : Directory :=
  if h : ∀ f ∈ d.files, f.name ≠ n then
    { files := d.files ++ [⟨n, b⟩], unique := unique_append_of_not_mem d.unique h }
  else
    { files := update File.name n (fun f => { f with bytes := b }) d.files
      unique := d.unique.update fun _ => rfl }

/-- Move a file under another name, over what was there. -/
def rename (d : Directory) (n m : Bytes) : Directory :=
  match d.read n with
  | none => d
  | some b => (d.unlink n).write m b

/-! ## What is read back -/

theorem mem_files_iff : f ∈ d.files ↔ d.read f.name = some f.bytes := by
  rw [read, Option.map_eq_some_iff]
  constructor
  · intro h
    exact ⟨f, (lookup_eq_some_iff d.unique).mpr ⟨h, rfl⟩, rfl⟩
  · rintro ⟨g, hg, hb⟩
    obtain ⟨hmem, hn⟩ := (lookup_eq_some_iff d.unique).mp hg
    obtain rfl : g = f := by
      cases g
      cases f
      exact congrArg₂ File.mk hn hb
    exact hmem

theorem read_eq_some_iff : d.read n = some b ↔ (⟨n, b⟩ : File) ∈ d.files :=
  (mem_files_iff (f := ⟨n, b⟩)).symm

theorem read_eq_none_iff : d.read n = none ↔ ∀ f ∈ d.files, f.name ≠ n := by
  rw [read, Option.map_eq_none_iff, lookup_eq_none_iff]

theorem mem_unlink : f ∈ (d.unlink n).files ↔ f ∈ d.files ∧ f.name ≠ n := mem_remove

theorem read_unlink_self : (d.unlink n).read n = none := by
  rw [read_eq_none_iff]
  exact fun f hf => (mem_unlink.mp hf).2

theorem read_unlink_of_ne (h : m ≠ n) : (d.unlink n).read m = d.read m := by
  refine Option.ext fun b => ?_
  rw [read_eq_some_iff, read_eq_some_iff, mem_unlink]
  exact ⟨fun hf => hf.1, fun hf => ⟨hf, h⟩⟩

theorem mem_write : f ∈ (d.write n b).files ↔ f = ⟨n, b⟩ ∨ (f ∈ d.files ∧ f.name ≠ n) := by
  rw [write]
  split
  case isTrue h =>
    simp only [List.mem_append, List.mem_singleton]
    exact ⟨fun hf => hf.elim (fun hm => Or.inr ⟨hm, h f hm⟩) Or.inl,
      fun hf => hf.elim Or.inr fun hm => Or.inl hm.1⟩
  case isFalse h =>
    rw [mem_update]
    refine or_congr ?_ Iff.rfl
    constructor
    · rintro ⟨g, -, hn, rfl⟩
      exact congrArg (fun x => (⟨x, b⟩ : File)) hn
    · rintro rfl
      push Not at h
      obtain ⟨g, hg, hn⟩ := h
      exact ⟨g, hg, hn, congrArg (fun x => (⟨x, b⟩ : File)) hn.symm⟩

theorem read_write_self : (d.write n b).read n = some b :=
  read_eq_some_iff.mpr (mem_write.mpr (Or.inl rfl))

theorem mem_rename (h : d.read n = some b) :
    f ∈ (d.rename n m).files ↔ f = ⟨m, b⟩ ∨ (f ∈ d.files ∧ f.name ≠ n ∧ f.name ≠ m) := by
  rw [rename, h]
  simp only [mem_write, mem_unlink, and_assoc]

/-! ## Sums over the files -/

/-- The sum of a measure over the files. -/
def weight (w : File → Nat) (d : Directory) : Nat := (d.files.map w).sum

theorem weight_unlink {w : File → Nat} (h : f ∈ d.files) :
    d.weight w = w f + (d.unlink f.name).weight w := by
  rw [weight, ((perm_cons_remove d.unique h).map w).sum_eq, List.map_cons, List.sum_cons]
  rfl

theorem weight_unlink_le (w : File → Nat) (n : Bytes) : (d.unlink n).weight w ≤ d.weight w := by
  cases hr : d.read n with
  | none =>
    have hsame : d.unlink n = d := Directory.ext (remove_eq_self (read_eq_none_iff.mp hr))
    rw [hsame]
  | some b =>
    have h := weight_unlink (w := w) (read_eq_some_iff.mp hr)
    exact h ▸ Nat.le_add_left _ _

/-- A write replaces the measure of what was under the name. -/
theorem weight_write (w : File → Nat) :
    (d.write n b).weight w = (d.unlink n).weight w + w ⟨n, b⟩ := by
  have hmem : (⟨n, b⟩ : File) ∈ (d.write n b).files := mem_write.mpr (Or.inl rfl)
  rw [weight_unlink hmem, Nat.add_comm]
  refine congrArg (· + _) ?_
  have hset : ((d.write n b).unlink n).files = (d.unlink n).files := by
    rw [write]
    split
    case isTrue h =>
      simp only [unlink, remove, List.filter_append]
      simp
    case isFalse h =>
      exact remove_update fun _ => rfl
  exact congrArg (fun l => (List.map w l).sum) hset

theorem weight_write_le (w : File → Nat) :
    (d.write n b).weight w ≤ d.weight w + w ⟨n, b⟩ := by
  rw [weight_write]
  exact Nat.add_le_add_right (weight_unlink_le w n) _

theorem weight_rename (w : File → Nat) (h : d.read n = some b) :
    (d.rename n m).weight w + w ⟨n, b⟩ ≤ d.weight w + w ⟨m, b⟩ := by
  rw [rename, h]
  have hw := weight_write_le (d := d.unlink n) (n := m) (b := b) w
  have hu := weight_unlink (w := w) (read_eq_some_iff.mp h)
  simp only [hu]
  omega

end Directory

end Sf37.Store
