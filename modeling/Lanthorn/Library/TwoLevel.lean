import Mathlib.Logic.Function.Basic
import Mathlib.Tactic.Common

/-!
# Two-level tables

A directory names a table for some of its slots, and a table has an entry at some of its places. A
look-up goes through both. When no two slots share a table, writing one entry changes the look-up of one
pair of a slot and a place (`lookup_setEntry`), and giving a slot an unused empty table changes none
(`lookup_addTable`).
-/

set_option linter.unusedSectionVars false

namespace Lanthorn.Library

open Function

/-- The tables of the slots of a directory and the entries of the tables. -/
@[ext] structure TwoLevel (ι τ κ ε : Type*) where
  dir : ι → Option τ
  entry : τ → κ → Option ε

namespace TwoLevel

variable {ι τ κ ε : Type*} [DecidableEq ι] [DecidableEq τ] [DecidableEq κ]

def lookup (s : TwoLevel ι τ κ ε) (i : ι) (j : κ) : Option ε := (s.dir i).bind fun t ↦ s.entry t j

def Exclusive (s : TwoLevel ι τ κ ε) : Prop :=
  ∀ i i' t, s.dir i = some t → s.dir i' = some t → i = i'

def setEntry (s : TwoLevel ι τ κ ε) (t : τ) (j : κ) (e : Option ε) : TwoLevel ι τ κ ε :=
  { s with entry := update s.entry t (update (s.entry t) j e) }

def addTable (s : TwoLevel ι τ κ ε) (i : ι) (t : τ) : TwoLevel ι τ κ ε where
  dir := update s.dir i (some t)
  entry := update s.entry t fun _ ↦ none

variable {s : TwoLevel ι τ κ ε} {i : ι} {t : τ}

theorem lookup_of_dir (hdir : s.dir i = some t) (j : κ) : s.lookup i j = s.entry t j := by
  rw [lookup, hdir, Option.bind_some]

theorem lookup_of_dir_none (hdir : s.dir i = none) (j : κ) : s.lookup i j = none := by
  rw [lookup, hdir, Option.bind_none]

theorem lookup_setEntry (hexclusive : s.Exclusive) (hdir : s.dir i = some t) (j : κ) (e : Option ε)
    (i' : ι) (j' : κ) : (s.setEntry t j e).lookup i' j' = if i' = i ∧ j' = j then e else s.lookup i' j' := by
  cases hdir' : s.dir i' with
  | none => grind [lookup, setEntry]
  | some t' =>
    have htable : t' = t ↔ i' = i :=
      ⟨fun heq ↦ hexclusive i' i t (heq ▸ hdir') hdir, fun heq ↦ by simpa [heq, hdir] using hdir'.symm⟩
    simp only [lookup, setEntry, hdir', Option.bind_some, update_apply, htable]
    by_cases hi : i' = i
    · simp [hi, htable.mpr hi, update_apply]
    · simp [hi]

theorem lookup_addTable (hnone : s.dir i = none) (hfresh : ∀ i', s.dir i' ≠ some t) (i' : ι) (j : κ) :
    (s.addTable i t).lookup i' j = s.lookup i' j := by
  by_cases hi : i' = i
  · simp [lookup, addTable, hi, hnone]
  · cases hdir' : s.dir i' with
    | none => simp [lookup, addTable, hi, hdir']
    | some t' =>
      have hne : t' ≠ t := fun heq ↦ hfresh i' (heq ▸ hdir')
      simp [lookup, addTable, hi, hdir', hne]

theorem Exclusive.addTable (hexclusive : s.Exclusive) (hfresh : ∀ i', s.dir i' ≠ some t) :
    (s.addTable i t).Exclusive := by
  intro a b t' ha hb
  simp only [TwoLevel.addTable, update_apply] at ha hb
  split_ifs at ha hb with hai hbi hbi
  · rw [hai, hbi]
  · exact absurd (hb.trans ha.symm) (hfresh b)
  · exact absurd (ha.trans hb.symm) (hfresh a)
  · exact hexclusive a b t' ha hb

end TwoLevel

end Lanthorn.Library
