import Mathlib.Data.List.Forall2
import Refit.Diff.Edit
import Refit.Text.Lines

namespace Refit.Diff

open Refit.Text

/-- Lines on one side of a hunk: how many come before them, and how many they are. -/
structure Range where
  start : Nat
  len : Nat
  deriving DecidableEq, Repr

/-- A header and the lines under it, each kept, removed or inserted. -/
structure Hunk where
  old : Range
  new : Range
  body : List (Kind × List Char)
  deriving DecidableEq, Repr

/-- The lines that are not of a kind. -/
def linesBut (kind : Kind) (body : List (Kind × List Char)) : List (List Char) :=
  (body.filter fun line => line.1 ≠ kind).map Prod.snd

def Hunk.oldLines (h : Hunk) : List (List Char) := linesBut .insert h.body

def Hunk.newLines (h : Hunk) : List (List Char) := linesBut .remove h.body

def applyHunks : (done made : Nat) → List Hunk → List (List Char) → Option (List (List Char))
  | _, _, [], lines => some lines
  | done, made, h :: hs, lines =>
    let gap := h.old.start - done
    if done ≤ h.old.start ∧ h.new.start = made + gap ∧ gap ≤ lines.length ∧
        h.old.len = h.oldLines.length ∧ h.new.len = h.newLines.length ∧
        h.oldLines <+: lines.drop gap then
      (applyHunks (h.old.start + h.old.len) (h.new.start + h.new.len) hs
        (lines.drop (gap + h.old.len))).map fun rest => lines.take gap ++ (h.newLines ++ rest)
    else none

structure Patch where
  fromLabel : List Char
  toLabel : List Char
  hunks : List Hunk
  deriving DecidableEq, Repr

/-- The text that a patch makes of another. No line of it may go on where a line end is missing. -/
def Patch.apply (p : Patch) (text : List Char) : Option (List Char) :=
  (applyHunks 0 0 p.hunks (pieces text)).bind fun lines =>
    if pieces lines.flatten = lines then some lines.flatten else none

def Kind.reversed : Kind → Kind
  | keep => keep
  | remove => insert
  | insert => remove

def Hunk.reversed (h : Hunk) : Hunk :=
  ⟨h.new, h.old, h.body.map fun line => (line.1.reversed, line.2)⟩

def Patch.reversed (p : Patch) : Patch := ⟨p.toLabel, p.fromLabel, p.hunks.map Hunk.reversed⟩

/-- The hunks with the lengths of their bodies, each standing on the new side where the ones before
it put it. -/
def recount : (done made : Nat) → List Hunk → List Hunk
  | _, _, [] => []
  | done, made, h :: hs =>
    let start := made + (h.old.start - done)
    ⟨⟨h.old.start, h.oldLines.length⟩, ⟨start, h.newLines.length⟩, h.body⟩ ::
      recount (h.old.start + h.oldLines.length) (start + h.newLines.length) hs

/-- A patch of which nothing is believed but the lines and where the hunks start on the old side. -/
def Patch.recounted (p : Patch) : Patch := { p with hunks := recount 0 0 p.hunks }

def Hunk.kinds (h : Hunk) : List Kind := h.body.map Prod.fst

/-- The kinds before the first kept line. -/
def leading (kinds : List Kind) : List Kind := kinds.takeWhile (· ≠ .keep)

/-- The kinds after the last kept line, the last first. -/
def trailing (kinds : List Kind) : List Kind := leading kinds.reverse

def Only (kind : Kind) (kinds : List Kind) : Prop := kinds ≠ [] ∧ ∀ k ∈ kinds, k = kind

instance (kind : Kind) (kinds : List Kind) : Decidable (Only kind kinds) :=
  inferInstanceAs (Decidable (_ ∧ _))

/-- The header of `p` is that of `h`, but for what it says of a side of which a change at an end of
the hunk has no lines. -/
structure Hunk.Headed (p h : Hunk) : Prop where
  body : p.body = h.body
  oldStart : p.old.start = h.old.start
  old : ¬ Only .insert (trailing p.kinds) → p.old = h.old
  newStart : ¬ Only .remove (leading p.kinds) → p.new.start = h.new.start
  new : ¬ Only .remove (leading p.kinds) → ¬ Only .remove (trailing p.kinds) → p.new = h.new

/-- No change at an end of the hunk leaves a side without lines where the header depends on it. -/
def Hunk.Plain (h : Hunk) : Prop :=
  ¬ Only .remove (leading h.kinds) ∧ ¬ Only .remove (trailing h.kinds) ∧
    ¬ Only .insert (trailing h.kinds)

instance (h : Hunk) : Decidable h.Plain := inferInstanceAs (Decidable (_ ∧ _))

theorem Hunk.Headed.eq {p h : Hunk} (hp : p.Headed h) (hplain : p.Plain) : p = h := by
  obtain ⟨hfirst, hlast, hadded⟩ := hplain
  obtain ⟨old, new, body⟩ := h
  obtain ⟨rfl, -, hold, -, hnew⟩ := hp
  obtain rfl := hold hadded
  obtain rfl := hnew hfirst hlast
  rfl

theorem eq_of_headed {printed hs : List Hunk} (h : List.Forall₂ Hunk.Headed printed hs)
    (hplain : ∀ p ∈ printed, p.Plain) : printed = hs := by
  induction h with
  | nil => rfl
  | cons hp _ ih =>
    rw [hp.eq (hplain _ List.mem_cons_self), ih fun p hp => hplain p (List.mem_cons_of_mem _ hp)]

/-- A kept line has a changed one among the three before it or the three after it. -/
def Hunk.Close (h : Hunk) : Prop := ∀ before after, h.kinds = before ++ .keep :: after →
  ∃ k ∈ before.reverse.take 3 ++ after.take 3, k ≠ .keep

variable {i j : Nat} {old new : List (List Char)} {hs : List Hunk}

def Aligned : (i j : Nat) → List Hunk → (old new : List (List Char)) → Prop
  | _, _, [], old, new => old = new
  | i, j, h :: hs, old, new => ∃ gap old' new',
    old = gap ++ (h.oldLines ++ old') ∧ new = gap ++ (h.newLines ++ new') ∧
      h.old = ⟨i + gap.length, h.oldLines.length⟩ ∧ h.new = ⟨j + gap.length, h.newLines.length⟩ ∧
      Aligned (i + gap.length + h.oldLines.length) (j + gap.length + h.newLines.length) hs old' new'

theorem applyHunks_of_aligned (ha : Aligned i j hs old new) :
    applyHunks i j hs old = some new := by
  induction hs generalizing i j old new with
  | nil => exact congrArg some ha
  | cons hunk hs ih =>
    obtain ⟨gap, old', new', rfl, rfl, hold, hnew, hrest⟩ := ha
    have hgap : i + gap.length - i = gap.length := Nat.add_sub_cancel_left ..
    rw [applyHunks]
    simp only [hold, hnew, hgap]
    rw [if_pos ⟨Nat.le_add_right _ _, trivial, by simp, trivial, trivial, by simp⟩,
      List.take_left, ← List.drop_drop, List.drop_left, List.drop_left, ih hrest]
    rfl

/-- A patch whose hunks lead from one text to another makes the second of the first. -/
theorem apply_of_aligned {p : Patch} {text text' : List Char}
    (ha : Aligned 0 0 p.hunks (pieces text) (pieces text')) : p.apply text = some text' := by
  rw [Patch.apply, applyHunks_of_aligned ha, Option.bind_some, pieces_flatten, if_pos rfl]

theorem linesBut_reversed (kind : Kind) (body : List (Kind × List Char)) :
    linesBut kind.reversed (body.map fun line => (line.1.reversed, line.2)) =
      linesBut kind body := by
  have hinj (k k' : Kind) : k.reversed = k'.reversed ↔ k = k' := by
    cases k <;> cases k' <;> decide
  simp only [linesBut, List.filter_map, List.map_map]
  congr 1
  refine List.filter_congr fun line _ => ?_
  simp [hinj]

theorem Hunk.reversed_oldLines (h : Hunk) : h.reversed.oldLines = h.newLines :=
  linesBut_reversed .remove h.body

theorem Hunk.reversed_newLines (h : Hunk) : h.reversed.newLines = h.oldLines :=
  linesBut_reversed .insert h.body

theorem Aligned.reversed (ha : Aligned i j hs old new) :
    Aligned j i (hs.map Hunk.reversed) new old := by
  induction hs generalizing i j old new with
  | nil => exact Eq.symm ha
  | cons hunk hs ih =>
    obtain ⟨gap, old', new', rfl, rfl, hold, hnew, hrest⟩ := ha
    refine ⟨gap, new', old', ?_, ?_, ?_, ?_, ?_⟩
    · rw [hunk.reversed_oldLines]
    · rw [hunk.reversed_newLines]
    · rw [hunk.reversed_oldLines]
      exact hnew
    · rw [hunk.reversed_newLines]
      exact hold
    · rw [hunk.reversed_oldLines, hunk.reversed_newLines]
      exact ih hrest

theorem reversed_apply_of_aligned {p : Patch} {text text' : List Char}
    (ha : Aligned 0 0 p.hunks (pieces text) (pieces text')) :
    p.reversed.apply text' = some text :=
  apply_of_aligned ha.reversed

theorem recount_of_aligned {printed : List Hunk} (ha : Aligned i j hs old new)
    (hp : List.Forall₂ Hunk.Headed printed hs) : recount i j printed = hs := by
  induction hp generalizing i j old new with
  | nil => rfl
  | @cons p hunk printed hs hsame _ ih =>
    obtain ⟨gap, old', new', -, -, hold, hnew, hrest⟩ := ha
    obtain ⟨hbody, hstart, -⟩ := hsame
    have holdLines : p.oldLines = hunk.oldLines := congrArg (linesBut .insert) hbody
    have hnewLines : p.newLines = hunk.newLines := congrArg (linesBut .remove) hbody
    have hat : hunk.old.start = i + gap.length := congrArg Range.start hold
    rw [recount]
    simp only [holdLines, hnewLines, hbody, hstart, hat, Nat.add_sub_cancel_left]
    rw [ih hrest, ← hold, ← hnew]

end Refit.Diff
