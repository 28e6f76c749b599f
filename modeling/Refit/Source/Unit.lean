import Refit.Text.Measure
import Refit.Text.Search

namespace Refit.Source

open Refit.Text

def toClosing : (depth : Nat) → List Char → Option (List Char × List Char)
  | _, [] => none
  | depth, c :: rest =>
    if c = '{' then (toClosing (depth + 1) rest).map fun (block, after) => (c :: block, after)
    else if c = '}' then
      if depth ≤ 1 then some ([c], rest)
      else (toClosing (depth - 1) rest).map fun (block, after) => (c :: block, after)
    else (toClosing depth rest).map fun (block, after) => (c :: block, after)

/-- The text before the unit, the unit, and the text after it. -/
def splitUnit? (anchor cs : List Char) : Option (List Char × List Char × List Char) := do
  let (before, found) ← cut anchor cs
  let (head, opened) ← cut ['{'] found
  let (block, after) ← toClosing 0 opened
  return (before, head ++ block, after)

def findUnit (anchor cs : List Char) : Option Span :=
  (splitUnit? anchor cs).map fun (before, unit, _) =>
    ⟨byteSize before, byteSize before + byteSize unit⟩

theorem toClosing_append {depth : Nat} {cs block after : List Char}
    (h : toClosing depth cs = some (block, after)) : block ++ after = cs := by
  fun_induction toClosing depth cs generalizing block after with
  | case1 => simp at h
  | case2 depth rest ih =>
    simp only [Option.map_eq_some_iff, Prod.exists, Prod.mk.injEq] at h
    obtain ⟨b, a, hs, rfl, rfl⟩ := h
    simp [ih hs]
  | case3 => simp only [Option.some.injEq, Prod.mk.injEq] at h; simp [← h.1, ← h.2]
  | case4 depth rest hd _ ih =>
    simp only [Option.map_eq_some_iff, Prod.exists, Prod.mk.injEq] at h
    obtain ⟨b, a, hs, rfl, rfl⟩ := h
    simp [ih hs]
  | case5 depth c rest h₁ h₂ ih =>
    simp only [Option.map_eq_some_iff, Prod.exists, Prod.mk.injEq] at h
    obtain ⟨b, a, hs, rfl, rfl⟩ := h
    simp [ih hs]

theorem splitUnit?_append {anchor cs before unit after : List Char}
    (h : splitUnit? anchor cs = some (before, unit, after)) : before ++ (unit ++ after) = cs := by
  simp only [splitUnit?, Option.bind_eq_bind, Option.bind_eq_some_iff, Prod.exists,
    Option.pure_def, Option.some.injEq, Prod.mk.injEq] at h
  obtain ⟨b, found, h₁, head, opened, h₂, block, a, h₃, rfl, rfl, rfl⟩ := h
  rw [← cut_append h₁, ← cut_append h₂, ← toClosing_append h₃, List.append_assoc]

theorem split?_of_findUnit {anchor cs : List Char} {span : Span}
    (h : findUnit anchor cs = some span) :
    ∃ before unit after, splitUnit? anchor cs = some (before, unit, after) ∧
      span.split? cs = some (before, unit, after) := by
  simp only [findUnit, Option.map_eq_some_iff, Prod.exists] at h
  obtain ⟨before, unit, after, hs, rfl⟩ := h
  refine ⟨before, unit, after, hs, ?_⟩
  rw [← splitUnit?_append hs]
  exact Span.split?_between before unit after

end Refit.Source
