import Refit.Draft
import Refit.Proofs.Source.Extent
import Refit.Strategy

/-!
Units replaced by their text. A unit holds its anchor, if no brace stands in that, so the first place
of the anchor is also the first place of the text of the unit (`Parts.cut_unit`), and it is all the
same whether a unit is replaced where it lies or where its text is found (`replaceUnit_literal`).
-/

namespace Refit

open Text

namespace Source

variable {anchor cs before head block after : List Char}

theorem Parts.anchor_prefix (h : Parts anchor cs before head block after) (ha : '{' ∉ anchor) :
    anchor <+: head := by
  obtain ⟨rest, hrest⟩ := isPrefixOf_of_cut h.opened
  have hfound := isPrefixOf_of_cut h.anchored
  rw [← hrest] at hfound
  obtain hp | ⟨more, rfl⟩ := List.prefix_or_prefix_of_prefix hfound (List.prefix_append head _)
  · exact hp
  · have hmore : more <+: ['{'] ++ rest := (List.prefix_append_right_inj head).mp hfound
    cases more with
    | nil => exact ⟨[], by simp⟩
    | cons c more =>
      obtain ⟨rfl, -⟩ := List.cons_prefix_cons.mp hmore
      exact absurd (List.mem_append_right head List.mem_cons_self) ha

/-- The text of a unit stands nowhere before the unit. -/
theorem Parts.cut_unit (h : Parts anchor cs before head block after) (ha : '{' ∉ anchor) :
    cut (head ++ block) cs = some (before, head ++ (block ++ after)) := by
  have hunit : head ++ block <+: head ++ (block ++ after) := by
    rw [← List.append_assoc]
    exact List.prefix_append _ after
  apply cut_eq_some h.append hunit
  intro a b hcs hb
  have hanchor : anchor <+: b :=
    ((h.anchor_prefix ha).trans (List.prefix_append head block)).trans hb
  exact prefix_of_cut h.anchored hcs hanchor

end Source

namespace Draft

variable {d : Draft} {anchor text unit : String}

def replaceLiterally (d : Draft) (anchor text : String) : Draft :=
  match d.unit? anchor with
  | none => d
  | some unit =>
    { d with content := String.ofList (replaceFirst unit.toList text.toList d.content.toList) }

theorem unit?_eq_some (h : d.unit? anchor = some unit) : ∃ before head block after,
    Source.Parts anchor.toList d.content.toList before head block after ∧
      unit = String.ofList (head ++ block) := by
  obtain ⟨⟨before, unit, after⟩, hsplit, rfl⟩ := Option.map_eq_some_iff.mp h
  obtain ⟨head, block, rfl, hparts⟩ := Source.splitUnit?_eq_some.mp hsplit
  exact ⟨before, head, block, after, hparts, rfl⟩

section Replaced

variable {before head block after : List Char}

theorem replaceUnit_parts
    (h : Source.Parts anchor.toList d.content.toList before head block after) :
    (d.replaceUnit anchor text).1 =
      { d with content := String.ofList (before ++ (text.toList ++ after)) } := by
  have hsplit : Span.split? ⟨byteSize before, byteSize before + byteSize (head ++ block)⟩
      d.content.toList = some (before, head ++ block, after) := by
    rw [← h.append, ← List.append_assoc head]
    exact Span.split?_between before (head ++ block) after
  unfold replaceUnit locate
  rw [h.findUnit_eq]
  simp only [replaceSpan, hsplit, Option.map_some, Option.getD_some]

theorem replaceLiterally_parts (ha : '{' ∉ anchor.toList)
    (h : Source.Parts anchor.toList d.content.toList before head block after)
    (hu : d.unit? anchor = some (String.ofList (head ++ block))) :
    d.replaceLiterally anchor text =
      { d with content := String.ofList (before ++ (text.toList ++ after)) } := by
  unfold replaceLiterally
  rw [hu]
  dsimp only
  rw [String.toList_ofList, replaceFirst, h.cut_unit ha]
  dsimp only
  rw [← List.append_assoc head, List.drop_left, List.append_assoc]

theorem replaceUnit_none (h : d.unit? anchor = none) : (d.replaceUnit anchor text).1 = d := by
  have hlocate : d.locate anchor = none := by
    rw [locate, Source.findUnit, Option.map_eq_none_iff]
    exact Option.map_eq_none_iff.mp h
  unfold replaceUnit
  rw [hlocate]

end Replaced

/-- A unit is replaced where its text stands first, and all around it stays. -/
theorem replaceUnit_literal :
    (∀ s ∈ Strategy.catalogue, '{' ∉ s.anchor.toList) ∧
    ∀ (d : Draft) (anchor text : String), '{' ∉ anchor.toList →
      (d.replaceUnit anchor text).1 = d.replaceLiterally anchor text ∧
      (d.unit? anchor = none → d.replaceLiterally anchor text = d) ∧
      ∀ unit, d.unit? anchor = some unit → ∃ before after,
        d.content = before ++ unit ++ after ∧
        (∀ a b, d.content = a ++ unit ++ b → before.toList <+: a.toList) ∧
        d.replaceLiterally anchor text = { d with content := before ++ text ++ after } := by
  refine ⟨by decide, fun d anchor text ha => ?_⟩
  cases hu : d.unit? anchor with
  | none =>
    have hsame : d.replaceLiterally anchor text = d := by
      unfold replaceLiterally
      rw [hu]
    rw [hsame]
    exact ⟨replaceUnit_none hu, fun _ => rfl, nofun⟩
  | some unit =>
    obtain ⟨before, head, block, after, hparts, rfl⟩ := unit?_eq_some hu
    have hliteral := @replaceLiterally_parts d anchor text before head block after ha hparts hu
    refine ⟨(replaceUnit_parts hparts).trans hliteral.symm, nofun, ?_⟩
    rintro _ ⟨⟩
    refine ⟨String.ofList before, String.ofList after, ?_, ?_, ?_⟩
    · rw [← String.toList_inj]
      simpa using hparts.append.symm
    · intro a b hcontent
      rw [String.toList_ofList]
      have hcs : a.toList ++ (head ++ block ++ b.toList) = d.content.toList := by
        rw [hcontent]
        simp
      exact prefix_of_cut (hparts.cut_unit ha) hcs (List.prefix_append _ _)
    · rw [hliteral]
      congr 1
      rw [← String.toList_inj]
      simp

theorem replaceUnit_literal_repeated :
    let d := ofSource "A.java" "{f(){f()}}f(){f()}"
    '{' ∉ "f()".toList ∧ (d.replaceUnit "f()" "g").1 = d.replaceLiterally "f()" "g" ∧
      (d.replaceUnit "f()" "g").1.content = "{g}f(){f()}" := by
  intro d
  have ha : '{' ∉ "f()".toList := by decide
  obtain ⟨hsame, -, -⟩ := replaceUnit_literal.2 d "f()" "g" ha
  exact ⟨ha, hsame, by decide +kernel⟩

end Draft

end Refit
