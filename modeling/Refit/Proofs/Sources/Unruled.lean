import Refit.Proofs.Tree.Listing
import Refit.Sources

namespace Refit

open Refit.Path Refit.Tree

variable {t : Tree} {start : Place} {path : String} {names : List String}

namespace Sources

/-- No ignore rule says anything about what is below a start. -/
def Unruled (t : Tree) (start : Place) : Prop :=
  ∀ names isDirectory, names ≠ [] → Ignore.verdict? t (start ++ names) isDirectory = none

theorem isSkipped_unruled {place : Place} {s : String} {isDirectory : Bool}
    (h : Ignore.verdict? t place isDirectory = none) :
    isSkipped t place s isDirectory = false ↔
      s.toList.head? ≠ some '.' ∧ (isDirectory = true → Workspace.isExcluded s = false) := by
  unfold isSkipped isHidden
  rw [h]
  cases isDirectory <;> simp

theorem isOpen_unruled (h : Unruled t start) : isOpen t start names false = true ↔
    (∀ s ∈ names, s.toList.head? ≠ some '.') ∧
      ∀ s ∈ names.dropLast, Workspace.isExcluded s = false := by
  have hstep (n : Nat) (hn : n < names.length) : (!isSkipped t (start ++ names.take (n + 1))
      (names.getD n "") (false || decide (n + 1 < names.length))) = true ↔
      names[n].toList.head? ≠ some '.' ∧
        (n + 1 < names.length → Workspace.isExcluded names[n] = false) := by
    have hne : names.take (n + 1) ≠ [] := by
      intro he
      have hlen := congrArg List.length he
      rw [List.length_take, List.length_nil] at hlen
      omega
    rw [Bool.not_eq_true', isSkipped_unruled (h _ _ hne), Bool.false_or, decide_eq_true_eq,
      List.getD, List.getElem?_eq_getElem hn, Option.getD_some]
  unfold isOpen
  rw [List.all_eq_true]
  constructor
  · intro hall
    have hall (n : Nat) (hn : n < names.length) :=
      (hstep n hn).mp (hall n (List.mem_range.mpr hn))
    refine ⟨fun s hs => ?_, fun s hs => ?_⟩
    · obtain ⟨n, hn, rfl⟩ := List.getElem_of_mem hs
      exact (hall n hn).1
    · obtain ⟨n, hn, rfl⟩ := List.getElem_of_mem hs
      rw [List.getElem_dropLast]
      rw [List.length_dropLast] at hn
      exact (hall n (by omega)).2 (by omega)
  · rintro ⟨hhidden, hexcluded⟩ n hn
    have hn := List.mem_range.mp hn
    refine (hstep n hn).mpr ⟨hhidden _ (List.getElem_mem hn), fun hlt => ?_⟩
    have hd : n < names.dropLast.length := by
      rw [List.length_dropLast]
      omega
    rw [← List.getElem_dropLast hd]
    exact hexcluded _ (List.getElem_mem hd)

def Lacks (t : Tree) (s : String) : Prop := ∀ p, t.get? (p ++ [s]) = none

theorem lacks_of_listed {s : String} (h : ∀ x ∈ t.entries, x.1.getLast? ≠ some s) : Lacks t s := by
  intro p
  refine Option.eq_none_iff_forall_ne_some.mpr fun entry he => ?_
  refine h _ (mem_entries_of_get? (by simp) he) ?_
  rw [List.getLast?_concat]

theorem Lacks.exists?_eq_false {s : String} (h : Lacks t s) (hs : IsName s) (directory : Place) :
    t.exists? (joinPath directory.text s) = false := by
  unfold Tree.exists?
  cases he : t.entryAt (joinPath directory.text s) with
  | error cause => rfl
  | ok found =>
    have hf := entryAt_eq_ok.mp he
    rw [spot_joinPath hs] at hf
    obtain ⟨d, hd⟩ := follow_init hs.not_filler hf
    obtain ⟨n, -, hm⟩ := follow_append hd
    rw [(hm [s]).1, follow_name ⟨hs.not_filler, hs.not_up⟩, h d] at hf
    cases hf

theorem fileAt_of_not_exists (h : t.exists? path = false) : Ignore.fileAt t path = {} := by
  unfold Tree.exists? at h
  unfold Ignore.fileAt Tree.read
  cases he : t.entryAt path with
  | error cause => rfl
  | ok found =>
    rw [he] at h
    cases h

/-- No rule is in force where there are neither files for them nor repositories. -/
theorem unruled_of_lacks (hplain : Lacks t ".ignore") (hgit : Lacks t ".git") (start : Place) :
    Unruled t start := by
  intro names isDirectory _
  unfold Ignore.verdict?
  have habove : ∀ a ∈ Ignore.rulesAbove t (start ++ names),
      a.rules.plain = {} ∧ a.rules.isRepository = false := by
    intro a ha
    obtain ⟨n, -, rfl⟩ := List.mem_map.mp ha
    exact ⟨fileAt_of_not_exists (hplain.exists?_eq_false (by decide) _),
      hgit.exists?_eq_false (by decide) _⟩
  have hrepository : Ignore.repositoryRules (Ignore.rulesAbove t (start ++ names)) = [] := by
    unfold Ignore.repositoryRules
    rw [if_neg]
    rw [List.any_eq_true]
    rintro ⟨a, ha, hr⟩
    rw [(habove a ha).2] at hr
    cases hr
  have hfirst : (Ignore.rulesAbove t (start ++ names)).findSome?
      (fun a => a.rules.plain.verdict? a.path isDirectory) = none := by
    refine List.findSome?_eq_none_iff.mpr fun a ha => ?_
    rw [(habove a ha).1]
    rfl
  simp only [hfirst, hrepository]
  rfl

end Sources

end Refit
