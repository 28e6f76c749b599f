import Refit.Proofs.Sources.Found
import Refit.Proofs.Workspace.Unseen

namespace Refit

open Refit.Tree

variable {t u : Tree} {start : Place} {path : String}

namespace Tree

theorem Single.of_perm (ht : t.Single) (h : u.entries.Perm t.entries) : u.Single :=
  (h.map Prod.fst).nodup_iff.mpr ht

theorem get?_of_perm (ht : t.Single) (h : u.entries.Perm t.entries) (p : Place) :
    u.get? p = t.get? p := by
  unfold get?
  split
  · rfl
  · ext entry
    constructor
    · intro he
      exact entryIn_of_mem ht (h.subset (mem_of_entryIn he))
    · intro he
      exact entryIn_of_mem (ht.of_perm h) (h.symm.subset (mem_of_entryIn he))

theorem agreeAt_of_get? (h : ∀ p, u.get? p = t.get? p) (path : String) : AgreeAt t u path := by
  unfold AgreeAt entryAt spot spotFrom
  simp only [follow_congr fun p _ => h p]

end Tree

namespace Ignore

theorem repositoryDirectory_of_agree (h : ∀ path, AgreeAt t u path) (directory : String) :
    repositoryDirectory u directory = repositoryDirectory t directory := by
  unfold repositoryDirectory
  simp only [(h _).isFile, (h _).firstLine]

theorem ofDirectory_of_agree (h : ∀ path, AgreeAt t u path) (directory : String) :
    Rules.ofDirectory u directory = Rules.ofDirectory t directory := by
  unfold Rules.ofDirectory
  simp only [(h _).fileAt, (h _).exists?, repositoryDirectory_of_agree h]

theorem verdict?_of_agree (h : ∀ path, AgreeAt t u path) (place : Place) (isDirectory : Bool) :
    verdict? u place isDirectory = verdict? t place isDirectory := by
  unfold verdict? rulesAbove
  simp only [ofDirectory_of_agree h]

end Ignore

namespace Sources

theorem isOpen_of_agree (h : ∀ path, AgreeAt t u path) (names : List String) (isDirectory : Bool) :
    isOpen u start names isDirectory = isOpen t start names isDirectory := by
  unfold isOpen isSkipped
  simp only [Ignore.verdict?_of_agree h]

theorem found?_of_agree (h : ∀ path, AgreeAt t u path) (x : Place × Entry) :
    found? u path start x = found? t path start x := by
  unfold found? isSource
  simp only [isOpen_of_agree h, (h _).isFile]

theorem faultsAbove_of_agree (h : ∀ path, AgreeAt t u path) :
    faultsAbove u start = faultsAbove t start := by
  unfold faultsAbove faultsOf
  simp only [Ignore.ofDirectory_of_agree h, Ignore.repositoryDirectory_of_agree h]

theorem sorted_of_perm {found found' : List (List String)} (h : found.Perm found') :
    sorted found = sorted found' := by
  refine List.Perm.eq_of_pairwise (fun _ _ _ _ => inOrder_antisymm) (pairwise_sorted found)
    (pairwise_sorted found') ?_
  exact (List.mergeSort_perm found inOrder).trans (h.trans (List.mergeSort_perm found' inOrder).symm)

/-- The source files at a path are the same in whatever order directories list their entries. -/
theorem collect_of_perm (ht : t.Single) (h : u.entries.Perm t.entries) (path : String) :
    collect u path = collect t path := by
  have hagree := agreeAt_of_get? (get?_of_perm ht h)
  have hfound (start : Place) : (u.entries.filterMap (found? u path start)).Perm
      (t.entries.filterMap (found? t path start)) := by
    rw [funext (found?_of_agree hagree)]
    exact h.filterMap _
  unfold collect below
  simp only [show u.entryAt path = t.entryAt path from hagree path, faultsAbove_of_agree hagree,
    sorted_of_perm (hfound _)]

end Sources

end Refit
