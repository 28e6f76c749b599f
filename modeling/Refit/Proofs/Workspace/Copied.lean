import Refit.Proofs.Tree.Shape
import Refit.Proofs.Workspace.Sandbox

namespace Refit.Workspace

open Refit.Path Refit.Tree

variable {t u : Tree} {r names rel : Place} {bytes : ByteArray}

/-- A sandbox in which every file is a copy of the file of the same names in the project. -/
structure Copied (t : Tree) (r : Place) (u : Tree) : Prop where
  fresh : Fresh t r u
  noFile : ¬ u.FileAt (sandbox r)
  files : ∀ names bytes, u.Holds (sandbox r ++ names) bytes →
    names.head? ≠ some directoryName ∧ u.Holds (r ++ names) bytes

theorem sandbox_append (r names : Place) : sandbox r ++ names = r ++ directoryName :: names := by
  simp [sandbox]

theorem sandbox_not_above_append (h : names.head? ≠ some directoryName) :
    ¬ sandbox r <+: r ++ names := by
  rw [sandbox, List.prefix_append_right_inj]
  cases names with
  | nil => simp
  | cons a names =>
    rw [List.cons_prefix_cons]
    rintro ⟨rfl, -⟩
    exact h rfl

theorem sandbox_append_ne (r names : Place) : sandbox r ++ names ≠ r ++ names := by
  intro h
  have hl := congrArg List.length h
  simp [sandbox] at hl

theorem Fresh.unlinkedRoot (h : Fresh t r u) (ht : t.Unlinked r) : u.Unlinked r := by
  intro p hp
  by_cases hs : sandbox r <+: p
  · exact h.linkFree p hs
  · rw [h.outside.linkAt_iff hs]
    exact ht p hp

theorem Copied.directory (h : Copied t r u) {p : Place} (hp : sandbox r <+: p)
    (hn : ∀ s ∈ p, IsName s) (hg : u.get? p = none) : Copied t r (u.put p .directory) := by
  have hne : p ≠ [] := fun he => sandbox_ne_nil r (List.prefix_nil.mp (he ▸ hp))
  have hholds : ∀ q bytes, (u.put p .directory).Holds q bytes → u.Holds q bytes := by
    rintro q bytes ⟨runnable, hq⟩
    rw [get?_put _ _ _ _ hne] at hq
    split at hq
    · cases hq
    · exact ⟨runnable, hq⟩
  refine ⟨h.fresh.put hp hn nofun, fun ⟨bytes, hf⟩ => h.noFile (hholds _ _ hf).fileAt, ?_⟩
  intro names bytes hq
  obtain ⟨hh, ⟨runnable, hr⟩⟩ := h.files names bytes (hholds _ _ hq)
  refine ⟨hh, runnable, ?_⟩
  rw [get?_put _ _ _ _ hne, if_neg]
  · exact hr
  · rintro rfl
    rw [hr] at hg
    cases hg

/-- The copy of a file that is met on the walk is put beside the others. -/
theorem Copied.file (h : Copied t r u) (ht : t.Unlinked r) (hr : ∀ s ∈ r, IsName s)
    {v : Visit} (hv : Below r v) {origin : Place} {runnable : Bool}
    (hs : u.spot v.path = .ok (.found origin (.file bytes runnable))) :
    Copied t r (u.put (sandbox r ++ v.names)
      (.file (if sandbox r ++ v.names = origin then ByteArray.empty else bytes) runnable)) := by
  obtain rfl := spot_straight hv.spells (fun p hp => (h.fresh.unlinkedRoot ht).not_linkAt hp) hs rfl
  rw [if_neg (sandbox_append_ne r v.names)]
  have hne : sandbox r ++ v.names ≠ [] := by simp [sandbox]
  have hread := (spot_file hs).2
  have hhead : v.names.head? ≠ some directoryName := by
    intro hh
    obtain ⟨rest, hn⟩ := List.head?_eq_some_iff.mp hh
    obtain ⟨rfl, -⟩ := hv.unsandboxed rest hn
    rw [hn] at hread
    exact h.noFile ⟨bytes, runnable, hread⟩
  have hput : ∀ names, names.head? ≠ some directoryName → ∀ entry,
      (u.put (sandbox r ++ v.names) entry).get? (r ++ names) = u.get? (r ++ names) := by
    intro names hn entry
    rw [get?_put _ _ _ _ hne, if_neg]
    intro he
    rw [sandbox_append] at he
    rw [List.append_cancel_left he] at hn
    exact hn rfl
  refine ⟨h.fresh.put (List.prefix_append _ _) (named_append (named_sandbox hr) hv.named) (by simp),
    ?_, ?_⟩
  · rintro ⟨bytes', runnable', hf⟩
    rw [get?_put _ _ _ _ hne, if_neg] at hf
    · exact h.noFile ⟨bytes', runnable', hf⟩
    · simpa using hv.ne_nil
  · rintro names bytes' ⟨runnable', hf⟩
    rw [get?_put _ _ _ _ hne] at hf
    split at hf
    · rename_i he
      rw [List.append_cancel_left he]
      cases hf
      exact ⟨hhead, runnable, by rw [hput _ hhead]; exact hread⟩
    · obtain ⟨hn, hold⟩ := h.files names bytes' ⟨runnable', hf⟩
      exact ⟨hn, hold.congr (hput names hn _)⟩

theorem copied_made (ht : t.Unlinked r) (hr : ∀ s ∈ r, IsName s) :
    Made t r (Copied t r) where
  copying := {
    fresh := fun _ h => h.fresh
    directory := fun _ _ h hp hn hg => h.directory hp hn hg
    file := fun _ _ _ _ _ h hv hs _ => h.file ht hr hv hs }
  cleared u ho hn hg := by
    refine ⟨(fresh_made t hr).cleared u ho hn hg, ?_, ?_⟩
    · rintro ⟨bytes, runnable, hf⟩
      rw [hg _ (List.prefix_refl _)] at hf
      cases hf
    · rintro names bytes ⟨runnable, hf⟩
      rw [hg _ (List.prefix_append _ _)] at hf
      cases hf

/-- What was copied stands in the project, and directories lead to it. -/
theorem Copied.original (h : Copied t r u) (ht : t.Sound) (hf : u.FileAt (sandbox r ++ names))
    {p : Place} (hp : p <+: r ++ names) (hn : p ≠ r ++ names) : u.get? p = some .directory := by
  obtain ⟨bytes, hf⟩ := hf
  obtain ⟨hh, runnable, hr⟩ := h.files names bytes hf
  have hout : ∀ q, q <+: r ++ names → u.get? q = t.get? q := fun q hq =>
    h.fresh.outside q fun hs => sandbox_not_above_append hh (hs.trans hq)
  rw [hout _ (List.prefix_refl _)] at hr
  rw [hout p hp]
  exact ht.above (by rw [hr]; exact nofun) hp hn

/-- The places of two copied files, and of their originals, do not meet. -/
theorem Copied.apart (h : Copied t r u) (hn : u.FileAt (sandbox r ++ names))
    (hrel : u.FileAt (sandbox r ++ rel)) (hne : names ≠ rel) :
    (sandbox r ++ names ≠ sandbox r ++ rel ∧ sandbox r ++ names ≠ r ++ rel) ∧
      (r ++ names ≠ sandbox r ++ rel ∧ r ++ names ≠ r ++ rel) := by
  obtain ⟨bytes, hn⟩ := hn
  obtain ⟨bytes', hrel⟩ := hrel
  have hn := (h.files names bytes hn).1
  have hrel := (h.files rel bytes' hrel).1
  refine ⟨⟨fun he => hne (List.append_cancel_left he), fun he => ?_⟩,
    fun he => ?_, fun he => hne (List.append_cancel_left he)⟩
  · rw [sandbox_append] at he
    rw [← List.append_cancel_left he] at hrel
    exact hrel rfl
  · rw [sandbox_append] at he
    rw [List.append_cancel_left he] at hn
    exact hn rfl

end Refit.Workspace
