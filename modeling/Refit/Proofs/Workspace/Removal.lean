import Refit.Proofs.Tree.Directory
import Refit.Proofs.Tree.Shape
import Refit.Proofs.Workspace.Exact

namespace Refit.Workspace

open Refit.Path Refit.Tree

variable {t u : Tree} {r p : Place} {w w' : World}

/-- Removing the sandbox changes nothing else. What cannot be removed is a file. -/
theorem cleanup_sandbox (hr : ∀ s ∈ r, IsName s)
    (hd : ∀ p, p <+: r → w.tree.get? p = some .directory) :
    AlikeOutside (sandbox r) w.tree ((ofPlace r).cleanup.run w).2.tree ∧
      (((ofPlace r).cleanup.run w).2.tree.get? (sandbox r) = none ∨
        w.tree.FileAt (sandbox r) ∧ ((ofPlace r).cleanup.run w).2.tree = w.tree) := by
  have hl : ∀ p, p <+: sandbox r → p ≠ sandbox r → ¬ w.tree.LinkAt p := by
    rintro p hp hn ⟨target, hlink⟩
    rw [hd p (prefix_sandbox hp hn)] at hlink
    cases hlink
  have hpruned : ∀ t', w.tree.removeAll (ofPlace r).root = .ok t' → t' = w.tree.prune (sandbox r) :=
    fun t' h => removeAll_eq_ok (sandbox_ne_nil r) (named_sandbox hr) hl h
  rw [run_cleanup]
  cases hg : w.tree.get? (sandbox r) with
  | none =>
    split
    · obtain rfl := hpruned _ ‹_›
      exact ⟨AlikeOutside.prune fun _ _ => rfl, .inl (get?_prune_sandbox (List.prefix_refl _))⟩
    · exact ⟨fun _ _ => rfl, .inl hg⟩
    · exact ⟨fun _ _ => rfl, .inl hg⟩
  | some entry =>
    have hs := spotOfLink_text (sandbox_ne_nil r) (named_sandbox hr)
      (fun p hp hn => hd p (prefix_sandbox hp hn)) hg
    cases entry with
    | file bytes runnable =>
      have hremove : w.tree.removeAll (ofPlace r).root = .error .notDirectory := by
        change w.tree.removeAll (sandbox r).text = _
        simp [removeAll, hs, bind, Except.bind, throw, throwThe, MonadExceptOf.throw]
      rw [hremove]
      exact ⟨fun _ _ => rfl, .inr ⟨⟨bytes, runnable, hg⟩, rfl⟩⟩
    | directory | link _ =>
      have hremove : w.tree.removeAll (ofPlace r).root = .ok (w.tree.prune (sandbox r)) := by
        change w.tree.removeAll (sandbox r).text = _
        simp [removeAll, hs, bind, Except.bind, pure, Except.pure]
      rw [hremove]
      exact ⟨AlikeOutside.prune fun _ _ => rfl, .inl (get?_prune_sandbox (List.prefix_refl _))⟩

theorem cleanup_gone (hr : ∀ s ∈ r, IsName s) (h : (ofPlace r).cleanup.run w = (.ok (), w')) :
    w'.tree.isDirectory (ofPlace r).root = false := by
  rw [run_cleanup] at h
  split at h
  · cases h
    exact removeAll_gone (sandbox_ne_nil r) (named_sandbox hr) ‹_›
  · cases h
    exact not_isDirectory_of_removeAll ‹_›
  · cases h

theorem spared_made (hr : ∀ s ∈ r, IsName s) :
    Made t r fun u => Fresh t r u ∧ ¬ u.FileAt (sandbox r) where
  copying := {
    fresh := fun _ h => h.1
    directory := fun u p h hp hn hg => by
      refine ⟨(fresh_made t hr).copying.directory u p h.1 hp hn hg, ?_⟩
      rintro ⟨bytes, runnable, hf⟩
      rw [get?_put _ _ _ _ (ne_nil_of_sandbox hp)] at hf
      split at hf
      · cases hf
      · exact h.2 ⟨bytes, runnable, hf⟩
    file := fun u v origin bytes runnable h hv hs ht => by
      refine ⟨(fresh_made t hr).copying.file u v origin bytes runnable h.1 hv hs ht, ?_⟩
      rintro ⟨bytes', runnable', hf⟩
      rw [get?_put _ _ _ _ (ne_nil_of_sandbox (List.prefix_append _ _)),
        if_neg fun he => hv.ne_nil (List.self_eq_append_right.mp he)] at hf
      exact h.2 ⟨bytes', runnable', hf⟩ }
  cleared u ho hn hg := by
    refine ⟨(fresh_made t hr).cleared u ho hn hg, ?_⟩
    rintro ⟨bytes, runnable, hf⟩
    rw [hg _ (List.prefix_refl _)] at hf
    cases hf

theorem rooted_copying (hr : ∀ s ∈ r, IsName s) :
    Copying t r fun u => Fresh t r u ∧ u.get? (sandbox r) = some .directory where
  fresh := fun _ h => h.1
  directory := fun u p h hp hn hg => by
    refine ⟨(fresh_made t hr).copying.directory u p h.1 hp hn hg, ?_⟩
    rw [get?_put _ _ _ _ (ne_nil_of_sandbox hp)]
    split
    · rfl
    · exact h.2
  file := fun u v origin bytes runnable h hv hs ht => by
    refine ⟨(fresh_made t hr).copying.file u v origin bytes runnable h.1 hv hs ht, ?_⟩
    rw [get?_put _ _ _ _ (ne_nil_of_sandbox (List.prefix_append _ _)),
      if_neg fun he => hv.ne_nil (List.self_eq_append_right.mp he)]
    exact h.2

/-- A sandbox that is made is a directory. -/
theorem create_root (ht : w.tree.Sound) (hr : ∀ s ∈ r, IsName s) (hs : w.tree.Solid r)
    (h : (ofPlace r).create.run w = (.ok (), w')) : w'.tree.get? (sandbox r) = some .directory := by
  rw [create_eq] at h
  obtain ⟨_, w₁, h₁, h⟩ := Step.bind_eq_ok h
  have hw₁ := cleanup_cleared ht hr hs h₁
  have hsound : w₁.tree.Sound := hw₁ ▸ ht.prune
  have hsolid : w₁.tree.Solid r := hw₁ ▸ solid_prune hs
  have hfree : ∀ p, sandbox r <+: p → w₁.tree.get? p = none := fun p hp =>
    hw₁ ▸ get?_prune_sandbox hp
  obtain ⟨_, w₂, h₂, h⟩ := Step.bind_eq_ok h
  cases h₂
  obtain ⟨_, w₃, h₃, h⟩ := Step.bind_eq_ok h
  obtain ⟨u, hm, rfl⟩ := Step.change_eq_ok h₃
  obtain ⟨_, w₄, h₄, h⟩ := Step.bind_eq_ok h
  cases h₄
  obtain ⟨root, w₅, h₅, h⟩ := Step.bind_eq_ok h
  obtain ⟨-, rfl⟩ := Step.inspect_eq_ok h₅
  obtain ⟨copied, w₆, h₆, h⟩ := Step.bind_eq_ok h
  cases h
  obtain ⟨-, rfl⟩ := makeDirectories_sandbox hsound hr hsolid (hfree _ (List.prefix_refl _)) hm
  have hfresh : Fresh w₁.tree r (w₁.tree.put (sandbox r) .directory) :=
    ((fresh_made w₁.tree hr).cleared _ (fun _ _ => rfl) hsound.named hfree).put
      (List.prefix_refl _) (named_sandbox hr) nofun
  have hroot : (w₁.tree.put (sandbox r) .directory).get? (sandbox r) = some .directory := by
    rw [get?_put _ _ _ _ (sandbox_ne_nil r), if_pos rfl]
  exact ((copyBelow_leads (rooted_copying hr) hsolid hr (entered_root hr root)).of_ok
    ⟨hfresh, hroot⟩ h₆).2

/-- What is left of a sandbox that could not be made: nothing, or the file that stood there. -/
def Dismantled (t : Tree) (r : Place) (u : Tree) : Prop :=
  AlikeOutside (sandbox r) t u ∧
    (u.get? (sandbox r) = none ∨ t.FileAt (sandbox r) ∧ u.get? (sandbox r) = t.get? (sandbox r))

end Refit.Workspace
