import Refit.Ignore.Rules
import Refit.Proofs.Tree.Listing
import Refit.Proofs.Workspace.Sandbox

namespace Refit

open Refit.Path Refit.Tree

variable {t u : Tree} {r q start place : Place} {path : String}

/-- A path leads to the same entry in two trees. -/
def Tree.AgreeAt (t u : Tree) (path : String) : Prop := u.entryAt path = t.entryAt path

namespace Tree.AgreeAt

theorem isFile (h : AgreeAt t u path) : u.isFile path = t.isFile path := by
  unfold Tree.isFile
  rw [h]

theorem isDirectory (h : AgreeAt t u path) : u.isDirectory path = t.isDirectory path := by
  unfold Tree.isDirectory
  rw [h]

theorem exists? (h : AgreeAt t u path) : u.exists? path = t.exists? path := by
  unfold Tree.exists?
  rw [h]

theorem read (h : AgreeAt t u path) : u.read path = t.read path := by
  unfold Tree.read
  rw [h]

theorem readText (h : AgreeAt t u path) : u.readText path = t.readText path := by
  unfold Tree.readText
  rw [h.read]

theorem fileAt (h : AgreeAt t u path) : Ignore.fileAt u path = Ignore.fileAt t path := by
  unfold Ignore.fileAt
  rw [h.read]

theorem firstLine (h : AgreeAt t u path) : Ignore.firstLine u path = Ignore.firstLine t path := by
  unfold Ignore.firstLine
  rw [h.readText]

end Tree.AgreeAt

namespace Workspace

/-- Nothing in the sandbox of a project is looked at for a path. -/
def Shuns (t : Tree) (r start : Place) (path : String) : Prop :=
  ∀ p ∈ t.trail linkLimit (if (ofText path).rooted then [] else start) (ofText path).segments,
    ¬ sandbox r <+: p

theorem spotFrom_shuns (h : AlikeOutside (sandbox r) t u) (ht : Shuns t r start path) :
    u.spotFrom false start path = t.spotFrom false start path := by
  unfold spotFrom
  dsimp only
  split
  · rfl
  · exact follow_congr fun p hp => h p (ht p hp)

theorem canonical_shuns (h : AlikeOutside (sandbox r) t u) (ht : Shuns t r start path) :
    u.canonical start path = t.canonical start path := by
  unfold canonical
  rw [spotFrom_shuns h ht]

theorem agree_of_shuns (h : AlikeOutside (sandbox r) t u) (ht : Shuns t r [] path) :
    AgreeAt t u path := by
  unfold AgreeAt entryAt spot
  rw [spotFrom_shuns h ht]

theorem canonical_outside (ht : Shuns t r start path) (hs : ¬ sandbox r <+: start)
    (h : t.canonical start path = .ok place) : ¬ sandbox r <+: place := by
  obtain ⟨entry, h⟩ := canonical_eq_ok.mp h
  refine follow_outside (fun _ _ hp hpq => hp.trans hpq) ?_ ht (spotFrom_eq_ok.mp h).2
  split
  · exact fun hn => sandbox_ne_nil r (List.prefix_nil.mp hn)
  · exact hs

/-- A place outside the sandbox, with no link at it or above it. -/
structure Plain (t : Tree) (r q : Place) : Prop where
  named : ∀ a ∈ q, IsName a
  unlinked : ∀ p, p <+: q → ¬ t.LinkAt p
  outside : ¬ sandbox r <+: q

theorem Plain.shuns (h : Plain t r q) : Shuns t r start q.text := by
  intro p hp hs
  rw [if_pos (spells_text h.named).rooted] at hp
  by_cases hq : q = []
  · subst hq
    have hsegments : (ofText (Place.text [])).segments = [""] := by decide
    rw [hsegments] at hp
    cases hp
  · rw [segments_text hq h.named] at hp
    have hunlinked : ∀ p, p <+: [] ++ q → ¬ t.LinkAt p := h.unlinked
    exact h.outside (hs.trans (trail_names h.named hunlinked hp))

theorem agree_text (h : AlikeOutside (sandbox r) t u) (hq : Plain t r q) : AgreeAt t u q.text :=
  agree_of_shuns h hq.shuns

end Workspace

end Refit
