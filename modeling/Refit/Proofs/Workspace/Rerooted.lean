import Refit.Proofs.Path.Written
import Refit.Proofs.Workspace.Sandbox

/-!
Paths brought from the project into its sandbox, name by name. A path has a counterpart where the
names of the project root begin its own, whatever slashes it is written with, and the counterpart
has the names that follow below the sandbox (`mapPath_reroots`).
-/

namespace Refit.Workspace

open Refit.Path Refit.Tree

variable {t : Tree} {r q above : Place} {ws : Workspace} {path project mapped : String}

/-- A path below a project root, and its counterpart in the sandbox. The names after the root, as
they are written, are the same in both. -/
structure Rerooted (ws : Workspace) (r : Place) (path : String) (q : Place) (mapped : String) :
    Prop where
  spells : Spells mapped (r ++ directoryName :: q.drop r.length)
  inSandbox : (ofText ws.root).names <+: (ofText mapped).names
  relative : ∃ rest : Path, Path.stripPrefix? (ofText ws.root) (ofText mapped) = some rest ∧
    Path.stripPrefix? (ofText ws.projectRoot) (ofText path) = some rest ∧
    rest.rooted = false ∧ rest.names = q.drop r.length

theorem exists_mapPath_iff (hr : ∀ s ∈ r, IsName s) (hp : Spells path q) :
    (∃ mapped, (ofPlace r).mapPath path = .ok mapped) ↔ r <+: q := by
  have hiff := @exists_stripPrefix?_iff (ofText r.text) (ofText path)
    (by rw [(spells_text hr).rooted, hp.rooted])
  rw [(spells_text hr).names, hp.names] at hiff
  rw [← hiff]
  unfold mapPath ofPlace
  dsimp only
  cases Path.stripPrefix? (ofText r.text) (ofText path) <;> simp

theorem mapPath_outside (hr : ∀ s ∈ r, IsName s) (hp : Spells path q) (h : ¬ r <+: q) :
    (ofPlace r).mapPath path = .error (.outside path r.text) := by
  rw [← exists_mapPath_iff hr hp] at h
  unfold mapPath at h ⊢
  split
  · rename_i rest hs
    rw [hs] at h
    exact absurd ⟨_, rfl⟩ h
  · rfl

theorem not_prefix_sibling {name more : String} (below : Place) (h : more ≠ "") :
    ¬ above ++ [name] <+: above ++ (name ++ more) :: below := by
  intro hp
  have hname : name = name ++ more :=
    (List.cons_prefix_cons.mp ((List.prefix_append_right_inj above).mp hp)).1
  have hlist := congrArg String.toList hname
  rw [String.toList_append, List.self_eq_append_right] at hlist
  exact h (String.toList_eq_nil_iff.mp hlist)

theorem mapPath_rerooted (hr : ∀ s ∈ r, IsName s) (hp : Spells path q)
    (h : (ofPlace r).mapPath path = .ok mapped) : (ofPlace r).Rerooted r path q mapped := by
  obtain ⟨below, rfl, hspells⟩ := mapPath_eq_ok hr hp h
  have hsandbox := spells_text (named_sandbox hr)
  unfold mapPath at h
  split at h
  · rename_i rest hs
    cases h
    obtain ⟨hrel, hnames, -, -⟩ := stripPrefix?_eq_some hs
    have hbelow := stripPrefix?_below (named_sandbox hr) (sandbox_ne_nil r)
      (fun s hm => not_mem_of_mem_segments hm) hs
    refine ⟨?_, ?_, rest, hbelow, hs, hrel, ?_⟩
    · rw [List.drop_left]
      rwa [sandbox, List.append_assoc, List.singleton_append] at hspells
    · rw [hspells.names]
      exact hsandbox.names ▸ List.prefix_append (sandbox r) below
    · change (ofText path).names = (ofText r.text).names ++ rest.names at hnames
      rw [hp.names, (spells_text hr).names] at hnames
      rw [List.drop_left, List.append_cancel_left hnames]
  · cases h

/-- The paths below a project root, and no others, have a counterpart in the sandbox: the names of
the root give way to those of the sandbox, and those that follow stay. Two paths have the same
counterpart exactly where they have the same names, and what follows the sandbox in a counterpart is
what follows the root in the path. -/
theorem mapPath_reroots (h : forProject t project = .ok ws) :
    ∃ r : Place, t.canonical [] project = .ok r ∧ ws.projectRoot = r.text ∧
      (∀ s ∈ r, IsName s) ∧ ∀ path q, Spells path q →
        ((∃ mapped, ws.mapPath path = .ok mapped) ↔ r <+: q) ∧
        (¬ r <+: q → ws.mapPath path = .error (.outside path ws.projectRoot)) ∧
        (∀ above name more below, r = above ++ [name] → more ≠ "" →
          q = above ++ (name ++ more) :: below →
          ws.mapPath path = .error (.outside path ws.projectRoot)) ∧
        ∀ mapped, ws.mapPath path = .ok mapped → ws.Rerooted r path q mapped ∧
          ∀ path' q' mapped', Spells path' q' → ws.mapPath path' = .ok mapped' →
            ((ofText mapped').names = (ofText mapped).names ↔ q' = q) := by
  obtain ⟨r, hc, hr, -, rfl⟩ := forProject_eq_ok h
  refine ⟨r, hc, rfl, hr, fun path q hp =>
    ⟨exists_mapPath_iff hr hp, mapPath_outside hr hp, ?_, ?_⟩⟩
  · rintro above name more below rfl hmore rfl
    exact mapPath_outside hr hp (not_prefix_sibling below hmore)
  · intro mapped hm
    refine ⟨mapPath_rerooted hr hp hm, fun path' q' mapped' hp' hm' => ?_⟩
    obtain ⟨below, rfl, hs⟩ := mapPath_eq_ok hr hp hm
    obtain ⟨below', rfl, hs'⟩ := mapPath_eq_ok hr hp' hm'
    rw [hs.names, hs'.names, List.append_cancel_left_eq, List.append_cancel_left_eq]

theorem mapPath_reroots_nested :
    let ws := ofPlace ["p"]
    let path := "//p/.modernizer_sandbox//A.java/"
    let q : Place := ["p", ".modernizer_sandbox", "A.java"]
    forProject ⟨[(["p"], .directory)]⟩ "/p" = .ok ws ∧ Spells path q ∧
      ∃ mapped, ws.mapPath path = .ok mapped ∧ ws.Rerooted ["p"] path q mapped := by
  have hproject : forProject ⟨[(["p"], .directory)]⟩ "/p" = .ok (ofPlace ["p"]) := by rfl
  have hplace : Tree.canonical ⟨[(["p"], .directory)]⟩ [] "/p" = .ok ["p"] := by rfl
  have hspells : Spells "//p/.modernizer_sandbox//A.java/" ["p", ".modernizer_sandbox", "A.java"] :=
    ⟨by decide, by decide, by decide⟩
  obtain ⟨r, hc, -, -, hpaths⟩ := mapPath_reroots hproject
  rw [hplace] at hc
  cases hc
  obtain ⟨hiff, -, -, hmapped⟩ := hpaths _ _ hspells
  obtain ⟨mapped, hm⟩ := hiff.mpr ⟨[".modernizer_sandbox", "A.java"], rfl⟩
  exact ⟨hproject, hspells, mapped, hm, (hmapped mapped hm).1⟩

end Refit.Workspace
