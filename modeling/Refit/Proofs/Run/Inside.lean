import Refit.Proofs.ProjectRoot.Above
import Refit.Proofs.Run.Course
import Refit.Proofs.Run.OnFile
import Refit.Proofs.Workspace.Plain

/-!
What a run finds lies in its project. The root of the project is above every file that is found, so
each file has a path in the workspace, and no two have the same (`mapPath_found`).
-/

namespace Refit

open Refit.Path Refit.Tree

namespace Workspace

variable {r names : Place}

/-- A file below the root of a project, and the path at the same names below the sandbox. -/
structure Maps (ws : Workspace) (file mapped : String) : Prop where
  mapPath : ws.mapPath file = .ok mapped
  rooted : (Path.ofText file).rooted = true ∧ (Path.ofText mapped).rooted = true
  names : ∃ names, names ≠ [] ∧
    (Path.ofText file).names = (Path.ofText ws.projectRoot).names ++ names ∧
    (Path.ofText mapped).names = (Path.ofText ws.root).names ++ names

theorem maps_text (hr : ∀ s ∈ r, IsName s) (hne : names ≠ []) (hn : ∀ s ∈ names, IsName s) :
    (ofPlace r).Maps (Place.text (r ++ names)) (Place.text (sandbox r ++ names)) := by
  have hfile := spells_text (named_append hr hn)
  have hmapped := spells_text (named_append (named_sandbox hr) hn)
  have hroot : (Path.ofText (ofPlace r).projectRoot).names = r := (spells_text hr).names
  have hsandbox : (Path.ofText (ofPlace r).root).names = sandbox r :=
    (spells_text (named_sandbox hr)).names
  exact ⟨mapPath_text hr hne hn, ⟨hfile.rooted, hmapped.rooted⟩, names, hne,
    by rw [hfile.names, hroot], by rw [hmapped.names, hsandbox]⟩

theorem root_names (hr : ∀ s ∈ r, IsName s) : (Path.ofText (ofPlace r).root).names =
    (Path.ofText (ofPlace r).projectRoot).names ++ [directoryName] := by
  have hroot : (Path.ofText (ofPlace r).projectRoot).names = r := (spells_text hr).names
  rw [hroot]
  exact (spells_text (named_sandbox hr)).names

end Workspace

namespace Run

variable {t : Tree} {start place : Place} {path : String} {files : List String}

theorem canonical_solid (ht : t.Sound) (hs : t.Solid start)
    (h : t.canonical start path = .ok place) : (∀ s ∈ place, IsName s) ∧ t.Solid place := by
  have hn := named_of_get? ht (hs start (List.prefix_refl _)).1
  exact ⟨canonical_passed t.passed_names hn h, canonical_passed t.passed_solid hs h⟩

theorem exists_project (ht : t.Sound) (hn : ∀ s ∈ place, IsName s) (hs : t.Solid place) :
    ∃ r : Place, r <+: place ∧ (∀ s ∈ r, IsName s) ∧ t.get? r = some .directory ∧
      t.canonical [] (ProjectRoot.find t place.text) = .ok r ∧
      Workspace.forProject t (ProjectRoot.find t place.text) = .ok (Workspace.ofPlace r) := by
  obtain ⟨r, hr⟩ := ProjectRoot.exists_canonical_find ht hn hs
  have hpr := ProjectRoot.canonical_find hn hs hr
  refine ⟨r, hpr, fun s hm => hn s (hpr.subset hm),
    ProjectRoot.canonical_find_directory ht hn hs hr, hr, ?_⟩
  cases hw : Workspace.forProject t (ProjectRoot.find t place.text) with
  | error e =>
    unfold Workspace.forProject at hw
    rw [hr] at hw
    cases hw
  | ok ws =>
    obtain ⟨r', hr', -, -, rfl⟩ := Workspace.forProject_eq_ok hw
    obtain rfl : r = r' := Except.ok.inj (hr.symm.trans hr')
    rfl

/-- Every file that is found at a path is below the root of its project. It has a path at the same
names below the sandbox, no other file has that path, and its migration never fails for where the
file is. -/
theorem mapPath_found (ht : t.Sound) (ho : t.Single) (hs : t.Solid start)
    (hplace : t.canonical start path = .ok place)
    (hfiles : Sources.collect t place.text = .ok files) :
    ∃ ws, Workspace.forProject t (ProjectRoot.find t place.text) = .ok ws ∧
      (Path.ofText ws.root).names =
        (Path.ofText ws.projectRoot).names ++ [Workspace.directoryName] ∧
      (∀ file ∈ files, ∃ mapped, ws.Maps file mapped) ∧
      (∀ file ∈ files, ∀ file' ∈ files, ws.mapPath file = ws.mapPath file' → file = file') ∧
      ∀ job : Job, job.workspace = ws → ∀ file ∈ files, Step.OnFiles (job.migrate file) := by
  obtain ⟨hn, hsolid⟩ := canonical_solid ht hs hplace
  obtain ⟨r, hpr, hr, hd, -, hws⟩ := exists_project ht hn hsolid
  have hdir : t.isDirectory r.text = true :=
    isDirectory_eq_true.mpr ⟨r, entryAt_eq_ok.mpr ((spot_text_directory ht hr fun o ho =>
      (hsolid o (ho.trans hpr)).2).mpr ⟨rfl, hd⟩)⟩
  obtain ⟨rels, rfl, hnames⟩ := Sources.exists_rels hpr hdir
    (Sources.collect_found ht ho hn hfiles).2
  have hmaps : ∀ names ∈ rels, (Workspace.ofPlace r).Maps (Place.text (r ++ names))
      (Place.text (Workspace.sandbox r ++ names)) := fun names hm =>
    Workspace.maps_text hr (hnames names hm).1 (hnames names hm).2
  refine ⟨Workspace.ofPlace r, hws, Workspace.root_names hr, fun file hf => ?_,
    fun file hf file' hf' he => ?_, fun job hj file hf => ?_⟩
  · obtain ⟨names, hm, rfl⟩ := List.mem_map.mp hf
    exact ⟨_, hmaps names hm⟩
  · obtain ⟨names, hm, rfl⟩ := List.mem_map.mp hf
    obtain ⟨names', hm', rfl⟩ := List.mem_map.mp hf'
    rw [(hmaps names hm).mapPath, (hmaps names' hm').mapPath] at he
    have hsame := Sources.text_inj (Workspace.named_append (Workspace.named_sandbox hr) (hnames names hm).2)
      (Workspace.named_append (Workspace.named_sandbox hr) (hnames names' hm').2) (Except.ok.inj he)
    rw [List.append_cancel_left hsame]
  · obtain ⟨names, hm, rfl⟩ := List.mem_map.mp hf
    exact job.onFiles_migrate (hj ▸ (hmaps names hm).mapPath)

def linkedSource : Tree := ⟨[
  (["B.java"], .link "src/A.java"),
  (["lib"], .link "src"),
  (["src"], .directory),
  (["src", "A.java"], .file "a".toUTF8 false)]⟩

theorem mapPath_found_linked : ∃ ws,
    Workspace.forProject linkedSource (ProjectRoot.find linkedSource (Place.text [])) = .ok ws ∧
      ∃ mapped, ws.Maps "/B.java" mapped := by
  have hfiles : Sources.collect linkedSource (Place.text []) = .ok ["/B.java", "/src/A.java"] :=
    @Sources.collect_top linkedSource [["B.java"], ["src", "A.java"]] (by decide +kernel)
      (by decide)
  have hsingle : linkedSource.Single := by
    unfold Single
    decide +kernel
  obtain ⟨ws, hws, -, hmaps, -⟩ := mapPath_found (sound_of_listed (by decide +kernel)) hsingle
    (solid_nil linkedSource) (rfl : linkedSource.canonical [] "/" = .ok []) hfiles
  exact ⟨ws, hws, hmaps _ List.mem_cons_self⟩

end Run

end Refit
