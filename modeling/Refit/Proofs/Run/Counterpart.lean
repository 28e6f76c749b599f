import Refit.Proofs.Run.Inside
import Refit.Proofs.Tree.Shape

/-!
The files that a run finds and the workspace that it makes. Both pass over excluded directories, the
one below the path that the run is given and the other below the root of the project; so what is
found has a counterpart in the workspace unless the way from the root to the path leads through an
excluded directory (`create_counterpart`).
-/

namespace Refit

open Refit.Path Refit.Tree Refit.Workspace

namespace Sources

variable {t : Tree} {place start : Place} {path s : String} {names : List String}

theorem isSkipped_excluded (hs : isExcluded s = true) : isSkipped t place s true = true := by
  unfold isSkipped
  split
  · rfl
  · simpa using hs
  · simp [hs]

theorem shown_of_isOpen (h : isOpen t start names false = true) : shown names = true := by
  refine List.all_eq_true.mpr fun s hs => ?_
  obtain ⟨n, hn, rfl⟩ := List.getElem_of_mem hs
  rw [List.length_dropLast] at hn
  have hopen := List.all_eq_true.mp h n (List.mem_range.mpr (by omega))
  have hdir : (false || decide (n + 1 < names.length)) = true := by
    rw [Bool.false_or, decide_eq_true_eq]
    omega
  have hname : names.getD n "" = names.dropLast[n] := by
    rw [List.getElem_dropLast, List.getD, List.getElem?_eq_getElem, Option.getD_some]
  dsimp only at hopen
  rw [hdir, hname, Bool.not_eq_true'] at hopen
  rw [Bool.not_eq_true', ← Bool.not_eq_true]
  intro hx
  rw [isSkipped_excluded hx] at hopen
  cases hopen

theorem shown_of_found {x : Place × Entry} (h : found? t path start x = some names) :
    shown names = true :=
  shown_of_isOpen (found?_eq_some.mp h).2.2.2.1

end Sources

namespace Workspace

variable {t : Tree} {r rel below place : Place} {bytes : ByteArray} {runnable : Bool}

def Admits (t : Tree) (r place : Place) : Prop :=
  ∀ above s, r ++ (above ++ [s]) <+: place → t.get? (r ++ (above ++ [s])) = some .directory →
    isExcluded s = false

theorem shown_append (h : below ≠ []) :
    shown (rel ++ below) = true ↔ (∀ s ∈ rel, isExcluded s = false) ∧ shown below = true := by
  unfold shown
  rw [List.dropLast_append_of_ne_nil h, List.all_append, Bool.and_eq_true, List.all_eq_true]
  simp

theorem admits_file (ht : t.Sound) (hg : t.get? (r ++ rel) = some (.file bytes runnable)) :
    Admits t r (r ++ rel) ↔ shown rel = true := by
  constructor
  · intro h
    refine List.all_eq_true.mpr fun s hs => ?_
    obtain ⟨above, hp, hne⟩ := mem_dropLast hs
    have hpr := (List.prefix_append_right_inj r).mpr hp
    have hd := ht.above (by rw [hg]; simp) hpr fun he => hne (List.append_cancel_left he)
    rw [h above s hpr hd]
    rfl
  · intro h above s hp hd
    obtain ⟨rest, rfl⟩ := (List.prefix_append_right_inj r).mp hp
    refine isExcluded_of_shown h ?_
    have hne : rest ≠ [] := by
      rintro rfl
      rw [List.append_nil, hd] at hg
      cases hg
    rw [List.dropLast_append_of_ne_nil hne]
    simp

theorem admits_directory (ht : t.Sound) (hg : t.get? (r ++ rel) = some .directory) :
    Admits t r (r ++ rel) ↔ ∀ s ∈ rel, isExcluded s = false := by
  constructor
  · intro h s hs
    obtain ⟨above, rest, rfl⟩ := List.append_of_mem hs
    have hp : r ++ (above ++ [s]) <+: r ++ (above ++ s :: rest) :=
      (List.prefix_append_right_inj r).mpr ⟨rest, by simp⟩
    refine h above s hp ?_
    by_cases he : r ++ (above ++ [s]) = r ++ (above ++ s :: rest)
    · rw [he]
      exact hg
    · exact ht.above (by rw [hg]; simp) hp he
  · intro h above s hp _
    exact h s (((List.prefix_append_right_inj r).mp hp).subset (by simp))

theorem entry_of_created {w w' : World} {names : Place} {entry : Entry} (ht : w.tree.Sound)
    (ho : w.tree.Single) (hr : ∀ s ∈ r, IsName s) (hs : w.tree.Solid r)
    (hl : ∀ p, r <+: p → ¬ w.tree.LinkAt p) (h : (ofPlace r).create.run w = (.ok (), w'))
    (hg : w'.tree.get? (sandbox r ++ names) = some entry) :
    w.tree.get? (r ++ names) = some entry := by
  have hu := unlinked_prune (hs.unlinked hl)
  obtain ⟨q, hb⟩ := ((create_copy ht ho hr hs (avoids_unlinked hr hu) h).2 names entry).mp hg
  obtain ⟨-, hq⟩ := (spot_text_found ht.prune (named_append hr hb.named) fun p hp =>
    hu.not_linkAt hp).mp (entryAt_eq_ok.mp hb.leads)
  by_cases hp : sandbox r <+: r ++ names
  · rw [get?_prune_sandbox hp] at hq
    cases hq
  · rwa [← get?_of_prune rfl hp] at hq

end Workspace

namespace Run

variable {t : Tree} {start r place : Place} {path file : String} {files : List String}
  {ws : Workspace} {w w' : World}

theorem not_exists_text (ht : t.Sound) (hl : ∀ p, p <+: place → ¬ t.LinkAt p)
    (hn : ∀ s ∈ place, IsName s) (hg : t.get? place = none) : t.exists? place.text = false := by
  unfold Tree.exists?
  cases he : t.entryAt place.text with
  | error cause => rfl
  | ok found =>
    obtain ⟨-, hfound⟩ := (spot_text_found ht hn hl).mp (entryAt_eq_ok.mp he)
    rw [hg] at hfound
    cases hfound

theorem collect_shown (ht : t.Sound) (hs : t.Solid place) (hl : ∀ p, r <+: p → ¬ t.LinkAt p)
    (hn : ∀ s ∈ place, IsName s) (hr : r <+: place)
    (h : Sources.collect t place.text = .ok files) (hf : file ∈ files) :
    ∃ names bytes runnable, file = Place.text (r ++ names) ∧
      t.get? (r ++ names) = some (.file bytes runnable) ∧
      (shown names = true ↔ Admits t r place) := by
  -- a link on the way to a place below the root would be above the root, or below it
  have hfree : ∀ q, place <+: q → ∀ p, p <+: q → ¬ t.LinkAt p := fun q hq p hp => by
    obtain hpr | hrp := List.prefix_or_prefix_of_prefix hp (hr.trans hq)
    · exact (hs p (hpr.trans hr)).2
    · exact hl p hrp
  obtain ⟨rel, rfl⟩ := hr
  obtain ⟨entry, hg⟩ := Option.ne_none_iff_exists'.mp (hs _ (List.prefix_refl _)).1
  obtain ⟨hd, rfl⟩ | ⟨start, hstart, rfl⟩ := Sources.collect_cases h
  · obtain rfl := List.mem_singleton.mp hf
    cases entry with
    | directory =>
      have hspot := (spot_text_directory ht hn (hfree _ (List.prefix_refl _))).mpr ⟨rfl, hg⟩
      rw [isDirectory_eq_true.mpr ⟨_, entryAt_eq_ok.mpr hspot⟩] at hd
      cases hd
    | link target => exact absurd ⟨target, hg⟩ (hs _ (List.prefix_refl _)).2
    | file bytes runnable => exact ⟨rel, bytes, runnable, rfl, hg, (admits_file ht hg).symm⟩
  · obtain ⟨rfl, hd⟩ := (spot_text_directory ht hn (hfree _ (List.prefix_refl _))).mp
      (entryAt_eq_ok.mp hstart)
    obtain ⟨below, hm, rfl⟩ := List.mem_map.mp hf
    obtain ⟨hne, hnb, hb, hsource⟩ := Sources.sorted_found ht.named hn hm
    obtain ⟨x, -, hx⟩ := List.mem_filterMap.mp ((List.mergeSort_perm _ _).subset hm)
    obtain ⟨p, bytes, runnable, hfile⟩ := isFile_eq_true.mp (Sources.isSource_eq_true hsource).1
    obtain ⟨-, hgb⟩ := (spot_text_found ht hnb (hfree _ (List.prefix_append _ _))).mp
      (entryAt_eq_ok.mp hfile)
    rw [List.append_assoc] at hb hgb
    refine ⟨rel ++ below, bytes, runnable, hb, hgb, ?_⟩
    rw [shown_append hne, admits_directory ht hd]
    exact and_iff_left (Sources.shown_of_found hx)

def HasCounterpart (ws : Workspace) (t u : Tree) (file : String) : Prop :=
  ∃ mapped bytes, ws.mapPath file = .ok mapped ∧ t.read file = .ok bytes ∧
    u.read mapped = .ok bytes ∧ ∀ e, Draft.load u mapped = .error e → e = .file mapped .notText

def LacksCounterpart (ws : Workspace) (u : Tree) (file : String) : Prop :=
  ∃ mapped, ws.mapPath file = .ok mapped ∧ u.exists? mapped = false ∧
    ∃ cause, Draft.load u mapped = .error (.file mapped cause)

theorem load_of_read {u : Tree} {bytes : ByteArray} {mapped : String} (h : u.read mapped = .ok bytes)
    (e : Failure) (he : Draft.load u mapped = .error e) : e = .file mapped .notText := by
  unfold Draft.load Tree.readText at he
  rw [h] at he
  dsimp only [bind, Except.bind] at he
  cases hs : String.fromUTF8? bytes with
  | some text =>
    rw [hs] at he
    cases he
  | none =>
    rw [hs] at he
    cases he
    rfl

theorem load_of_not_exists {u : Tree} {mapped : String} (h : u.exists? mapped = false) :
    ∃ cause, Draft.load u mapped = .error (.file mapped cause) := by
  unfold Draft.load Tree.readText Tree.read
  unfold Tree.exists? at h
  cases he : u.entryAt mapped with
  | ok found =>
    rw [he] at h
    cases h
  | error cause => exact ⟨cause, rfl⟩

/-- Right after the workspace of a project without links is made, every file that is found at a path
has its counterpart there, unless the way from the root of the project to the path leads through an
excluded directory. Then none has. -/
theorem create_counterpart (ht : w.tree.Sound) (ho : w.tree.Single) (hs : w.tree.Solid start)
    (hl : ∀ r, w.tree.canonical [] (ProjectRoot.find w.tree place.text) = .ok r →
      ∀ p, r <+: p → ¬ w.tree.LinkAt p)
    (hplace : w.tree.canonical start path = .ok place)
    (hfiles : Sources.collect w.tree place.text = .ok files)
    (hws : Workspace.forProject w.tree (ProjectRoot.find w.tree place.text) = .ok ws)
    (h : ws.create.run w = (.ok (), w')) :
    ∃ r, w.tree.canonical [] (ProjectRoot.find w.tree place.text) = .ok r ∧ r <+: place ∧
      (Admits w.tree r place → ∀ file ∈ files, HasCounterpart ws w.tree w'.tree file) ∧
      (¬ Admits w.tree r place → ∀ file ∈ files, LacksCounterpart ws w'.tree file) := by
  obtain ⟨hn, hsolid⟩ := canonical_solid ht hs hplace
  obtain ⟨r, hpr, hr, hd, hroot, hproject⟩ := exists_project ht hn hsolid
  obtain rfl : Workspace.ofPlace r = ws := Except.ok.inj (hproject.symm.trans hws)
  have hl := hl r hroot
  have hcreated := create_plain ht ho hr (hsolid.of_prefix hpr) hl h
  obtain ⟨-, ht', hu, -, -, hcopied⟩ := hcreated
  -- what stands at the names of a file, and at the same names in the sandbox
  have hfound : ∀ file ∈ files, ∃ names bytes runnable, file = Place.text (r ++ names) ∧
      names ≠ [] ∧ (∀ s ∈ names, IsName s) ∧
      w.tree.get? (r ++ names) = some (.file bytes runnable) ∧
      (shown names = true ↔ Admits w.tree r place) := by
    intro file hf
    obtain ⟨names, bytes, runnable, he, hg, hshown⟩ :=
      collect_shown ht hsolid hl hn hpr hfiles hf
    have hnames := named_of_get? ht (p := r ++ names) (by rw [hg]; simp)
    refine ⟨names, bytes, runnable, he, ?_, fun s hm => hnames s (List.mem_append_right _ hm), hg,
      hshown⟩
    rintro rfl
    rw [List.append_nil, hd] at hg
    cases hg
  refine ⟨r, hroot, hpr, fun hadmits file hf => ?_, fun hadmits file hf => ?_⟩
  · obtain ⟨names, bytes, runnable, rfl, hne, hnames, hg, hshown⟩ := hfound file hf
    have hg' := (hcopied names bytes runnable).mpr ⟨hg, hshown.mpr hadmits⟩
    have hread := (leadsTo_of_holds ht' ⟨runnable, hg'⟩).read
    exact ⟨_, bytes, mapPath_text hr hne hnames, (leadsTo_of_holds ht ⟨runnable, hg⟩).read, hread,
      load_of_read hread⟩
  · obtain ⟨names, bytes, runnable, rfl, hne, hnames, hg, hshown⟩ := hfound file hf
    have hmissing : w'.tree.get? (sandbox r ++ names) = none := by
      refine Option.eq_none_iff_forall_ne_some.mpr fun entry hentry => hadmits (hshown.mp ?_)
      have hsame := entry_of_created ht ho hr (hsolid.of_prefix hpr) hl h hentry
      obtain rfl := Option.some.inj (hg.symm.trans hsame)
      exact ((hcopied names bytes runnable).mp hentry).2
    have hgone := not_exists_text ht' (fun p hp => hu.not_linkAt (sandbox_append r names ▸ hp))
      (named_append (named_sandbox hr) hnames) hmissing
    exact ⟨_, mapPath_text hr hne hnames, hgone, load_of_not_exists hgone⟩

def aliasedProject : Tree := ⟨[
  (["alias"], .link "app"),
  (["app"], .directory),
  (["app", "pom.xml"], .file "".toUTF8 false),
  (["app", "src"], .directory),
  (["app", "src", "A.java"], .file "a".toUTF8 false),
  (["app", "src", "B.java"], .file ⟨#[255]⟩ false),
  (["app", "src", "target"], .directory),
  (["app", "src", "target", "C.java"], .file "c".toUTF8 false)]⟩

theorem aliasedProject_single : aliasedProject.Single := by
  unfold Single
  decide +kernel

theorem create_counterpart_aliased : ∃ w',
    (ofPlace ["app"]).create.run ⟨aliasedProject, []⟩ = (.ok (), w') ∧
      HasCounterpart (ofPlace ["app"]) aliasedProject w'.tree "/app/src/A.java" ∧
      HasCounterpart (ofPlace ["app"]) aliasedProject w'.tree "/app/src/B.java" := by
  have hrun : (ofPlace ["app"]).create.succeeds (fun _ _ => true) ⟨aliasedProject, []⟩ = true := by
    decide +kernel
  obtain ⟨_, w', hrun, -⟩ := Step.exists_of_succeeds hrun
  have ht : aliasedProject.Sound := sound_of_listed (by decide +kernel)
  have hfiles : Sources.collect aliasedProject (Place.text ["app", "src"]) =
      .ok ["/app/src/A.java", "/app/src/B.java"] :=
    @Sources.collect_listed aliasedProject _ ["app", "src"] [["A.java"], ["B.java"]]
      (by decide +kernel) (by decide +kernel) (by decide +kernel) (by decide)
  have hroot : aliasedProject.canonical []
      (ProjectRoot.find aliasedProject (Place.text ["app", "src"])) = .ok ["app"] := by
    decide +kernel
  have hl : ∀ p, ["app"] <+: p → ¬ aliasedProject.LinkAt p := fun _ hp =>
    not_linkAt_of_listed (by decide) hp
  obtain ⟨r, hr, -, hhas, -⟩ := create_counterpart ht aliasedProject_single (solid_nil _)
    (fun r hr => Except.ok.inj (hroot.symm.trans hr) ▸ hl)
    (by decide +kernel : aliasedProject.canonical [] "/alias/src" = .ok ["app", "src"]) hfiles
    (by decide +kernel) hrun
  obtain rfl : r = ["app"] := Except.ok.inj (hr.symm.trans hroot)
  have hadmits : Admits aliasedProject ["app"] ["app", "src"] :=
    (@admits_directory aliasedProject ["app"] ["src"] ht rfl).mpr (by decide)
  exact ⟨w', hrun, hhas hadmits _ (by simp), hhas hadmits _ (by simp)⟩

def builtProject : Tree := ⟨[
  (["A.java"], .file "a".toUTF8 false),
  (["pom.xml"], .file "".toUTF8 false),
  (["target"], .directory),
  (["target", "B.java"], .file "b".toUTF8 false)]⟩

theorem builtProject_sound : builtProject.Sound := sound_of_listed (by decide +kernel)

theorem builtProject_single : builtProject.Single := by
  unfold Single
  decide +kernel

theorem builtProject_linkFree (p : Place) : ¬ builtProject.LinkAt p :=
  linkFree_of_listed (by decide +kernel) p

/-- A file that is named itself is found in an excluded directory too, and is not copied. -/
theorem create_without_generated : ∃ w',
    builtProject.Sound ∧ builtProject.Single ∧ (∀ p, ¬ builtProject.LinkAt p) ∧
    builtProject.canonical [] "/target/B.java" = .ok ["target", "B.java"] ∧
    Sources.collect builtProject (Place.text ["target", "B.java"]) = .ok ["/target/B.java"] ∧
    Workspace.forProject builtProject
      (ProjectRoot.find builtProject (Place.text ["target", "B.java"])) = .ok (ofPlace []) ∧
    (ofPlace []).create.run ⟨builtProject, []⟩ = (.ok (), w') ∧
    (ofPlace []).mapPath "/target/B.java" = .ok "/.modernizer_sandbox/target/B.java" ∧
    w'.tree.exists? "/.modernizer_sandbox/target/B.java" = false := by
  have hrun : (ofPlace []).create.succeeds (fun _ w =>
      !w.tree.exists? "/.modernizer_sandbox/target/B.java") ⟨builtProject, []⟩ = true := by
    decide +kernel
  obtain ⟨_, w', hrun, hmissing⟩ := Step.exists_of_succeeds hrun
  exact ⟨w', builtProject_sound, builtProject_single, builtProject_linkFree, by decide +kernel,
    by decide +kernel, by decide +kernel, hrun, by decide +kernel, by simpa using hmissing⟩

end Run

end Refit
