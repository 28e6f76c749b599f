import Refit.Command.Program
import Refit.Proofs.Run.Reports
import Refit.Proofs.Workspace.Removal

/-!
The life of the sandbox in a run of the program (`program_lifecycle`). Up to the workspace nothing
is changed; a workspace that cannot be made is taken away again; and one that was made is still
there at the end just where a dry run leaves something to look at, if no build tool has removed it
(`program_razed`).
-/

namespace Refit

open Refit.Path Refit.Tree Workspace

variable {t : Tree} {path : String}

def Build.Tools.Leave (tools : Build.Tools) : Prop :=
  ∀ history t program directory arguments, t.isDirectory directory = true →
    (tools history t program directory arguments).tree.isDirectory directory = true

def Step.Spares {ε α : Type} (path : String) (x : Step ε α) : Prop :=
  x.Preserves fun t => t.isDirectory path = true

namespace Run

open Step

variable {around : Surroundings} {order : Order} {job : Job} {p : Plan} {w w₁ w₂ w₃ : World}
  {place r : Place} {b : Build.Builder} {file : String} {done : List (String × FileResult)}
  {rest : List String}

theorem spares_save (draft : Draft) (file name : String) :
    (Promotion.save draft file name).Spares path :=
  Preserves.bind (preserves_note _) fun _ =>
    (preserves_change fun _ _ hu hd => isDirectory_copy hu hd).bind fun _ =>
      Preserves.bind (preserves_note _) fun _ => preserves_pure _

theorem spares_promote (gate : Promotion.Gate) (answerer : Promotion.Answerer) (draft : Draft)
    (file : String) : (Promotion.promote gate answerer draft file).Spares path := by
  refine (preserves_inspect _ _).bind fun current => ?_
  split
  · refine (preserves_change fun _ _ hu hd => isDirectory_write hu hd).bind fun _ =>
      Preserves.bind (preserves_note _) fun _ => ?_
    unfold Promotion.decide
    split
    · exact preserves_pure _
    split
    · exact spares_save draft file _
    refine Preserves.bind (preserves_journal.bind fun _ => Preserves.bind (preserves_note _)
      fun _ => preserves_pure _) fun answer => ?_
    split
    · exact spares_save draft file _
    · exact Preserves.bind (preserves_note _) fun _ => preserves_pure _
  · exact preserves_pure _

theorem spares_repair (draft : Draft) (hc : job.team.checker = ⟨b.check around.tools⟩)
    (ht : around.tools.Leave) : (job.repair draft).Spares b.root := by
  have hkeeps : Repair.Keeps job.team.checker draft.path fun w => w.tree.isDirectory b.root = true := by
    refine ⟨fun _ _ h => h, fun _ _ _ h hu => isDirectory_write hu h, fun w h => ?_⟩
    rw [hc]
    dsimp only
    obtain hu | ⟨program, arguments, hu⟩ := b.check_tree around.tools w.journal w.tree <;> rw [hu]
    · exact h
    · exact ht _ _ _ _ _ h
  intro w h
  rw [job.run_repair]
  exact Repair.run_keeps hkeeps h

theorem spares_process (file : String) (hc : job.team.checker = ⟨b.check around.tools⟩)
    (ht : around.tools.Leave) : (job.process file (ε := RunError)).Spares b.root := by
  have hmigrate : (job.migrate file).Spares b.root := by
    refine (preserves_ofExcept _).bind fun _ => preserves_tree.bind fun _ =>
      (preserves_ofExcept _).bind fun draft => (spares_repair draft hc ht).bind fun repaired => ?_
    refine Preserves.bind (preserves_note _) fun _ => Preserves.bind (preserves_note _) fun _ => ?_
    split
    · exact preserves_pure _
    · refine Preserves.bind ((spares_promote _ _ _ _).bind fun decision => ?_) fun _ =>
        preserves_pure _
      split
      · exact Preserves.bind (preserves_note _) fun _ => preserves_pure _
      · exact preserves_pure _
  refine Preserves.bind hmigrate.attempt fun result => ?_
  cases result with
  | ok result => exact preserves_pure _
  | error e => exact Preserves.bind (preserves_note _) fun _ => preserves_pure _

theorem Job.Processed.spares (h : job.Processed w done w₁)
    (hc : job.team.checker = ⟨b.check around.tools⟩) (ht : around.tools.Leave)
    (hd : w.tree.isDirectory b.root = true) : w₁.tree.isDirectory b.root = true := by
  induction h with
  | none w => exact hd
  | @next w w₁ w₂ file result done begun ran others ih =>
    have hfirst := spares_process file hc ht w hd
    rw [ran] at hfirst
    exact ih hfirst

theorem Begun.isDirectory (h : Begun around order w p job w₂ place r b) (ht : w.tree.Sound) :
    w₂.tree.isDirectory (ofPlace r).root = true := by
  obtain ⟨w', w'', hw', hcreate, hw₂⟩ := h.created
  have hroot := create_root (hw' ▸ ht) h.named (hw' ▸ h.solid) hcreate
  rw [← hw₂] at hroot
  have hspot : w₂.tree.spot (sandbox r).text = .ok (.found (sandbox r) .directory) := by
    refine spot_text (sandbox_ne_nil r) (named_sandbox h.named) (fun q hq hne => ?_) hroot nofun
    have hqr := prefix_sandbox hq hne
    rw [(h.fresh ht).outside q (sandbox_not_above hqr)]
    by_cases he : q = r
    · rw [he]
      exact h.directory
    · exact ht.above (by rw [h.directory]; exact nofun) hqr he
  exact isDirectory_eq_true.mpr ⟨_, entryAt_eq_ok.mpr hspot⟩

theorem run_prepare (ws : Workspace) (w : World) :
    (prepare ws).run w =
      match ws.create.run w with
      | (.ok (), w) => (.ok (), w.announce (.workspaceReady ws.root))
      | (.error cause, w) =>
        (.error (.workspace cause), (ws.cleanup.run (w.announce .workspaceFailed)).2) := by
  have hattempt : (attempt (δ := RunError) ws.create).run w =
      (.ok (ws.create.run w).1, (ws.create.run w).2) := rfl
  unfold prepare
  rw [run_bind, hattempt]
  rcases ws.create.run w with ⟨_ | _, _⟩ <;> rfl

theorem prepare_dismantled {e : RunError} (ht : w.tree.Sound) (hr : ∀ s ∈ r, IsName s)
    (hs : w.tree.Solid r) (hd : w.tree.get? r = some .directory)
    (h : (prepare (ofPlace r)).run w = (.error e, w₁)) : Dismantled w.tree r w₁.tree := by
  have hcreate := (create_leads (spared_made hr) ht hs hr).ending w rfl
  rw [run_prepare] at h
  rcases hrun : (ofPlace r).create.run w with ⟨cause | _, w'⟩ <;> rw [hrun] at h hcreate <;> cases h
  have halike : AlikeOutside (sandbox r) w.tree w'.tree := by
    obtain hsame | ⟨hfresh, -⟩ := hcreate
    · rw [hsame]
      exact fun _ _ => rfl
    · exact hfresh.outside
  have habove : ∀ p, p <+: r → w'.tree.get? p = some .directory := by
    intro p hp
    rw [halike p (sandbox_not_above hp)]
    by_cases he : p = r
    · rw [he]
      exact hd
    · exact ht.above (by rw [hd]; exact nofun) hp he
  obtain ⟨hout, hend⟩ := @cleanup_sandbox r (w'.announce .workspaceFailed) hr habove
  refine ⟨fun p hp => (hout p hp).trans (halike p hp), ?_⟩
  obtain hnone | ⟨hfile, hsame⟩ := hend
  · exact .inl hnone
  · -- a file stands there: the sandbox was not even cleared
    have hsame' := hcreate.resolve_right fun hnew => hnew.2 hfile
    rw [hsame]
    exact .inr ⟨hsame' ▸ hfile, congrArg (Tree.get? · _) hsame'⟩

theorem setUp_eq_error {e : RunError} (hc : w.tree.canonical [] p.root = .ok r)
    (h : (setUp around order p).run w = (.error e, w₁)) :
    (prepare (ofPlace r)).run w = (.error e, w₁) := by
  obtain ⟨ws, hws⟩ : ∃ ws, forProject w.tree p.root = .ok ws := by
    unfold forProject
    rw [hc]
    exact ⟨_, rfl⟩
  obtain ⟨r', hc', -, -, rfl⟩ := forProject_eq_ok hws
  obtain rfl : r = r' := Except.ok.inj (hc.symm.trans hc')
  unfold setUp at h
  rw [run_tree_bind, hws, run_ofExcept_bind] at h
  dsimp only [Except.mapError] at h
  rw [run_bind] at h
  rcases hrun : (prepare (ofPlace r)).run w with ⟨e' | _, w'⟩ <;> rw [hrun] at h
  · cases h
    rfl
  · dsimp only at h
    rw [announce, run_note_bind, run_tree_bind, log, run_note_bind] at h
    cases h

def Inspectable (dryRun : Bool) (done : List (String × FileResult)) : Prop :=
  dryRun = true ∧ ∃ x ∈ done, x.2.isFailed = true ∨ x.2.isUnverified = true

theorem inspectable_iff (dryRun : Bool) (done : List (String × FileResult)) :
    (dryRun && (counts done).needsInspection) = true ↔ Inspectable dryRun done := by
  rw [needsInspection_counts, Bool.and_eq_true, List.any_eq_true]
  simp only [Inspectable, Bool.or_eq_true]

theorem conclude_kept (ws : Workspace) (dryRun : Bool) (s : Summary) (w : World) :
    ∃ told, ((conclude ws dryRun s).run w).2.journal = w.journal ++ told ∧
      ∀ root, .notice (.kept root) ∈ told ↔
        root = ws.root ∧ (dryRun && s.needsInspection) = true := by
  rw [run_conclude]
  by_cases hk : (dryRun && s.needsInspection) = true
  · rw [if_pos hk]
    exact ⟨_, rfl, fun root => by simp [hk]⟩
  · rw [if_neg hk]
    obtain ⟨removed, hr, hquiet⟩ := preparing_cleanup ws w
    have hnot : ∀ root, .notice (.kept root) ∉ removed := fun root hm => by
      have hp := hquiet _ hm
      cases hp
    rcases hc : ws.cleanup.run w with ⟨e | _, w'⟩ <;> rw [hc] at hr
    · exact ⟨removed, hr, fun root => by simp [hk, hnot root]⟩
    · refine ⟨removed ++ [.notice (.summary s dryRun)], ?_, fun root => by simp [hk, hnot root]⟩
      change w'.journal ++ _ = _
      rw [hr, List.append_assoc]

/-- The sandbox in a run of the program, from the tree `t` to the ending. -/
structure Lifecycle (around : Surroundings) (order : Order) (t : Tree) (ending : Command.Ending) :
    Prop where
  /-- Before the workspace, and where there are no files, nothing is changed. -/
  untouched : (∀ p w₁, (plan around order).run ⟨t, []⟩ = (.ok p, w₁) → p.files = []) →
    ending.world.tree = t
  /-- A sandbox that cannot be made is taken away again. -/
  dismantled : ∀ p w₁ e w₂, (plan around order).run ⟨t, []⟩ = (.ok p, w₁) → p.files ≠ [] →
    (setUp around order p).run w₁ = (.error e, w₂) →
      ending.exitCode = 1 ∧
        ∃ r, t.canonical [] p.root = .ok r ∧ Dismantled t r ending.world.tree
  /-- A run that completes leaves its sandbox where there is something to look at, and tells so. -/
  completed : ∀ p w₁ job w₂, (plan around order).run ⟨t, []⟩ = (.ok p, w₁) → p.files ≠ [] →
    (setUp around order p).run w₁ = (.ok job, w₂) →
    ((migrate around order).run ⟨t, []⟩).1 = .ok () →
      ∃ done rest w₃, job.Reaches p.files w₂ done rest w₃ ∧
        (ending.world.tree.isDirectory job.workspace.root = true → Inspectable order.dryRun done) ∧
        (around.tools.Leave → Inspectable order.dryRun done →
          ending.world.tree.isDirectory job.workspace.root = true) ∧
        ∀ root, .notice (.kept root) ∈ ending.world.journal ↔
          root = job.workspace.root ∧ Inspectable order.dryRun done

theorem perform_world (d : Terminal.Display) (w : World) :
    (Command.perform around order d w).world = ((migrate around order).run w).2 := rfl

theorem program_world {arguments : List String} {clock : String} {debug : Bool}
    (h : Command.readArguments arguments = .migrate order debug) :
    (Command.program around clock arguments t).world = ((migrate around order).run ⟨t, []⟩).2 := by
  unfold Command.program
  rw [h]
  rfl

theorem perform_untouched (hidle : ∀ p w₁, (plan around order).run w = (.ok p, w₁) → p.files = []) :
    ((migrate around order).run w).2.tree = w.tree := by
  have hplan := (@plan_leads w.tree around order).ending w rfl
  rcases hrun : (plan around order).run w with ⟨e | p, w₁⟩ <;> rw [hrun] at hplan
  · rw [migrate, run_bind, hrun]
    exact hplan.2
  · rw [run_migrate_idle hrun (hidle p w₁ hrun)]
    exact hplan.2

theorem migrate_dismantled {e : RunError} (ht : w.tree.Sound) (hcwd : w.tree.Solid around.directory)
    (hplan : (plan around order).run w = (.ok p, w₁)) (hne : p.files ≠ [])
    (hsetUp : (setUp around order p).run w₁ = (.error e, w₂)) :
    (migrate around order).run w = (.error e, w₂) ∧
      ∃ r, w.tree.canonical [] p.root = .ok r ∧ Dismantled w.tree r w₂.tree := by
  obtain ⟨⟨place, hfits⟩, hw₁⟩ := plan_leads.of_ok (rfl : Same w.tree w) hplan
  have hw₁ : w₁.tree = w.tree := hw₁
  have hnamed := canonical_passed w.tree.passed_names
    (named_of_get? ht (hcwd _ (List.prefix_refl _)).1) hfits.canonical
  have hsolid := canonical_passed w.tree.passed_solid hcwd hfits.canonical
  obtain ⟨r, hc⟩ := ProjectRoot.exists_canonical_find ht hnamed hsolid
  have hd := ProjectRoot.canonical_find_directory ht hnamed hsolid hc
  have hr := canonical_passed w.tree.passed_names (fun _ hs => absurd hs List.not_mem_nil) hc
  have hs := canonical_passed w.tree.passed_solid w.tree.solid_nil hc
  rw [← hfits.root] at hc
  refine ⟨?_, r, hc, ?_⟩
  · rw [run_migrate hplan hne, migrateFiles, run_bind, hsetUp]
  · rw [← hw₁] at ht hs hd hc ⊢
    exact prepare_dismantled ht hr hs hd (setUp_eq_error hc hsetUp)

/-- What a run tells of a sandbox that it leaves. -/
theorem Begun.kept (h : Begun around order w p job w₂ place r b) (ht : w.tree.Sound)
    (ho : w.tree.Single) (hplan : (plan around order).run w = (.ok p, w₁))
    (hsetUp : (setUp around order p).run w₁ = (.ok job, w₂))
    (hreaches : job.Reaches p.files w₂ done rest w₃)
    (hrun : (migrate around order).run w = (conclude job.workspace order.dryRun (counts done)).run
      (w₃.notes (interruption rest done.length p.files.length))) :
    ∃ told, ((migrate around order).run w).2.journal = w.journal ++ told ∧
      ∀ root, .notice (.kept root) ∈ told ↔
        root = job.workspace.root ∧ Inspectable order.dryRun done := by
  obtain ⟨planned, htold₁, hplanned⟩ := preparing_plan around order w
  obtain ⟨prepared, htold₂, hprepared⟩ := preparing_setUp around order p w₁
  obtain ⟨worked, htold₃, hworked⟩ := h.reports ht ho hreaches
  obtain ⟨concluded, htold₄, hconcluded⟩ := conclude_kept job.workspace order.dryRun (counts done)
    (w₃.notes (interruption rest done.length p.files.length))
  rw [hplan] at htold₁
  rw [hsetUp] at htold₂
  rw [← hrun] at htold₄
  refine ⟨planned ++ (prepared ++ (worked ++
    (interruption rest done.length p.files.length ++ concluded))), ?_, fun root => ?_⟩
  · rw [htold₄, World.notes, htold₃, htold₂, htold₁]
    simp only [List.append_assoc]
  · have hearly : .notice (.kept root) ∉ planned ++ prepared := fun hm => by
      obtain hm | hm := List.mem_append.mp hm
      · exact absurd (hplanned _ hm) Bool.false_ne_true
      · exact absurd (hprepared _ hm) Bool.false_ne_true
    have hwork : .notice (.kept root) ∉ worked := fun hm =>
      absurd (hworked.closing _ hm).symm Bool.false_ne_true
    have hstop : .notice (.kept root) ∉ interruption rest done.length p.files.length := by
      unfold interruption
      split <;> simp
    rw [← inspectable_iff, ← hconcluded root, ← List.append_assoc]
    simp only [List.mem_append] at hearly ⊢
    tauto

theorem migrate_completed (ht : w.tree.Sound) (ho : w.tree.Single)
    (hcwd : w.tree.Solid around.directory) (hplan : (plan around order).run w = (.ok p, w₁))
    (hne : p.files ≠ []) (hsetUp : (setUp around order p).run w₁ = (.ok job, w₂))
    (hok : ((migrate around order).run w).1 = .ok ()) :
    ∃ done rest w₃ told, job.Reaches p.files w₂ done rest w₃ ∧
      ((migrate around order).run w).2.journal = w.journal ++ told ∧
      (((migrate around order).run w).2.tree.isDirectory job.workspace.root = true →
        Inspectable order.dryRun done) ∧
      (around.tools.Leave → Inspectable order.dryRun done →
        ((migrate around order).run w).2.tree.isDirectory job.workspace.root = true) ∧
      ∀ root, .notice (.kept root) ∈ told ↔
        root = job.workspace.root ∧ Inspectable order.dryRun done := by
  obtain ⟨place, r, b, hb⟩ := begun ht hcwd hplan hsetUp
  obtain ⟨done, rest, w₃, hreaches, hrun⟩ := migrate_reaches hplan hne hsetUp
  obtain ⟨told, htold, hkept⟩ := hb.kept ht ho hplan hsetUp hreaches hrun
  refine ⟨done, rest, w₃, told, hreaches, htold, fun hd => ?_, fun htools hi => ?_, hkept⟩
  · by_contra hi
    rw [← inspectable_iff] at hi
    rw [hrun, run_conclude, if_neg hi] at hd hok
    have hws : job.workspace = ofPlace r := by rw [hb.job_eq]
    rw [hws] at hd hok
    rcases hc : (ofPlace r).cleanup.run
      (w₃.notes (interruption rest done.length p.files.length)) with ⟨e | _, w'⟩ <;>
      rw [hc] at hd hok
    · cases hok
    · have hgone := cleanup_gone hb.named hc
      change w'.tree.isDirectory _ = true at hd
      rw [hd] at hgone
      cases hgone
  · have hchecker : job.team.checker = ⟨b.check around.tools⟩ := by rw [hb.job_eq]; rfl
    have hroot : job.workspace.root = b.root := by rw [hb.job_eq, hb.builder]; rfl
    have hstart : w₂.tree.isDirectory b.root = true := by
      rw [hb.builder]
      exact hb.isDirectory ht
    rw [hrun, run_conclude, if_pos ((inspectable_iff _ _).mpr hi), hroot]
    exact hreaches.processed.spares hchecker htools hstart

/-- The life of the sandbox, whatever the program is called with, whatever stands in the tree, and
however the others behave. -/
theorem program_lifecycle (around : Surroundings) (clock : String) (arguments : List String)
    (t : Tree) (ht : t.Sound) (ho : t.Single) (hcwd : t.Solid around.directory) :
    (∀ order debug, Command.readArguments arguments = .migrate order debug →
      Lifecycle around order t (Command.program around clock arguments t)) ∧
    ((∀ order debug, Command.readArguments arguments ≠ .migrate order debug) →
      (Command.program around clock arguments t).world.tree = t) := by
  refine ⟨fun order debug h => ?_, fun h => ?_⟩
  · unfold Command.program
    rw [h]
    exact {
      untouched := perform_untouched
      dismantled := fun p w₁ e w₂ hplan hne hsetUp => by
        obtain ⟨hrun, hdismantled⟩ := migrate_dismantled ht hcwd hplan hne hsetUp
        dsimp only
        rw [perform_world, hrun]
        exact ⟨by simp [Command.perform, hrun, Terminal.Display.showError], hdismantled⟩
      completed := fun p w₁ job w₂ hplan hne hsetUp hok => by
        obtain ⟨done, rest, w₃, told, hreaches, htold, hgone, hstays, hkept⟩ :=
          migrate_completed ht ho hcwd hplan hne hsetUp hok
        rw [List.nil_append] at htold
        dsimp only
        rw [perform_world, htold]
        exact ⟨done, rest, w₃, hreaches, hgone, hstays, hkept⟩ }
  · unfold Command.program
    cases hr : Command.readArguments arguments with
    | migrate order debug => exact absurd hr (h order debug)
    | shown text => rfl
    | refused e => rfl

def spoiledTree : Tree := ⟨[(["A.java"], .file ⟨#[255]⟩ false)]⟩

theorem spoiledTree_sound : spoiledTree.Sound := sound_of_listed (by decide)

theorem program_lifecycle_spoiled : ∃ root,
    let world := (Command.program alone "" ["migrate", "/A.java", "--dry-run"] spoiledTree).world
    .notice (.kept root) ∈ world.journal ∧ world.tree.isDirectory root = true := by
  have hread : Command.readArguments ["migrate", "/A.java", "--dry-run"] =
      .migrate dryOrder false := by decide +kernel
  have hlife := (program_lifecycle alone "" ["migrate", "/A.java", "--dry-run"] spoiledTree
    spoiledTree_sound (by unfold Single spoiledTree; decide) (solid_nil _)).1 _ _ hread
  have hbegun : (plan alone dryOrder >>= fun p => setUp alone dryOrder p >>= fun job =>
      pure (p, job)).succeeds (fun x _ => !x.1.files.isEmpty) ⟨spoiledTree, []⟩ = true := by
    decide +kernel
  have hrun : (migrate alone dryOrder).succeeds
      (fun _ w => w.journal.contains (.notice (.kept "/.modernizer_sandbox")))
      ⟨spoiledTree, []⟩ = true := by decide +kernel
  obtain ⟨x, w, hx, hfiles⟩ := exists_of_succeeds hbegun
  obtain ⟨p, w₁, hplan, hx⟩ := bind_eq_ok hx
  obtain ⟨job, w₂, hsetUp, hx⟩ := bind_eq_ok hx
  obtain ⟨rfl, rfl⟩ := pure_eq_ok hx
  obtain ⟨⟨⟩, w', hw', hkept⟩ := exists_of_succeeds hrun
  have hworld := @program_world spoiledTree alone dryOrder _ "" _ hread
  have hne : p.files ≠ [] := by simpa using hfiles
  obtain ⟨done, rest, w₃, -, -, hstays, hnotice⟩ :=
    hlife.completed p w₁ job w hplan hne hsetUp (by rw [hw'])
  rw [hworld, hw'] at hstays hnotice
  have htold := List.contains_iff_mem.mp hkept
  obtain ⟨hroot, hinspect⟩ := (hnotice _).mp htold
  refine ⟨"/.modernizer_sandbox", ?_⟩
  rw [hworld, hw', hroot]
  exact ⟨hroot ▸ htold, hstays (fun _ _ _ _ _ h => h) hinspect⟩

def razing : Surroundings :=
  { attended with
    tools := fun _ t _ _ _ => ⟨.code 0, ByteArray.empty, ByteArray.empty,
      t.prune [".modernizer_sandbox"]⟩ }

/-- The sandbox is said to be kept though a build tool has removed it: nobody looks. -/
theorem program_razed :
    let ending := Command.program razing "" ["migrate", "/A.java", "--dry-run"] trioTree
    ending.exitCode = 0 ∧ .notice (.summary ⟨0, 0, 0, 1, 0⟩ true) ∈ ending.world.journal ∧
      .notice (.kept "/.modernizer_sandbox") ∈ ending.world.journal ∧
      ending.world.tree.isDirectory "/.modernizer_sandbox" = false := by
  have hread : Command.readArguments ["migrate", "/A.java", "--dry-run"] =
      .migrate dryOrder false := by decide +kernel
  have hrun : (migrate razing dryOrder).succeeds (fun _ w =>
      w.journal.contains (.notice (.summary ⟨0, 0, 0, 1, 0⟩ true)) &&
        w.journal.contains (.notice (.kept "/.modernizer_sandbox")) &&
        !w.tree.isDirectory "/.modernizer_sandbox") ⟨trioTree, []⟩ = true := by
    decide +kernel
  obtain ⟨⟨⟩, w', hw', hend⟩ := exists_of_succeeds hrun
  obtain ⟨hend, hgone⟩ := Bool.and_eq_true_iff.mp hend
  obtain ⟨hsummary, hkept⟩ := Bool.and_eq_true_iff.mp hend
  intro ending
  have hending : ending.exitCode = 0 ∧ ending.world = w' := by
    simp only [ending, Command.program, hread]
    exact ⟨by simp [Command.perform, hw'], by rw [perform_world, hw']⟩
  rw [hending.2]
  exact ⟨hending.1, List.contains_iff_mem.mp hsummary, List.contains_iff_mem.mp hkept,
    by simpa using hgone⟩

end Run

end Refit
