import Refit.Proofs.Sources.Found
import Refit.Run.Migration

namespace Refit

open Refit.Path Refit.Tree

variable {t : Tree}

/-- A check leaves the tree alone, or as the build tool leaves it. -/
theorem Build.Builder.check_tree (b : Builder) (tools : Tools) (history : Journal) (t : Tree) :
    (b.check tools history t).2.2 = t ∨ ∃ program arguments,
      (b.check tools history t).2.2 = (tools history t program b.root arguments).tree := by
  unfold check
  split
  · exact .inl rfl
  · split
    · rename_i program _ _
      refine .inr ⟨program, b.system.arguments, ?_⟩
      dsimp only
      split <;> rfl
    · exact .inl rfl

namespace Run

variable {around : Surroundings} {order : Order} {job : Job} {I : World → Prop}

/-- An error that ends a run before the first file is processed. -/
def RunError.IsEarly : RunError → Prop
  | .cleanup _ => False
  | _ => True

/-- What a plan is made of. -/
structure Plan.Fits (plan : Plan) (around : Surroundings) (order : Order) (t : Tree)
    (place : Place) : Prop where
  canonical : t.canonical around.directory order.path = .ok place
  root : plan.root = ProjectRoot.find t place.text
  files : Sources.collect t place.text = .ok plan.files

/-- Nothing is changed by a step that leads to worlds with the same tree. -/
def Same (t : Tree) (w : World) : Prop := w.tree = t

theorem client?_leads (s : Settings) : Step.Leads (Same t) (client? s) (fun _ => Same t)
    fun e w => e.IsEarly ∧ Same t w := by
  unfold client?
  split
  · refine Step.Leads.bind (Q := fun _ => Same t) (Step.leads_ofExcept_mapError
      (fun _ _ _ hw => hw) fun _ _ hw => ⟨trivial, hw⟩) fun client => ?_
    exact Step.Leads.noted (Step.leads_pure fun _ hw => hw) fun _ hw => hw
  · exact Step.Leads.noted (Step.leads_pure fun _ hw => hw) fun _ hw => hw

theorem plan_leads : Step.Leads (Same t) (plan around order)
    (fun p w => (∃ place, p.Fits around order t place) ∧ Same t w)
    fun e w => e.IsEarly ∧ Same t w := by
  have htree : Step.Leads (Same t) (Step.tree (ε := RunError)) (fun u w => u = t ∧ Same t w)
    fun e w => e.IsEarly ∧ Same t w := Step.leads_tree fun _ hw => ⟨hw, hw⟩
  unfold plan
  refine htree.bind fun u => ?_
  refine Step.Leads.bind (Q := fun place w =>
    t.canonical around.directory order.path = .ok place ∧ Same t w) (Step.leads_ofExcept_mapError
      (by rintro place w hc ⟨rfl, hw⟩; exact ⟨hc, hw⟩) fun _ w hw => ⟨trivial, hw.2⟩)
    fun place => ?_
  dsimp only
  split
  · refine Step.Leads.bind (Q := fun _ w =>
      t.canonical around.directory order.path = .ok place ∧ Same t w)
      (Step.leads_pure fun _ hw => hw) fun strategy => ?_
    refine Step.leads_assume fun hc => ?_
    refine Step.Leads.bind htree fun u => ?_
    refine Step.Leads.noted ?_ fun _ hw => hw
    refine Step.leads_assume fun hu => ?_
    refine Step.Leads.bind htree fun u' => ?_
    refine Step.Leads.bind (Q := fun _ => Same t) (Step.leads_ofExcept_mapError
      (fun _ _ _ hw => hw.2) fun _ _ hw => ⟨trivial, hw.2⟩) fun settings => ?_
    refine Step.Leads.bind (client?_leads settings) fun client => ?_
    refine Step.Leads.bind htree fun u' => ?_
    refine Step.Leads.bind (Q := fun files w => Sources.collect t place.text = .ok files ∧ Same t w)
      (Step.leads_ofExcept_mapError ?_ ?_) fun files => ?_
    · intro files w hf hw
      rw [hw.1] at hf
      exact ⟨hf, hw.2⟩
    · exact fun _ _ hw => ⟨trivial, hw.2⟩
    exact Step.leads_pure fun w hw => ⟨⟨place, hc, by rw [hu], hw.1⟩, hw.2⟩
  · exact Step.Leads.bind (Q := fun _ _ => False) (Step.leads_fail fun _ hw => ⟨trivial, hw.2⟩)
      fun _ => Step.leads_never _

theorem run_client?_none {s : Settings} (h : s.hasAnyKey = false) (w : World) :
    (client? s).run w = (.ok none, w.note (.notice .noKey)) := by
  unfold client?
  rw [if_neg (by simp [h])]
  rfl

def planFor (around : Surroundings) (files : List String) : Step RunError Plan := do
  Step.log (rootRecord "/")
  let settings ← Step.ofExcept
    ((Settings.load (← Step.tree) "/" around.environment).mapError .settings)
  let client ← client? settings
  return ⟨"/", Strategy.webFlux, client, "/", files⟩

theorem planFor_files {files : List String} {p : Plan} {w w' : World}
    (h : (planFor around files).run w = (.ok p, w')) : p.files = files := by
  obtain ⟨_, _, -, h⟩ := Step.bind_eq_ok h
  obtain ⟨_, _, -, h⟩ := Step.bind_eq_ok h
  obtain ⟨_, _, -, h⟩ := Step.bind_eq_ok h
  obtain ⟨_, _, -, h⟩ := Step.bind_eq_ok h
  obtain ⟨rfl, -⟩ := Step.pure_eq_ok h
  rfl

theorem plan_found {found : List (List String)} (hd : around.directory = [])
    (hpath : order.path = "/") (htarget : order.target = "webflux")
    (hroot : ProjectRoot.find t (Place.text []) = "/")
    (hfound : t.entries.filterMap (Sources.found? t (Place.text []) []) = found)
    (hsorted : found.Pairwise fun a b => Sources.inOrder a b = true) :
    (plan around order).run ⟨t, []⟩ =
      (planFor around (found.map (Sources.pathBelow "/"))).run ⟨t, []⟩ := by
  have htext : Place.text [] = "/" := by decide +kernel
  have hplace : t.canonical around.directory order.path = .ok [] := by
    rw [hd, hpath]
    rfl
  have hstrategy : Strategy.find? order.target = some Strategy.webFlux := by
    rw [htarget]
    rfl
  unfold plan planFor
  rw [Step.run_tree_bind, hplace, Step.run_ofExcept_bind]
  dsimp only [Except.mapError]
  rw [hstrategy]
  dsimp only
  rw [Step.run_pure_bind, Step.run_tree_bind, hroot, Step.log, Step.run_note_bind,
    Step.run_note_bind, Step.run_tree_bind, Step.run_tree_bind, Step.note_tree]
  cases hs : Settings.load t "/" around.environment with
  | error e => rfl
  | ok settings =>
    dsimp only [Except.mapError]
    rw [Step.run_ofExcept_bind, Step.run_ofExcept_bind]
    dsimp only
    have hsame := (@client?_leads t settings).ending
      (World.note ⟨t, []⟩ (.log (rootRecord "/"))) rfl
    rw [Step.run_bind, Step.run_bind]
    rcases hc : (client? settings).run (World.note ⟨t, []⟩ (.log (rootRecord "/"))) with
      ⟨_ | client, w⟩
    · rfl
    · rw [hc] at hsame
      have hw : w.tree = t := hsame
      dsimp only
      rw [Step.run_tree_bind, hw, Sources.collect_top hfound hsorted, htext]
      rfl

/-- The place of the sandbox of a run, where it comes to that. -/
def sandboxOf (around : Surroundings) (order : Order) (t : Tree) : Option Place :=
  (t.canonical around.directory order.path).toOption.bind fun place =>
    (t.canonical [] (ProjectRoot.find t place.text)).toOption.map Workspace.sandbox

theorem sandboxOf_eq {plan : Plan} {place r : Place} (hp : plan.Fits around order t place)
    (hc : t.canonical [] plan.root = .ok r) :
    sandboxOf around order t = some (Workspace.sandbox r) := by
  rw [hp.root] at hc
  simp [sandboxOf, hp.canonical, hc, Except.toOption]

theorem prepare_leads {r : Place} {I : Tree → Prop} (hI : Workspace.Made t r I) (ht : t.Sound)
    (hs : t.Solid r) (hr : ∀ s ∈ r, IsName s) :
    Step.Leads (Same t) (prepare (Workspace.ofPlace r)) (fun _ w => I w.tree)
      fun e w => e.IsEarly ∧ Workspace.AlikeOutside (Workspace.sandbox r) t w.tree := by
  have hcreate := Workspace.create_leads hI ht hs hr
  have halike : ∀ w : World, w.tree = t ∨ I w.tree →
      Workspace.AlikeOutside (Workspace.sandbox r) t w.tree := by
    rintro w (rfl | hw)
    · exact fun _ _ => rfl
    · exact (hI.copying.fresh _ hw).outside
  have hcleanup : Step.Leads
      (fun w => Workspace.AlikeOutside (Workspace.sandbox r) t w.tree)
      (Workspace.ofPlace r).cleanup
      (fun _ w => Workspace.AlikeOutside (Workspace.sandbox r) t w.tree)
      fun _ w => Workspace.AlikeOutside (Workspace.sandbox r) t w.tree := by
    refine Workspace.cleanup_leads hr (fun w hw p hp => ?_)
      (fun w hw => Workspace.AlikeOutside.prune hw) fun w hw _ => hw
    rw [hw.linkAt_iff (Workspace.sandbox_not_above hp)]
    exact (hs p hp).2
  unfold prepare
  refine Step.Leads.bind (Step.leads_attempt (S := fun made w =>
    made.rec (fun _ => Workspace.AlikeOutside (Workspace.sandbox r) t w.tree) fun _ => I w.tree)
    (hcreate.weaken (fun _ h => h) (fun _ _ h => h) fun _ w h => halike w h)) fun made => ?_
  cases made with
  | ok _ => exact Step.leads_note fun _ h => h
  | error cause =>
    refine Step.Leads.noted ?_ fun _ h => h
    exact Step.Leads.bind (Step.leads_attempt (S := fun _ w =>
      Workspace.AlikeOutside (Workspace.sandbox r) t w.tree) hcleanup) fun _ =>
      Step.leads_fail fun _ h => ⟨trivial, h⟩

/-- What a run brings together for its files. -/
structure Job.Fits (job : Job) (around : Surroundings) (order : Order) (r : Place) : Prop where
  workspace : job.workspace = Workspace.ofPlace r
  checker : ∃ b : Build.Builder, job.team.checker = ⟨b.check around.tools⟩
  gate : job.gate = ⟨order.dryRun, order.autoApprove⟩
  answerer : job.answerer = nobody

theorem setUp_leads {plan : Plan} {I : Place → Tree → Prop}
    (hI : ∀ r, t.canonical [] plan.root = .ok r → t.Solid r → (∀ s ∈ r, IsName s) →
      Workspace.Made t r (I r))
    (ht : t.Sound) :
    Step.Leads (Same t) (setUp around order plan)
      (fun job w => ∃ r, (t.canonical [] plan.root = .ok r ∧ t.Solid r ∧ (∀ s ∈ r, IsName s) ∧
        job.Fits around order r) ∧ I r w.tree)
      fun e w => e.IsEarly ∧ (Same t w ∨ ∃ r, t.canonical [] plan.root = .ok r ∧
        Workspace.AlikeOutside (Workspace.sandbox r) t w.tree) := by
  unfold setUp
  refine Step.Leads.bind (Step.leads_tree (Q := fun u w => u = t ∧ Same t w) fun _ h => ⟨h, h⟩)
    fun u => ?_
  refine Step.leads_assume fun hu => ?_
  refine Step.Leads.bind (Q := fun ws w => (∃ r, t.canonical [] plan.root = .ok r ∧ t.Solid r ∧
    (∀ s ∈ r, IsName s) ∧ ws = Workspace.ofPlace r) ∧ Same t w)
    (Step.leads_ofExcept_mapError ?_ fun _ _ h => ⟨trivial, .inl h⟩) fun ws => ?_
  · intro ws w hw h
    rw [hu] at hw
    obtain ⟨r, hc, hr, hs, he⟩ := Workspace.forProject_eq_ok hw
    exact ⟨⟨r, hc, hs, hr, he⟩, h⟩
  refine Step.leads_assume fun ⟨r, hc, hs, hr, he⟩ => ?_
  subst he
  refine Step.Leads.bind ((prepare_leads (hI r hc hs hr) ht hs hr).weaken (fun _ h => h)
    (fun _ _ h => h) fun _ _ h => ⟨h.1, .inr ⟨r, hc, h.2⟩⟩) fun _ => ?_
  refine Step.Leads.noted ?_ fun _ h => h
  refine Step.Leads.bind (Step.leads_tree (Q := fun _ w => I r w.tree) fun _ h => h) fun _ => ?_
  refine Step.Leads.noted ?_ fun _ h => h
  exact Step.leads_pure fun _ h => ⟨r, ⟨hc, hs, hr, rfl, ⟨_, rfl⟩, rfl, rfl⟩, h⟩

theorem load_eq_ok {d : Draft} {path : String} (h : Draft.load t path = .ok d) :
    d.path = path ∧ d.opened = d.content ∧ t.readText path = .ok d.content := by
  unfold Draft.load at h
  split at h
  · cases h
    exact ⟨rfl, rfl, ‹_›⟩
  · cases h

/-- The world after some files have been processed. -/
def Job.after (job : Job) (w : World) (files : List String) : World :=
  files.foldl (fun w file => ((job.process file (ε := RunError)).run w).2) w

theorem Job.run_process (job : Job) (file : String) (w : World) :
    (job.process file (ε := RunError)).run w =
      match (job.migrate file).run w with
      | (.ok result, w') => (.ok result, w')
      | (.error e, w') => (.ok .failed, w'.announce (.fileFailed (nameOf file) e.full)) := by
  unfold process
  rw [Step.run_bind]
  have hattempt : ((job.migrate file).attempt (δ := RunError)).run w =
      (.ok ((job.migrate file).run w).1, ((job.migrate file).run w).2) := rfl
  rw [hattempt]
  rcases (job.migrate file).run w with ⟨_ | _, w'⟩ <;> rfl

theorem Job.process_ok (job : Job) (file : String) (w : World) :
    ∃ result, (job.process file (ε := RunError)).run w =
      (.ok result, ((job.process file (ε := RunError)).run w).2) := by
  rw [job.run_process]
  split <;> exact ⟨_, rfl⟩

/-- Files that are processed one after the other, with what becomes of each. A file is met as those
before it left the world, and none is begun once the run has been interrupted. -/
inductive Job.Processed (job : Job) : World → List (String × FileResult) → World → Prop
  | none (w : World) : Processed job w [] w
  | next {w w₁ w' : World} {file : String} {result : FileResult}
      {done : List (String × FileResult)}
      (begun : job.interrupted w.journal = false)
      (ran : (job.process file (ε := RunError)).run w = (.ok result, w₁))
      (others : Processed job w₁ done w') : Processed job w ((file, result) :: done) w'

/-- A summary with some more results. -/
def Summary.recordAll (s : Summary) (done : List (String × FileResult)) : Summary :=
  done.foldl (fun s x => s.record x.2) s

/-- What is told where a run does not get to the end of its files. -/
def interruption (rest : List String) (done total : Nat) : List Event :=
  if rest = [] then [] else [.notice (.interrupted done total)]

theorem run_migrateAll (job : Job) (total : Nat) (s : Summary) (file : String)
    (files : List String) (w : World) :
    (migrateAll job total s (file :: files)).run w =
      if job.interrupted w.journal then (.ok s, w.announce (.interrupted s.total total))
      else (job.process file >>= fun result =>
        migrateAll job total (s.record result) files).run w := by
  have hrun : (migrateAll job total s (file :: files)).run w =
      (if job.interrupted w.journal then do
        Step.announce (.interrupted s.total total)
        return s
      else job.process file >>= fun result =>
        migrateAll job total (s.record result) files : Step RunError Summary).run w := rfl
  rw [hrun]
  split <;> rfl

theorem run_migrateAll_cons {total : Nat} {s : Summary} {file : String} {files : List String}
    {result : FileResult} {w w' : World} (hgoing : job.interrupted w.journal = false)
    (h : (job.process file (ε := RunError)).run w = (.ok result, w')) :
    (migrateAll job total s (file :: files)).run w =
      (migrateAll job total (s.record result) files).run w' := by
  rw [run_migrateAll, if_neg (by simp [hgoing]), Step.run_bind, h]

theorem migrateAll_processed (job : Job) (total : Nat) (s : Summary) (files : List String)
    (w : World) :
    ∃ done rest w', files = done.map Prod.fst ++ rest ∧ job.Processed w done w' ∧
      (rest ≠ [] → job.interrupted w'.journal = true) ∧
      (migrateAll job total s files).run w = (.ok (s.recordAll done),
        w'.notes (interruption rest (s.recordAll done).total total)) := by
  have hnone : ∀ w : World, w.notes [] = w := fun w => by simp [World.notes]
  induction files generalizing s w with
  | nil => exact ⟨[], [], w, rfl, .none w, fun h => absurd rfl h, Prod.ext rfl (hnone w).symm⟩
  | cons file files ih =>
    cases hi : job.interrupted w.journal with
    | true => exact ⟨[], file :: files, w, rfl, .none w, fun _ => hi, by
      rw [run_migrateAll, if_pos hi]
      rfl⟩
    | false =>
      obtain ⟨result, hresult⟩ := job.process_ok file w
      obtain ⟨done, rest, w', hfiles, hdone, hstop, hrest⟩ :=
        ih (s.record result) ((job.process file (ε := RunError)).run w).2
      refine ⟨(file, result) :: done, rest, w', ?_, .next hi hresult hdone, hstop, ?_⟩
      · rw [hfiles, List.map_cons, List.cons_append]
      · rw [run_migrateAll_cons hi hresult]
        exact hrest

theorem Job.Processed.after {done : List (String × FileResult)} {w w' : World}
    (h : job.Processed w done w') : w' = job.after w (done.map Prod.fst) := by
  induction h with
  | none => rfl
  | next begun ran others ih =>
    rw [ih]
    simp only [Job.after, List.map_cons, List.foldl_cons, ran]

theorem migrateAll_after (job : Job) (total : Nat) (s : Summary) (files : List String) (w : World) :
    ∃ done summary, done <+: files ∧
      ((migrateAll job total s files).run w).1 = .ok summary ∧
      (((migrateAll job total s files).run w).2 = job.after w done ∨
        ((migrateAll job total s files).run w).2 =
          (job.after w done).announce (.interrupted summary.total total)) := by
  obtain ⟨done, rest, w', hfiles, hdone, -, hrun⟩ := migrateAll_processed job total s files w
  refine ⟨done.map Prod.fst, s.recordAll done, ⟨rest, hfiles.symm⟩, ?_⟩
  rw [hrun, ← hdone.after]
  refine ⟨rfl, ?_⟩
  unfold interruption
  split
  · exact .inl (by simp [World.notes])
  · exact .inr rfl

/-- A project of one file, for which there is a rule. -/
def soleTree : Tree := ⟨[(["A.java"], .file "io.vertx.core.Promise".toUTF8 false)]⟩

theorem soleTree_sound : soleTree.Sound := sound_of_listed (by decide)

theorem soleTree_single : soleTree.Single := by
  unfold Single soleTree
  decide

theorem soleTree_linkFree (p : Place) : ¬ soleTree.LinkAt p :=
  linkFree_of_listed (by decide) p

/-- Nobody else is at work. -/
def alone : Surroundings where
  environment _ := none
  directory := []
  tools _ t _ _ _ := ⟨.code 0, ByteArray.empty, ByteArray.empty, t⟩
  service _ _ := .broken
  interrupted _ := false

def soleOrder : Order := { path := "/A.java", autoApprove := true }

def wholeOrder : Order := { path := "/", autoApprove := true }

def dryOrder : Order := { path := "/A.java", dryRun := true }

/-- The plan of a run that is given the top of the tree, and has no key. -/
theorem plan_top {found : List (List String)}
    (hd : around.directory = []) (hroot : ProjectRoot.find t (Place.text []) = "/")
    (hkey : (Settings.load t "/" around.environment).toOption.any (fun s => !s.hasAnyKey) = true)
    (hfound : t.entries.filterMap (Sources.found? t (Place.text []) []) = found)
    (hsorted : found.Pairwise fun a b => Sources.inOrder a b = true) :
    (plan around wholeOrder).run ⟨t, []⟩ =
      (.ok ⟨"/", Strategy.webFlux, none, "/", found.map (Sources.pathBelow "/")⟩,
        ⟨t, [.log (rootRecord "/"), .notice .noKey]⟩) := by
  rw [plan_found hd rfl rfl hroot hfound hsorted, planFor, Step.log, Step.run_note_bind,
    Step.run_tree_bind, Step.note_tree]
  cases hs : Settings.load t "/" around.environment with
  | error e =>
    rw [hs] at hkey
    cases hkey
  | ok settings =>
    rw [hs] at hkey
    dsimp only [Except.mapError]
    rw [Step.run_ofExcept_bind]
    dsimp only
    rw [Step.run_bind, run_client?_none (by simpa [Except.toOption] using hkey)]
    rfl

/-- A project with a file to hand over, one that needs nothing, and one that is no text. -/
def trioTree : Tree := ⟨[
  (["bin"], .directory),
  (["bin", "mvn"], .file ByteArray.empty true),
  (["A.java"], .file
    "io.vertx.core.Promise public void start(Promise<Void> startFuture){}".toUTF8 false),
  (["B.java"], .file "class B {}".toUTF8 false),
  (["C.java"], .file ⟨#[255]⟩ false)]⟩

theorem trioTree_sound : trioTree.Sound := sound_of_listed (by decide)

theorem trioTree_single : trioTree.Single := by
  unfold Single trioTree
  decide

theorem trioTree_linkFree (p : Place) : ¬ trioTree.LinkAt p :=
  linkFree_of_listed (by decide) p

end Run

end Refit
