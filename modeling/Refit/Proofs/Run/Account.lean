import Refit.Proofs.ProjectRoot.Above
import Refit.Proofs.Run.Isolation
import Refit.Proofs.Run.Reports
import Refit.Proofs.Workspace.Plain

/-!
The account of a run (`migrate_accounts`): which files it processes, what it tells of them and how it
counts them, and that it leaves everything else alone. What is left alone is stated by places. A link
that is saved is written where it leads, so that a file can change though it is never processed
(`migrate_through_link`).
-/

namespace Refit

open Refit.Path Refit.Tree Workspace

variable {t : Tree} {place r : Place} {files : List String}

namespace Run

variable {around : Surroundings} {order : Order} {job : Job} {p : Plan} {w w₁ w₂ w₃ : World}
  {directory q below : Place} {file : String} {draft : Draft} {done : List (String × FileResult)}
  {rest : List String}

def LedTo (directory : Place) (t : Tree) (file : String) (q : Place) : Prop :=
  ∃ u : Tree, AlikeOutside directory t u ∧
    ∃ bytes runnable, u.spot file = .ok (.found q (.file bytes runnable))

theorem conclude_tells (ws : Workspace) (dryRun : Bool) (s : Summary) :
    (conclude ws dryRun s).Tells fun e => e.isPreparing = true ∨
      (∃ root, e = .notice (.kept root)) ∨ e = .notice (.summary s dryRun) := by
  unfold conclude
  split
  · exact Step.Tells.bind (Step.tells_note (.inr (.inl ⟨_, rfl⟩))) fun _ =>
      Step.tells_note (.inr (.inr rfl))
  · exact Step.Tells.bind (Step.Tells.mono (preparing_cleanup ws).mapError fun _ => .inl) fun _ =>
      Step.tells_note (.inr (.inr rfl))

theorem Job.Processed.split {before after : List (String × FileResult)} {result : FileResult}
    (h : job.Processed w (before ++ (file, result) :: after) w₃) :
    ∃ w₁ w₂, job.Processed w before w₁ ∧
      (job.process file (ε := RunError)).run w₁ = (.ok result, w₂) ∧ job.Processed w₂ after w₃ := by
  induction before generalizing w with
  | nil =>
    cases h with
    | next begun ran others => exact ⟨w, _, .none w, ran, others⟩
  | cons x before ih =>
    cases h with
    | next begun ran others =>
      obtain ⟨w₁, w₂, hbefore, hran, hafter⟩ := ih others
      exact ⟨w₁, w₂, .next begun ran hbefore, hran, hafter⟩

theorem Job.isFailed_iff {result : FileResult}
    (h : (job.process file (ε := RunError)).run w = (.ok result, w₁)) :
    result.isFailed = true ↔ ∃ e, ((job.migrate file).run w).1 = .error e := by
  rw [job.run_process] at h
  rcases hr : (job.migrate file).run w with ⟨e | other, w'⟩ <;> rw [hr] at h <;> cases h
  · exact ⟨fun _ => ⟨e, rfl⟩, fun _ => rfl⟩
  · obtain ⟨status, decision, rfl⟩ := job.migrate_ok hr
    exact ⟨nofun, nofun⟩

/-- The account of a run: `done` are the files that it processed and `rest` those that it left,
`w₂` and `w₃` the worlds before and after them, and `told` is what the whole run told. -/
structure Account (around : Surroundings) (order : Order) (d : Terminal.Display) (w : World)
    (p : Plan) (job : Job) (w₂ : World) (done : List (String × FileResult)) (rest : List String)
    (w₃ : World) (told : List Event) : Prop where
  ordered : p.files.Pairwise fun a b => (Path.ofText a).names < (Path.ofText b).names
  reaches : job.Reaches p.files w₂ done rest w₃
  interruptible : job.interrupted = around.interrupted
  /-- A file counts as failed just where its migration ends with an error. -/
  failing : ∀ before file result after, done = before ++ (file, result) :: after →
    ∃ w', job.Processed w₂ before w' ∧
      (result.isFailed = true ↔ ∃ e, ((job.migrate file).run w').1 = .error e)
  journal : ((migrate around order).run w).2.journal = w.journal ++ told
  interrupted : ∀ k n, .notice (.interrupted k n) ∈ told ↔
    rest ≠ [] ∧ k = done.length ∧ n = p.files.length
  saved : told.countP (Event.isSaved (p.files.map Job.nameOf)) = (counts done).promoted
  failures : told.filterMap Event.failed? =
    (done.filter fun x => x.2.isFailed).map fun x => Job.nameOf x.1
  failed : (counts done).failed = done.countP fun x => x.2.isFailed
  total : (counts done).promoted + (counts done).skipped + (counts done).unchanged +
    (counts done).failed = done.length
  /-- A run whose workspace is kept or can be removed has succeeded, whatever became of the files,
  and shows the counts last. -/
  completed : (order.dryRun && (counts done).needsInspection) = true ∨
      (job.workspace.cleanup.run (w₃.notes (interruption rest done.length p.files.length))).1 =
        .ok () →
    (Command.perform around order d w).exitCode = 0 ∧
      told.getLast? = some (.notice (.summary (counts done) order.dryRun)) ∧
      ∃ shown, (Command.perform around order d w).stderr =
        shown ++ Terminal.textOf (d.showSummary (counts done) order.dryRun)
  /-- As far as the build tools keep to the sandbox, nothing outside of it changes but where a
  promoted file led. -/
  untouched : ∀ r, w.tree.canonical [] p.root = .ok r → around.tools.KeepTo (sandbox r) →
    ∀ q, ¬ sandbox r <+: q → ((migrate around order).run w).2.tree.get? q ≠ w.tree.get? q →
      ∃ before file result after w', done = before ++ (file, result) :: after ∧
        job.Processed w₂ before w' ∧ result.isPromoted = true ∧ LedTo (sandbox r) w'.tree file q

theorem run_completed {s : Summary} {dryRun : Bool} {told : List Event} {d : Terminal.Display}
    (hrun : (migrate around order).run w = (conclude job.workspace dryRun s).run w₁)
    (htold : ((migrate around order).run w).2.journal = w.journal ++ told)
    (hjournal : w.journal.length ≤ w₁.journal.length)
    (h : (dryRun && s.needsInspection) = true ∨ (job.workspace.cleanup.run w₁).1 = .ok ()) :
    (Command.perform around order d w).exitCode = 0 ∧
      told.getLast? = some (.notice (.summary s dryRun)) ∧
      ∃ shown, (Command.perform around order d w).stderr =
        shown ++ Terminal.textOf (d.showSummary s dryRun) := by
  have hend : ∃ w', (migrate around order).run w = (.ok (), w') ∧ ∃ before : List Event,
      w'.journal = before ++ [.notice (.summary s dryRun)] ∧ w.journal.length ≤ before.length := by
    rw [hrun, run_conclude]
    by_cases hk : (dryRun && s.needsInspection) = true
    · rw [if_pos hk]
      refine ⟨_, rfl, w₁.journal ++ [.notice (.kept job.workspace.root)], ?_, ?_⟩
      · simp [World.notes]
      · rw [List.length_append]
        omega
    · rw [if_neg hk]
      have hc := h.resolve_left hk
      obtain ⟨removed, hr, -⟩ := preparing_cleanup job.workspace w₁
      rcases hw : job.workspace.cleanup.run w₁ with ⟨e | _, w'⟩ <;> rw [hw] at hc hr
      · cases hc
      · refine ⟨_, rfl, w'.journal, rfl, ?_⟩
        rw [hr, List.length_append]
        omega
  obtain ⟨w', he, before, hj, hlen⟩ := hend
  refine ⟨?_, ?_, ?_⟩
  · simp [Command.perform, he]
  · rw [he] at htold
    rw [hj] at htold
    obtain rfl | ⟨told, e, rfl⟩ := List.eq_nil_or_concat told
    · have hlen' := congrArg List.length htold
      simp only [List.length_append, List.length_singleton, List.length_nil] at hlen'
      omega
    · rw [List.concat_eq_append, ← List.append_assoc] at htold
      rw [List.concat_eq_append, List.getLast?_concat,
        List.singleton_inj.mp (List.append_inj_right' htold rfl)]
  · exact perform_shown (by rw [he]) (by rw [he]; exact hj)

theorem account_told {planned prepared worked concluded : List Event} {n : Nat}
    {names failures : List String} (rest : List String) (k total : Nat) {s : Summary} {dryRun : Bool}
    (hplanned : ∀ e ∈ planned, e.isPreparing = true)
    (hprepared : ∀ e ∈ prepared, e.isPreparing = true) (hworked : Tally names worked n failures)
    (hconcluded : ∀ e ∈ concluded, e.isPreparing = true ∨ (∃ root, e = .notice (.kept root)) ∨
      e = .notice (.summary s dryRun)) :
    let told := planned ++ (prepared ++ (worked ++ (interruption rest k total ++ concluded)))
    (∀ a b, .notice (.interrupted a b) ∈ told ↔ rest ≠ [] ∧ a = k ∧ b = total) ∧
      told.countP (Event.isSaved names) = n ∧ told.filterMap Event.failed? = failures := by
  intro told
  have hp := (tally_asides fun e he => Event.isAside_of_isPreparing (hplanned e he)).append
    ((tally_asides fun e he => Event.isAside_of_isPreparing (hprepared e he)).append hworked)
  have hquiet : ∀ e ∈ interruption rest k total ++ concluded,
      e.isSaved names = false ∧ e.failed? = none := by
    intro e he
    obtain he | he := List.mem_append.mp he
    · unfold interruption at he
      split at he
      · cases he
      · rw [List.mem_singleton.mp he]
        exact ⟨rfl, rfl⟩
    · obtain he | ⟨root, rfl⟩ | rfl := hconcluded e he
      · exact (Event.isAside_of_isPreparing he).2
      · exact ⟨rfl, rfl⟩
      · exact ⟨rfl, rfl⟩
  have htold : told = (planned ++ (prepared ++ worked)) ++
      (interruption rest k total ++ concluded) := by simp [told]
  refine ⟨fun a b => ?_, ?_, ?_⟩
  · constructor
    · intro hm
      rw [htold] at hm
      obtain hm | hm := List.mem_append.mp hm
      · exact absurd (hp.closing _ hm) nofun
      obtain hm | hm := List.mem_append.mp hm
      · unfold interruption at hm
        split at hm
        · cases hm
        · cases List.mem_singleton.mp hm
          exact ⟨‹_›, rfl, rfl⟩
      · obtain hm | ⟨root, hm⟩ | hm := hconcluded _ hm <;> cases hm
    · rintro ⟨hrest, rfl, rfl⟩
      rw [htold]
      simp [interruption, hrest]
  · rw [htold, List.countP_append, hp.saved,
      List.countP_eq_zero.mpr fun e he => by simp [(hquiet e he).1]]
    omega
  · rw [htold, List.filterMap_append, hp.failed,
      List.filterMap_eq_nil_iff.mpr fun e he => (hquiet e he).2]
    simp

theorem migrate_untouched {s : Summary} (hj : job.Fits around order r)
    (ht : around.tools.KeepTo (sandbox r)) (hr : ∀ s ∈ r, IsName s) (hs : w.tree.Solid r)
    (hfresh : Fresh w.tree r w₂.tree) (hf : ∀ file ∈ files, ∃ o, Spells file o)
    (hreaches : job.Reaches files w₂ done rest w₃)
    (hrun : (migrate around order).run w = (conclude job.workspace order.dryRun s).run
      (w₃.notes (interruption rest done.length files.length)))
    (hq : ¬ sandbox r <+: q) (hne : ((migrate around order).run w).2.tree.get? q ≠ w.tree.get? q) :
    ∃ before file result after w', done = before ++ (file, result) :: after ∧
      job.Processed w₂ before w' ∧ result.isPromoted = true ∧ LedTo (sandbox r) w'.tree file q := by
  have hconfined := (reaches_confined (s := s) hfresh hs hr hj ht hf hreaches).1
  rw [← hrun] at hconfined
  obtain hsame | ⟨-, save, ⟨⟨before, result, after, w', rfl, hbefore, hpromoted, hsave⟩, -⟩, hwrote⟩ :=
    hconfined.places q hq
  · exact absurd (hsame.trans (hfresh.outside q hq)) hne
  have hspells : ∀ x ∈ before ++ (save.file, result) :: after, ∃ o, Spells x.1 o :=
    fun x hx => hf x.1 (hreaches.mem hx)
  obtain ⟨he, -⟩ := hbefore.confined hj ht hr
    (fun x hx => hspells x (List.mem_append_left _ hx)) (hfresh.unlinked hs).encloses
  obtain ⟨o, ho⟩ := hspells (save.file, result) (by simp)
  exact ⟨before, save.file, result, after, w', rfl, hbefore, hpromoted, save.seen.tree,
    hsave.alike hj ht hr ho he, hwrote.place⟩

/-- A run that has made its workspace processes the first of its files, each once and in their order,
all of them unless it is interrupted, and tells and counts what becomes of them. An error ends no more
than its own file. The run succeeds if its workspace is kept or can be removed. -/
theorem migrate_accounts (d : Terminal.Display) (ht : w.tree.Sound) (ho : w.tree.Single)
    (hcwd : w.tree.Solid around.directory) (hplan : (plan around order).run w = (.ok p, w₁))
    (hne : p.files ≠ []) (hsetUp : (setUp around order p).run w₁ = (.ok job, w₂)) :
    ∃ done rest w₃ told, Account around order d w p job w₂ done rest w₃ told := by
  obtain ⟨place, r, b, hb⟩ := begun ht hcwd hplan hsetUp
  obtain ⟨-, rels, hrels, hnames⟩ := hb.exists_rels ht ho
  obtain ⟨done, rest, w₃, hreaches, hrun⟩ := migrate_reaches hplan hne hsetUp
  obtain ⟨planned, htold₁, hplanned⟩ := preparing_plan around order w
  obtain ⟨prepared, htold₂, hprepared⟩ := preparing_setUp around order p w₁
  obtain ⟨worked, htold₃, hworked⟩ := hb.reports ht ho hreaches
  obtain ⟨concluded, htold₄, hconcluded⟩ := conclude_tells job.workspace order.dryRun (counts done)
    (w₃.notes (interruption rest done.length p.files.length))
  rw [hplan] at htold₁
  rw [hsetUp] at htold₂
  rw [← hrun] at htold₄
  have htold : ((migrate around order).run w).2.journal = w.journal ++
      (planned ++ (prepared ++ (worked ++
        (interruption rest done.length p.files.length ++ concluded)))) := by
    rw [htold₄, World.notes, htold₃, htold₂, htold₁]
    simp only [List.append_assoc]
  obtain ⟨hinterrupted, hsaved, hfailures⟩ := account_told rest done.length
    p.files.length hplanned hprepared hworked hconcluded
  exact ⟨done, rest, w₃, _, {
    ordered := Sources.collect_sorted ht ho hb.fits.files
    reaches := hreaches
    interruptible := by rw [hb.job_eq]
    failing := fun before file result after hd => by
      obtain ⟨w', w'', hbefore, hran, -⟩ := (hd ▸ hreaches.processed).split
      exact ⟨w', hbefore, Job.isFailed_iff hran⟩
    journal := htold
    interrupted := hinterrupted
    saved := by rw [hsaved, counts, recordAll_eq]; exact (Nat.zero_add _).symm
    failures := hfailures
    failed := by rw [counts, recordAll_eq]; exact Nat.zero_add _
    total := total_counts done
    completed := run_completed hrun htold (by
      rw [World.notes, htold₃, htold₂, htold₁]
      simp only [List.length_append]
      omega)
    untouched := fun r' hr' htools q hq hchanged => by
      obtain rfl : r = r' := Except.ok.inj (hb.root.symm.trans hr')
      refine migrate_untouched hb.job_fits htools hb.named hb.solid (hb.fresh ht) (fun x hx => ?_)
        hreaches hrun hq hchanged
      obtain ⟨names, hn, rfl⟩ := List.mem_map.mp (hrels ▸ hx)
      exact ⟨_, spells_text (named_append hb.named (hnames names hn).2)⟩ }⟩

def linkedPair : Tree :=
  ⟨[(["A.java"], .link "Z.java"), (["Z.java"], .file "io.vertx.core.Promise".toUTF8 false)]⟩

def stoppedEarly : Surroundings :=
  { alone with interrupted := fun history => history.contains (.status .success "Saved A.java") }

def linkedPlan : Plan := ⟨"/", Strategy.webFlux, none, "/", ["/A.java", "/Z.java"]⟩

def linkedStart : World := ⟨linkedPair, [.log (rootRecord "/"), .notice .noKey]⟩

theorem linkedPair_sound : linkedPair.Sound := sound_of_listed (by decide)

theorem linkedPair_single : linkedPair.Single := by
  unfold Single linkedPair
  decide

theorem plan_linked :
    (plan stoppedEarly wholeOrder).run ⟨linkedPair, []⟩ = (.ok linkedPlan, linkedStart) :=
  @plan_top linkedPair stoppedEarly [["A.java"], ["Z.java"]] rfl (by decide +kernel)
    (by decide +kernel) (by decide +kernel) (by decide)

theorem migrate_linked : ∃ w', (migrate stoppedEarly wholeOrder).run ⟨linkedPair, []⟩ = (.ok (), w') ∧
    .notice (.interrupted 1 2) ∈ w'.journal ∧
    w'.tree.readText "/Z.java" = .ok "reactor.core.publisher.Mono" := by
  have hrun : (migrateFiles stoppedEarly wholeOrder linkedPlan).succeeds (fun _ w =>
      w.journal.contains (.notice (.interrupted 1 2)) &&
        decide (w.tree.readText "/Z.java" = .ok "reactor.core.publisher.Mono")) linkedStart =
          true := by
    decide +kernel
  obtain ⟨⟨⟩, w', hw', h⟩ := Step.exists_of_succeeds hrun
  obtain ⟨hstopped, htext⟩ := Bool.and_eq_true_iff.mp h
  refine ⟨w', ?_, List.contains_iff_mem.mp hstopped, of_decide_eq_true htext⟩
  unfold migrate
  rw [Step.run_bind, plan_linked]
  exact hw'

theorem migrate_accounts_stopped : ∃ job w₂ result w₃ told,
    Account stoppedEarly wholeOrder (Command.display alone.environment false "")
      ⟨linkedPair, []⟩ linkedPlan job w₂ [("/A.java", result)] ["/Z.java"] w₃ told := by
  have hsetUp : (setUp stoppedEarly wholeOrder linkedPlan).succeeds (fun _ _ => true)
      linkedStart = true := by decide +kernel
  obtain ⟨job, w₂, hsetUp, -⟩ := Step.exists_of_succeeds hsetUp
  obtain ⟨done, rest, w₃, told, h⟩ := migrate_accounts (Command.display alone.environment false "")
    linkedPair_sound linkedPair_single (solid_nil linkedPair) plan_linked (by decide) hsetUp
  obtain ⟨w', hrun, hstopped, -⟩ := migrate_linked
  have hjournal := h.journal
  rw [hrun, List.nil_append] at hjournal
  obtain ⟨hrest, hlen, -⟩ := (h.interrupted 1 2).mp (hjournal ▸ hstopped)
  obtain ⟨⟨file, result⟩, rfl⟩ := List.length_eq_one_iff.mp hlen.symm
  obtain ⟨hfile, hrest⟩ := List.cons.inj h.reaches.files
  have hfile : "/A.java" = file := hfile
  have hrest : ["/Z.java"] = rest := hrest
  exact ⟨job, w₂, result, w₃, told, by rw [hrest, hfile]; exact h⟩

/-- A file that a run has not got to changes if a file before it is a link to it. -/
theorem migrate_through_link : ∃ w', (plan stoppedEarly wholeOrder).run ⟨linkedPair, []⟩ =
      (.ok linkedPlan, linkedStart) ∧
    linkedPlan.files = ["/A.java", "/Z.java"] ∧
    (migrate stoppedEarly wholeOrder).run ⟨linkedPair, []⟩ = (.ok (), w') ∧
    .notice (.interrupted 1 2) ∈ w'.journal ∧
    w'.tree.readText "/Z.java" ≠ linkedPair.readText "/Z.java" := by
  obtain ⟨w', hrun, hstopped, htext⟩ := migrate_linked
  have hbefore : linkedPair.readText "/Z.java" = .ok "io.vertx.core.Promise" := by decide +kernel
  refine ⟨w', plan_linked, rfl, hrun, hstopped, ?_⟩
  rw [htext, hbefore]
  decide

end Run

end Refit
