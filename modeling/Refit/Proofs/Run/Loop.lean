import Refit.Proofs.ProjectRoot.Above
import Refit.Proofs.Promotion.Contract
import Refit.Proofs.Run.Course

namespace Refit.Run

variable {around : Surroundings} {order : Order} {job : Job} {p : Plan} {w w₁ w₂ w' : World}
  {done : List (String × FileResult)} {rest : List String}

theorem prepare_made {ws : Workspace} {a : Unit} (h : (prepare ws).run w = (.ok a, w')) :
    ∃ w₁, ws.create.run w = (.ok (), w₁) ∧ w'.tree = w₁.tree := by
  obtain ⟨made, w₁, hmade, hrest⟩ := Step.bind_eq_ok h
  have hmade : (Except.ok (ws.create.run w).1, (ws.create.run w).2) = (Except.ok made, w₁) := hmade
  rcases hc : ws.create.run w with ⟨e | _, w₂⟩ <;> rw [hc] at hmade <;> cases hmade
  · obtain ⟨_, w₃, -, hrest⟩ := Step.bind_eq_ok hrest
    obtain ⟨_, w₄, -, hrest⟩ := Step.bind_eq_ok hrest
    exact absurd (congrArg Prod.fst hrest) nofun
  · cases hrest
    exact ⟨w₂, rfl, rfl⟩

theorem setUp_eq_ok (h : (setUp around order p).run w = (.ok job, w')) :
    ∃ r b w₁, w.tree.canonical [] p.root = .ok r ∧ (∀ s ∈ r, Path.IsName s) ∧ w.tree.Solid r ∧
      job = ⟨Workspace.ofPlace r, team around p.strategy p.client b,
        ⟨order.dryRun, order.autoApprove⟩, nobody, around.interrupted⟩ ∧
      b = Build.Builder.forRoot w₁.tree (Workspace.ofPlace r).root (around.environment "PATH") ∧
      (Workspace.ofPlace r).create.run w = (.ok (), w₁) ∧ w'.tree = w₁.tree := by
  unfold setUp at h
  rw [Step.run_tree_bind] at h
  obtain ⟨ws, _, hws, hrest⟩ := Step.bind_eq_ok h
  obtain ⟨hws, rfl⟩ := Step.ofExcept_eq_ok hws
  obtain ⟨r, hc, hr, hs, rfl⟩ := Workspace.forProject_eq_ok hws
  obtain ⟨_, w₁, hprepare, hrest⟩ := Step.bind_eq_ok hrest
  obtain ⟨w₂, hcreate, hw₂⟩ := prepare_made hprepare
  rw [Step.announce, Step.run_note_bind, Step.run_tree_bind] at hrest
  dsimp only at hrest
  rw [Step.log, Step.run_note_bind] at hrest
  obtain ⟨rfl, rfl⟩ := Step.pure_eq_ok hrest
  exact ⟨r, _, w₂, hc, hr, hs, rfl, congrArg (Build.Builder.forRoot · _ _) hw₂, hcreate, hw₂⟩

/-- A run that has made its workspace: what it was given at `place` belongs to the project at `r`. -/
structure Begun (around : Surroundings) (order : Order) (w : World) (p : Plan) (job : Job)
    (w₂ : World) (place r : Place) (b : Build.Builder) : Prop where
  fits : p.Fits around order w.tree place
  placeNamed : ∀ s ∈ place, Path.IsName s
  placeSolid : w.tree.Solid place
  root : w.tree.canonical [] p.root = .ok r
  named : ∀ s ∈ r, Path.IsName s
  solid : w.tree.Solid r
  directory : w.tree.get? r = some .directory
  job_eq : job = ⟨Workspace.ofPlace r, team around p.strategy p.client b,
    ⟨order.dryRun, order.autoApprove⟩, nobody, around.interrupted⟩
  builder : b = Build.Builder.forRoot w₂.tree (Workspace.ofPlace r).root (around.environment "PATH")
  created : ∃ w' w'', w'.tree = w.tree ∧
    (Workspace.ofPlace r).create.run w' = (.ok (), w'') ∧ w₂.tree = w''.tree

theorem begun (ht : w.tree.Sound) (hcwd : w.tree.Solid around.directory)
    (hplan : (plan around order).run w = (.ok p, w₁))
    (hsetUp : (setUp around order p).run w₁ = (.ok job, w₂)) :
    ∃ place r b, Begun around order w p job w₂ place r b := by
  obtain ⟨⟨place, hfits⟩, hw₁⟩ := plan_leads.of_ok (rfl : Same w.tree w) hplan
  have hw₁ : w₁.tree = w.tree := hw₁
  obtain ⟨r, b, w', hroot, hr, hs, hjob, hb, hcreate, hw₂⟩ := setUp_eq_ok hsetUp
  rw [hw₁] at hroot hs
  have hcwdNamed := Tree.named_of_get? ht (hcwd _ (List.prefix_refl _)).1
  have hplace := Tree.canonical_passed w.tree.passed_names hcwdNamed hfits.canonical
  have hsolid := Tree.canonical_passed w.tree.passed_solid hcwd hfits.canonical
  exact ⟨place, r, b, hfits, hplace, hsolid, hroot, hr, hs,
    ProjectRoot.canonical_find_directory ht hplace hsolid (hfits.root ▸ hroot), hjob, hw₂ ▸ hb, w₁,
    w', hw₁, hcreate, hw₂⟩

namespace Begun

variable {place r : Place} {b : Build.Builder} (h : Begun around order w p job w₂ place r b)

include h

theorem job_fits : job.Fits around order r := by
  rw [h.job_eq]
  exact ⟨rfl, ⟨b, rfl⟩, rfl, rfl⟩

theorem fresh (ht : w.tree.Sound) : Workspace.Fresh w.tree r w₂.tree := by
  obtain ⟨w', w'', hw', hcreate, hw₂⟩ := h.created
  rw [hw₂]
  exact (Workspace.create_leads (Workspace.fresh_made w.tree h.named) ht h.solid h.named).of_ok
    hw' hcreate

/-- The files of a run are below the root of its project, each named once. -/
theorem exists_rels (ht : w.tree.Sound) (ho : w.tree.Single) :
    p.files.Nodup ∧ ∃ rels : List Place,
      p.files = rels.map (fun names => Place.text (r ++ names)) ∧
        ∀ names ∈ rels, names ≠ [] ∧ ∀ s ∈ names, Path.IsName s := by
  have hdirectory : w.tree.isDirectory r.text = true :=
    Tree.isDirectory_eq_true.mpr ⟨r, Tree.entryAt_eq_ok.mpr
      ((Tree.spot_text_directory ht h.named fun o ho => (h.solid o ho).2).mpr ⟨rfl, h.directory⟩)⟩
  obtain ⟨hnodup, hfound⟩ := Sources.collect_found ht ho h.placeNamed h.fits.files
  exact ⟨hnodup, Sources.exists_rels (ProjectRoot.canonical_find h.placeNamed h.placeSolid
    (h.fits.root ▸ h.root)) hdirectory hfound⟩

end Begun

theorem Job.run_repair (job : Job) (draft : Draft) (w : World) :
    (job.repair draft).run w =
      ((Repair.run job.team draft w).status.map fun status =>
          ((Repair.run job.team draft w).session, status),
        (Repair.run job.team draft w).session.world) := rfl

/-- The world in which the repair of a file has been told. -/
def Job.repaired (job : Job) (file : String) (draft : Draft) (status : Repair.Status) (w : World) :
    World :=
  ((Repair.run job.team draft w).session.world.log
    (traceRecord file (Repair.run job.team draft w).session)).announce
      (.fileDone (nameOf file) status)

theorem Job.run_migrate (job : Job) (file : String) (w : World) :
    (job.migrate file).run w =
      match job.workspace.mapPath file with
      | .error e => (.error e, w)
      | .ok path =>
        match Draft.load w.tree path with
        | .error e => (.error e, w)
        | .ok draft =>
          let result := Repair.run job.team draft w
          match result.status with
          | .error e => (.error e, result.session.world)
          | .ok status =>
            let w := job.repaired file draft status w
            if status = .notNeeded then (.ok (.done status .unchanged), w)
            else
              match (job.promote result.session.draft file).run w with
              | (.ok decision, w) => (.ok (.done status decision), w)
              | (.error e, w) => (.error e, w) := by
  unfold migrate
  rw [Step.run_ofExcept_bind]
  cases job.workspace.mapPath file with
  | error e => rfl
  | ok path =>
    dsimp only
    rw [Step.run_tree_bind, Step.run_ofExcept_bind]
    cases Draft.load w.tree path with
    | error e => rfl
    | ok draft =>
      dsimp only
      rw [Step.run_bind, job.run_repair]
      cases (Repair.run job.team draft w).status with
      | error e => rfl
      | ok status =>
        dsimp only [Except.map]
        rw [Step.log, Step.run_note_bind, Step.announce, Step.run_note_bind]
        by_cases hn : status = .notNeeded
        · rw [if_pos hn, if_pos hn]
          rfl
        · rw [if_neg hn, if_neg hn, Step.run_bind]
          simp only [repaired, World.log, World.announce]
          rcases (job.promote _ file).run _ with ⟨_ | _, _⟩ <;> rfl

theorem Job.run_promote (job : Job) (draft : Draft) (file : String) (w : World) :
    (job.promote draft file).run w =
      match (Promotion.promote job.gate job.answerer draft file).run w with
      | (.ok decision, w) =>
        (.ok decision, if decision = .dryRun then w.announce (.notSaved (nameOf file)) else w)
      | (.error e, w) => (.error e, w) := by
  unfold promote
  rw [Step.run_bind]
  rcases (Promotion.promote job.gate job.answerer draft file).run w with ⟨_ | decision, w'⟩
  · rfl
  · cases decision <;> rfl

theorem Job.migrate_done {file : String} {result : FileResult}
    (h : (job.migrate file).run w = (.ok result, w₁)) :
    ∃ path draft status, job.workspace.mapPath file = .ok path ∧
      Draft.load w.tree path = .ok draft ∧ (Repair.run job.team draft w).status = .ok status ∧
      (status = .notNeeded ∧ result = .done status .unchanged ∨ status ≠ .notNeeded ∧
        ∃ decision, ((job.promote (Repair.run job.team draft w).session.draft file).run
          (job.repaired file draft status w)).1 = .ok decision ∧ result = .done status decision) := by
  rw [job.run_migrate] at h
  cases hm : job.workspace.mapPath file with
  | error e =>
    rw [hm] at h
    cases h
  | ok path =>
    rw [hm] at h
    dsimp only at h
    cases hl : Draft.load w.tree path with
    | error e =>
      rw [hl] at h
      cases h
    | ok draft =>
      rw [hl] at h
      dsimp only at h
      cases hs : (Repair.run job.team draft w).status with
      | error e =>
        rw [hs] at h
        cases h
      | ok status =>
        rw [hs] at h
        dsimp only at h
        refine ⟨path, draft, status, rfl, hl, hs, ?_⟩
        by_cases hn : status = .notNeeded
        · rw [if_pos hn] at h
          cases h
          exact .inl ⟨hn, rfl⟩
        · rw [if_neg hn] at h
          rcases hp : (job.promote (Repair.run job.team draft w).session.draft file).run
            (job.repaired file draft status w) with ⟨_ | decision, w'⟩ <;> rw [hp] at h <;> cases h
          exact .inr ⟨hn, decision, rfl, rfl⟩

namespace FileResult

/-- The file was saved. -/
def isPromoted : FileResult → Bool
  | .done _ .promoted => true
  | _ => false

/-- The file was shown and not saved. -/
def isSkipped : FileResult → Bool
  | .done _ .declined | .done _ .dryRun => true
  | _ => false

def isUnchanged : FileResult → Bool
  | .done _ .unchanged => true
  | _ => false

def isFailed : FileResult → Bool
  | .failed => true
  | _ => false

def isVerified : FileResult → Bool
  | .done (.verified _) .promoted => true
  | _ => false

theorem isVerified_iff {result : FileResult} :
    result.isVerified = true ↔ ∃ n, result = .done (.verified n) .promoted := by
  constructor
  · intro h
    unfold isVerified at h
    split at h
    · exact ⟨_, rfl⟩
    · cases h
  · rintro ⟨n, rfl⟩
    rfl

/-- No build of the file was seen to pass. -/
def isUnverified : FileResult → Bool
  | .done status _ => status.isUnverified
  | .failed => false

end FileResult

theorem Summary.record_eq (s : Summary) (r : FileResult) :
    s.record r =
      ⟨s.promoted + r.isPromoted.toNat, s.skipped + r.isSkipped.toNat,
        s.unchanged + r.isUnchanged.toNat, s.failed + r.isFailed.toNat,
        s.unverified + r.isUnverified.toNat⟩ := by
  cases r with
  | failed => rfl
  | done status decision =>
    cases h : status.isUnverified <;> cases decision <;>
      simp [record, countDecision, FileResult.isPromoted, FileResult.isSkipped,
        FileResult.isUnchanged, FileResult.isFailed, FileResult.isUnverified, h]

/-- A summary counts results of each kind. -/
theorem recordAll_eq (s : Summary) (done : List (String × FileResult)) :
    s.recordAll done =
      ⟨s.promoted + done.countP fun x => x.2.isPromoted,
        s.skipped + done.countP fun x => x.2.isSkipped,
        s.unchanged + done.countP fun x => x.2.isUnchanged,
        s.failed + done.countP fun x => x.2.isFailed,
        s.unverified + done.countP fun x => x.2.isUnverified⟩ := by
  induction done generalizing s with
  | nil => rfl
  | cons x done ih =>
    have hcons : s.recordAll (x :: done) = (s.record x.2).recordAll done := rfl
    rw [hcons, ih, Summary.record_eq]
    simp only [List.countP_cons, Nat.add_assoc, Nat.add_comm, Summary.mk.injEq]
    refine ⟨?_, ?_, ?_, ?_, ?_⟩ <;> split <;> simp_all

theorem total_recordAll (s : Summary) (done : List (String × FileResult)) :
    (s.recordAll done).total = s.total + done.length := by
  induction done generalizing s with
  | nil => rfl
  | cons x done ih =>
    have hcons : s.recordAll (x :: done) = (s.record x.2).recordAll done := rfl
    rw [hcons, ih, Summary.total_record, List.length_cons]
    omega

theorem run_conclude (ws : Workspace) (dryRun : Bool) (s : Summary) (w : World) :
    (conclude ws dryRun s).run w =
      if dryRun && s.needsInspection then
        (.ok (), w.notes [.notice (.kept ws.root), .notice (.summary s dryRun)])
      else
        match ws.cleanup.run w with
        | (.ok (), w) => (.ok (), w.announce (.summary s dryRun))
        | (.error e, w) => (.error (.cleanup e), w) := by
  unfold conclude
  by_cases hk : (dryRun && s.needsInspection) = true
  · rw [if_pos hk, if_pos hk]
    change (_, World.mk w.tree ((w.journal ++ [_]) ++ [_])) = _
    rw [List.append_assoc]
    rfl
  · rw [if_neg hk, if_neg hk, Step.run_bind, Step.run_mapError]
    rcases ws.cleanup.run w with ⟨e | _, w'⟩ <;> rfl

/-- The files of a run, as far as it gets. -/
structure Job.Reaches (job : Job) (files : List String) (w : World)
    (done : List (String × FileResult)) (rest : List String) (w' : World) : Prop where
  files : files = done.map Prod.fst ++ rest
  processed : job.Processed w done w'
  stopped : rest ≠ [] → job.interrupted w'.journal = true

theorem Job.Reaches.mem {files : List String} {x : String × FileResult}
    (h : job.Reaches files w done rest w') (hx : x ∈ done) : x.1 ∈ files := by
  rw [h.files]
  exact List.mem_append_left _ (List.mem_map_of_mem hx)

/-- The counts of a run that starts with none. -/
def counts (done : List (String × FileResult)) : Summary := ({} : Summary).recordAll done

theorem total_counts (done : List (String × FileResult)) : (counts done).total = done.length := by
  rw [counts, total_recordAll]
  exact Nat.zero_add _

theorem needsInspection_counts (done : List (String × FileResult)) :
    (counts done).needsInspection = done.any fun x => x.2.isFailed || x.2.isUnverified := by
  rw [Bool.eq_iff_iff, counts, recordAll_eq]
  simp only [Summary.needsInspection, Nat.zero_add, Bool.or_eq_true, decide_eq_true_eq,
    List.countP_pos_iff, List.any_eq_true]
  constructor
  · rintro (⟨x, hx, h⟩ | ⟨x, hx, h⟩)
    · exact ⟨x, hx, .inl h⟩
    · exact ⟨x, hx, .inr h⟩
  · rintro ⟨x, hx, h | h⟩
    · exact .inl ⟨x, hx, h⟩
    · exact .inr ⟨x, hx, h⟩

theorem run_migrate (hplan : (plan around order).run w = (.ok p, w₁)) (hne : p.files ≠ []) :
    (migrate around order).run w = (migrateFiles around order p).run w₁ := by
  unfold migrate
  rw [Step.run_bind, hplan]
  dsimp only
  split
  · exact absurd ‹_› hne
  · rfl

theorem run_migrate_idle (hplan : (plan around order).run w = (.ok p, w₁)) (hnil : p.files = []) :
    (migrate around order).run w = (.ok (), w₁.note (.notice (.noSources p.path))) := by
  unfold migrate
  rw [Step.run_bind, hplan]
  dsimp only
  rw [hnil]
  rfl

/-- A run that has made its workspace processes some files and concludes. -/
theorem migrate_reaches (hplan : (plan around order).run w = (.ok p, w₁)) (hne : p.files ≠ [])
    (hsetUp : (setUp around order p).run w₁ = (.ok job, w₂)) :
    ∃ done rest w', job.Reaches p.files w₂ done rest w' ∧
      (migrate around order).run w =
        (conclude job.workspace order.dryRun (counts done)).run
          (w'.notes (interruption rest done.length p.files.length)) := by
  obtain ⟨done, rest, w', hfiles, hdone, hstop, hall⟩ :=
    migrateAll_processed job p.files.length {} p.files w₂
  refine ⟨done, rest, w', ⟨hfiles, hdone, hstop⟩, ?_⟩
  rw [run_migrate hplan hne]
  unfold migrateFiles
  rw [Step.run_bind, hsetUp]
  dsimp only
  rw [Step.run_bind, hall]
  change (conclude job.workspace order.dryRun (counts done)).run
    (w'.notes (interruption rest (counts done).total p.files.length)) = _
  rw [total_counts]

theorem migrate_cases (around : Surroundings) (order : Order) (w : World) :
    ((migrate around order).run w).2.tree = w.tree ∨
    (∃ p w₁ e w₂, (plan around order).run w = (.ok p, w₁) ∧ p.files ≠ [] ∧
      (setUp around order p).run w₁ = (.error e, w₂) ∧
      (migrate around order).run w = (.error e, w₂)) ∨
    ∃ p w₁ job w₂, (plan around order).run w = (.ok p, w₁) ∧ p.files ≠ [] ∧
      (setUp around order p).run w₁ = (.ok job, w₂) := by
  have hplanned := (@plan_leads w.tree around order).ending w rfl
  rcases hplan : (plan around order).run w with ⟨e | p, w₁⟩ <;> rw [hplan] at hplanned
  · rw [migrate, Step.run_bind, hplan]
    exact .inl hplanned.2
  by_cases hne : p.files = []
  · rw [run_migrate_idle hplan hne]
    exact .inl hplanned.2
  rw [run_migrate hplan hne, migrateFiles, Step.run_bind]
  rcases hsetUp : (setUp around order p).run w₁ with ⟨e | job, w₂⟩
  · exact .inr (.inl ⟨p, w₁, e, w₂, rfl, hne, hsetUp, rfl⟩)
  · exact .inr (.inr ⟨p, w₁, job, w₂, rfl, hne, hsetUp⟩)

/-- There is a key, the service answers every request, and every build passes. -/
def attended : Surroundings :=
  { alone with
    environment := fun name => match name with
      | "ANTHROPIC_API_KEY" => some "k"
      | "PATH" => some "/bin"
      | _ => none
    service := fun _ _ => .response 200
      "\x7b\"content\":[\x7b\"type\":\"text\",\"text\":\"void init()\x7b\x7d\"\x7d]\x7d" }

theorem sandboxOf_trio :
    sandboxOf attended wholeOrder trioTree = some [".modernizer_sandbox"] := by
  decide +kernel

theorem plan_trio : (plan attended wholeOrder).run ⟨trioTree, []⟩ =
    (planFor attended ["/A.java", "/B.java", "/C.java"]).run ⟨trioTree, []⟩ :=
  @plan_found trioTree attended wholeOrder [["A.java"], ["B.java"], ["C.java"]] rfl rfl rfl
    (by decide +kernel) (by decide +kernel) (by decide)

/-- The first of the files is saved as it was built, and the others are left as they are. -/
theorem trio_course : ∃ p w₁ job w₂ a b c w₃ w₄ w₅ w',
    (plan attended wholeOrder).run ⟨trioTree, []⟩ = (.ok p, w₁) ∧
    p.files = ["/A.java", "/B.java", "/C.java"] ∧
    (setUp attended wholeOrder p).run w₁ = (.ok job, w₂) ∧
    (job.process "/A.java" (ε := RunError)).run w₂ = (.ok a, w₃) ∧
    (job.process "/B.java" (ε := RunError)).run w₃ = (.ok b, w₄) ∧
    (job.process "/C.java" (ε := RunError)).run w₄ = (.ok c, w₅) ∧
    (migrate attended wholeOrder).run ⟨trioTree, []⟩ = (.ok (), w') ∧
    a.isVerified = true ∧ b.isUnchanged = true ∧ c.isFailed = true ∧
    w'.tree.get? ["A.java"] =
      some (.file "reactor.core.publisher.Mono void init(){}".toUTF8 false) := by
  have hrun : (do
      let p ← planFor attended ["/A.java", "/B.java", "/C.java"]
      let job ← setUp attended wholeOrder p
      let a ← job.process "/A.java"
      let b ← job.process "/B.java"
      let c ← job.process "/C.java"
      conclude job.workspace false (((({} : Summary).record a).record b).record c)
      return (a, b, c) : Step RunError (FileResult × FileResult × FileResult)).succeeds
        (fun x w => x.1.isVerified && x.2.1.isUnchanged && x.2.2.isFailed &&
          decide (w.tree.get? ["A.java"] =
            some (.file "reactor.core.publisher.Mono void init(){}".toUTF8 false)))
        ⟨trioTree, []⟩ = true := by
    decide +kernel
  obtain ⟨⟨a, b, c⟩, w', hrun, hchecks⟩ := Step.exists_of_succeeds hrun
  obtain ⟨hchecks, hsaved⟩ := Bool.and_eq_true_iff.mp hchecks
  obtain ⟨hchecks, hc⟩ := Bool.and_eq_true_iff.mp hchecks
  obtain ⟨ha, hb⟩ := Bool.and_eq_true_iff.mp hchecks
  obtain ⟨p, w₁, hplan, hrun⟩ := Step.bind_eq_ok hrun
  obtain ⟨job, w₂, hsetUp, hrun⟩ := Step.bind_eq_ok hrun
  obtain ⟨a', w₃, hfirst, hrun⟩ := Step.bind_eq_ok hrun
  obtain ⟨b', w₄, hsecond, hrun⟩ := Step.bind_eq_ok hrun
  obtain ⟨c', w₅, hthird, hrun⟩ := Step.bind_eq_ok hrun
  obtain ⟨⟨⟩, w₆, hend, hrun⟩ := Step.bind_eq_ok hrun
  obtain ⟨hresults, rfl⟩ := Step.pure_eq_ok hrun
  cases hresults
  have hfiles := planFor_files hplan
  rw [← plan_trio] at hplan
  have hgoing : ∀ history, job.interrupted history = false := by
    obtain ⟨_, _, _, -, -, -, rfl, -⟩ := setUp_eq_ok hsetUp
    exact fun _ => rfl
  refine ⟨p, w₁, job, w₂, a, b, c, w₃, w₄, w₅, w', hplan, hfiles, hsetUp, hfirst, hsecond, hthird,
    ?_, ha, hb, hc, of_decide_eq_true hsaved⟩
  have hall : (migrateAll job p.files.length {} p.files).run w₂ =
      (.ok (((({} : Summary).record a).record b).record c), w₅) := by
    rw [hfiles, run_migrateAll_cons (hgoing _) hfirst, run_migrateAll_cons (hgoing _) hsecond,
      run_migrateAll_cons (hgoing _) hthird]
    rfl
  rw [run_migrate hplan (by rw [hfiles]; exact List.cons_ne_nil _ _), migrateFiles, Step.run_bind,
    hsetUp]
  dsimp only
  rw [Step.run_bind, hall]
  exact hend

end Refit.Run
