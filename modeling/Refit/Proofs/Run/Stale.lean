import Refit.Proofs.Run.Account
import Refit.Proofs.Run.Lifecycle
import Refit.Proofs.Run.Secluded
import Refit.Proofs.Run.Unlogged

/-!
A sandbox that an earlier run has left. In a secluded project it has no influence on a run: the plan
looks at nothing in it (`alike_plan`), the workspace is made where it has been removed
(`alike_migrateFiles`), and the two runs cannot be told apart (`program_stale`). A repository whose
directory is looked for in the sandbox has an influence (`program_betrayed`).
-/

namespace Refit.Run

open Refit.Path Refit.Tree Workspace

variable {around : Surroundings} {order : Order} {p : Plan} {t u : Tree} {r place : Place}
  {w w' : World}

/-- Two trees with the same project, in which another sandbox is left, or none. -/
structure Stale (r : Place) (t u : Tree) : Prop where
  rest : t.prune (sandbox r) = u.prune (sandbox r)
  before : t.get? (sandbox r) = none ∨ t.get? (sandbox r) = some .directory
  after : u.get? (sandbox r) = none ∨ u.get? (sandbox r) = some .directory

theorem Stale.alikeOutside (h : Stale r t u) : AlikeOutside (sandbox r) t u := by
  intro q hq
  by_cases hne : q = []
  · rw [hne]
    rfl
  · have hrest := congrArg (fun v : Tree => v.get? q) h.rest
    rw [get?_prune _ _ _ hne, get?_prune _ _ _ hne, if_neg hq, if_neg hq] at hrest
    exact hrest.symm

theorem Stale.listed (h : Stale r t u) (hto : t.Single) (huo : u.Single) :
    ∀ v ∈ [t, u], ∀ x ∈ v.entries, x.1 = sandbox r → x.2 = .directory := by
  have hlisted : ∀ v : Tree, v.Single →
      (v.get? (sandbox r) = none ∨ v.get? (sandbox r) = some .directory) →
      ∀ x ∈ v.entries, x.1 = sandbox r → x.2 = .directory := by
    rintro v hv hg ⟨q, entry⟩ hx rfl
    have he : v.get? (sandbox r) = some entry := by
      rw [get?, if_neg (sandbox_ne_nil r)]
      exact entryIn_of_mem hv hx
    rw [he] at hg
    obtain hg | hg := hg
    · cases hg
    · exact Option.some.inj hg
  intro v hv
  obtain rfl | hv := List.mem_cons.mp hv
  · exact hlisted v hto h.before
  · rw [List.mem_singleton.mp hv]
    exact hlisted u huo h.after

def Aligned (t u : Tree) (w w' : World) : Prop :=
  w.tree = t ∧ w'.tree = u ∧ w.journal = w'.journal

theorem alike_noted (e : Event) :
    Step.Alike (Aligned t u) (Aligned t u) (Step.note e : Step RunError Unit) :=
  fun _ _ h => ⟨rfl, h.1, h.2.1, congrArg (· ++ [e]) h.2.2⟩

theorem alike_looked {α : Type} {f : Tree → Step RunError α} (hf : f t = f u)
    (ha : Step.Alike (Aligned t u) (Aligned t u) (f u)) :
    Step.Alike (Aligned t u) (Aligned t u) (Step.tree >>= f) := by
  refine Step.alike_read (fun _ => rfl) (fun w w' h => ?_) fun w w' h => ?_
  · rw [h.1, h.2.1]
    exact hf
  · rw [h.2.1]
    exact ha

theorem alike_client? (s : Settings) : Step.Alike (Aligned t u) (Aligned t u) (client? s) := by
  unfold client?
  split
  · exact (Step.alike_ofExcept _).bind fun _ => (alike_noted _).bind fun _ => Step.alike_pure _
  · exact (alike_noted _).bind fun _ => Step.alike_pure _

theorem alike_plan
    (hplace : t.canonical around.directory order.path = u.canonical around.directory order.path)
    (hread : ∀ place, u.canonical around.directory order.path = .ok place →
      ProjectRoot.find t place.text = ProjectRoot.find u place.text ∧
      Settings.load t (ProjectRoot.find u place.text) around.environment =
        Settings.load u (ProjectRoot.find u place.text) around.environment ∧
      Sources.collect t place.text = Sources.collect u place.text) :
    Step.Alike (Aligned t u) (Aligned t u) (plan around order) := by
  unfold plan
  refine alike_looked (by rw [hplace]) ?_
  refine (Step.alike_ofExcept _).bind_of (fun w a w' h => (Step.ofExcept_eq_ok h).1) fun place hp => ?_
  obtain ⟨hfind, hload, hcollect⟩ := hread place hp
  dsimp only
  split
  · refine (Step.alike_pure _).bind fun strategy => ?_
    refine alike_looked (by rw [hfind]) ((alike_noted _).bind fun _ => ?_)
    refine alike_looked (by rw [hload]) ((Step.alike_ofExcept _).bind fun settings => ?_)
    refine (alike_client? settings).bind fun client => ?_
    exact alike_looked (by rw [hcollect]) ((Step.alike_ofExcept _).bind fun files =>
      Step.alike_pure _)
  · exact fun _ _ h => ⟨rfl, h⟩

theorem cleanup_unlogged (ws : Workspace) (w : World) :
    unlogged (ws.cleanup.run w).2.journal = unlogged w.journal := by
  rw [run_cleanup]
  split
  · change unlogged (w.journal ++ [_]) = unlogged w.journal
    rw [unlogged_append]
    exact List.append_nil _
  · rfl
  · rfl

theorem cleanup_pruned (ht : w.tree.Sound) (hr : ∀ s ∈ r, IsName s)
    (hd : w.tree.get? r = some .directory)
    (hs : w.tree.get? (sandbox r) = none ∨ w.tree.get? (sandbox r) = some .directory) :
    ∃ w', (ofPlace r).cleanup.run w = (.ok (), w') ∧ w'.tree = w.tree.prune (sandbox r) := by
  obtain hs | hs := hs
  · have hfree : w.tree.removeAll (ofPlace r).root = .error .notFound := by
      refine removeAll_free (sandbox_ne_nil r) (named_sandbox hr) (fun p hp hn => ?_) hs
      have hpr := prefix_sandbox hp hn
      by_cases he : p = r
      · rw [he]
        exact hd
      · exact ht.above (by rw [hd]; exact nofun) hpr he
    rw [run_cleanup, hfree]
    exact ⟨w, rfl, (prune_free fun p hp =>
      removeAll_notFound ht (sandbox_ne_nil r) (named_sandbox hr) hfree hp).symm⟩
  · exact cleanup_directory ht hr hs

structure Site (r : Place) (t : Tree) (root : String) : Prop where
  sound : t.Sound
  directory : t.get? r = some .directory
  workspace : forProject t root = .ok (ofPlace r)

theorem alike_cleared {root : String} (hs : Stale r t u) (hr : ∀ s ∈ r, IsName s)
    (ht : Site r t root) (hu : Site r u root) :
    Step.Alike (Aligned t u) SameButLogs (ofPlace r).cleanup := by
  rintro w w' ⟨rfl, rfl, hj⟩
  obtain ⟨v, hv, hvt⟩ := cleanup_pruned ht.sound hr ht.directory hs.before
  obtain ⟨v', hv', hvt'⟩ := cleanup_pruned hu.sound hr hu.directory hs.after
  have hjv := cleanup_unlogged (ofPlace r) w
  have hjv' := cleanup_unlogged (ofPlace r) w'
  rw [hv] at hjv ⊢
  rw [hv'] at hjv' ⊢
  refine ⟨rfl, ?_, ?_⟩
  · rw [hvt, hvt', hs.rest]
  · rw [hjv, hjv', hj]

theorem alike_prepare {root : String} (hs : Stale r t u) (hr : ∀ s ∈ r, IsName s)
    (ht : Site r t root) (hu : Site r u root) :
    Step.Alike (Aligned t u) SameButLogs (prepare (ofPlace r)) := by
  have hR := parallel_sameButLogs
  have hcreate : Step.Alike (Aligned t u) SameButLogs (ofPlace r).create := by
    rw [create_eq]
    exact (alike_cleared hs hr ht hu).bind fun _ => alike_fill hR _
  unfold prepare
  refine hcreate.attempt.bind fun made => ?_
  split
  · exact Step.alike_note hR _
  · exact (Step.alike_note hR _).bind fun _ => (alike_cleanup hR _).attempt.bind fun _ =>
      Step.alike_fail _

theorem alike_setUp (hs : Stale r t u) (hr : ∀ s ∈ r, IsName s) (ht : Site r t p.root)
    (hu : Site r u p.root) :
    Step.Alike (Aligned t u) SameButLogs (setUp around order p) := by
  have hR := parallel_sameButLogs
  unfold setUp
  refine Step.alike_read (fun _ => rfl) (fun w w' h => ?_) fun w w' h => ?_
  · rw [h.1, h.2.1, ht.workspace, hu.workspace]
  · rw [h.2.1, hu.workspace]
    exact (alike_prepare hs hr ht hu).bind fun _ => (Step.alike_note hR _).bind fun _ =>
      (Step.alike_tree hR).bind fun _ => (Step.alike_note hR _).bind fun _ => Step.alike_pure _

theorem isDeaf_team (hd : around.IsDeaf) (strategy : Strategy) (client : Option Chat.Client)
    (b : Build.Builder) : (team around strategy client b).IsDeaf where
  oracle oracle ho := by
    obtain ⟨c, -, rfl⟩ := Option.map_eq_some_iff.mp ho
    exact Chat.Client.propose_deaf c hd.service
  checker := b.deaf_check hd.tools

/-- A run takes the same course, once it has a plan. -/
theorem alike_migrateFiles (hd : around.IsDeaf) (hs : Stale r t u) (hr : ∀ s ∈ r, IsName s)
    (ht : Site r t p.root) (hu : Site r u p.root) :
    Step.Alike (Aligned t u) SameButLogs (migrateFiles around order p) := by
  unfold migrateFiles
  refine (alike_setUp hs hr ht hu).bind_of (P := Job.IsDeaf) (fun w job w' h => ?_) fun job hj => ?_
  · obtain ⟨r, b, w₁, -, -, -, rfl, -⟩ := setUp_eq_ok h
    exact ⟨isDeaf_team hd _ _ _, deaf_const _, hd.interrupted⟩
  · exact (alike_migrateAll hj _ _ _).bind fun summary => alike_conclude _ _ summary

/-- How a run begins in a project whose sandbox is out of its sight. -/
structure Setting (around : Surroundings) (order : Order) (r : Place) (t : Tree) : Prop where
  sound : t.Sound
  single : t.Single
  directory : t.Solid around.directory
  outside : ¬ sandbox r <+: around.directory
  path : Shuns t r around.directory order.path
  root : ∀ place, t.canonical around.directory order.path = .ok place →
    t.canonical [] (ProjectRoot.find t place.text) = .ok r
  secluded : Secluded t r

/-- What is known of the place that a run is given. -/
structure Given (t u : Tree) (r place : Place) : Prop where
  unseen : Unseen t u r
  near : Near r place
  below : r <+: place
  root : ProjectRoot.find t place.text = r.text
  rootDirectory : t.get? r = some .directory

theorem Setting.given (h : Setting around order r t) (hs : AlikeOutside (sandbox r) t u)
    (hp : t.canonical around.directory order.path = .ok place) : Given t u r place := by
  have hnamed := canonical_passed t.passed_names
    (named_of_get? h.sound (h.directory _ (List.prefix_refl _)).1) hp
  have hsolid := canonical_passed t.passed_solid h.directory hp
  have hc := h.root place hp
  have hbelow := ProjectRoot.canonical_find hnamed hsolid hc
  obtain ⟨base, hb, hfind, hd⟩ := ProjectRoot.find_directory h.sound hnamed hsolid
  have hbase : r = base := by
    rw [hfind] at hc
    exact ProjectRoot.canonical_text (fun s hm => hnamed s (hb.subset hm))
      (fun o ho => (hsolid o (ho.trans hb)).2) hc
  subst hbase
  exact {
    unseen := ⟨hs, fun s hm => hnamed s (hbelow.subset hm), hsolid.of_prefix hbelow, h.secluded⟩
    near := ⟨hnamed, .inr hbelow, canonical_outside h.path h.outside hp⟩
    below := hbelow
    root := hfind
    rootDirectory := hd }

theorem Given.ready (h : Given t u r place) (ht : t.Sound) (hu : u.Sound) :
    Site r t r.text ∧ Site r u r.text := by
  have hnear : Near r r :=
    ⟨h.unseen.named, .inl (List.prefix_refl r), sandbox_not_above (List.prefix_refl r)⟩
  have hspot : t.spotFrom false [] r.text = .ok (.found r .directory) :=
    (spot_text_directory ht h.unseen.named fun o ho => (h.unseen.solid o ho).2).mpr
      ⟨rfl, h.rootDirectory⟩
  have hct : t.canonical [] r.text = .ok r := canonical_eq_ok.mpr ⟨_, hspot⟩
  have hcu : u.canonical [] r.text = .ok r := by
    rw [canonical_shuns h.unseen.alike (h.unseen.plain hnear).shuns, hct]
  have hworkspace : ∀ v : Tree, v.canonical [] r.text = .ok r →
      forProject v r.text = .ok (ofPlace r) := by
    intro v hv
    unfold forProject
    rw [hv]
    dsimp only
    rw [joinPath_name h.unseen.named isName_directoryName]
    rfl
  exact ⟨⟨ht, h.rootDirectory, hworkspace t hct⟩,
    ⟨hu, (h.unseen.alike r hnear.outside).trans h.rootDirectory, hworkspace u hcu⟩⟩

theorem Setting.plan_stale (h : Setting around order r t) (hs : Stale r t u) (huo : u.Single) :
    Step.Alike (Aligned t u) (Aligned t u) (plan around order) := by
  have halike := hs.alikeOutside
  have hplace := canonical_shuns halike h.path
  refine alike_plan hplace.symm fun place hp => ?_
  rw [hplace] at hp
  have hg := h.given halike hp
  have hfind := ProjectRoot.find_unseen hg.unseen hg.near hg.below
  rw [hfind, hg.root]
  exact ⟨rfl, (Settings.load_unseen hg.unseen _).symm,
    (Sources.collect_unseen hg.unseen hg.near hg.below h.sound.named hs.rest
      (hs.listed h.single huo)).symm⟩

structure Common (r : Place) (files : List String) (w w' : World) : Prop where
  journal : unlogged w.journal = unlogged w'.journal
  outside : AlikeOutside (sandbox r) w.tree w'.tree
  tree : files ≠ [] → w.tree = w'.tree

theorem Setting.migrate_stale (h : Setting around order r t) (hd : around.IsDeaf)
    (hs : Stale r t u) (hu : u.Sound) (huo : u.Single) :
    ((plan around order).run ⟨t, []⟩).1 = ((plan around order).run ⟨u, []⟩).1 ∧
    ((migrate around order).run ⟨t, []⟩).1 = ((migrate around order).run ⟨u, []⟩).1 ∧
    Common r ((((plan around order).run ⟨t, []⟩).1.map Plan.files).toOption.getD [])
      ((migrate around order).run ⟨t, []⟩).2 ((migrate around order).run ⟨u, []⟩).2 := by
  have halike := hs.alikeOutside
  obtain ⟨hplan, hworlds⟩ := h.plan_stale hs huo ⟨t, []⟩ ⟨u, []⟩ ⟨rfl, rfl, rfl⟩
  refine ⟨hplan, ?_⟩
  unfold migrate
  rw [Step.run_bind, Step.run_bind]
  rcases hr : (plan around order).run ⟨t, []⟩ with ⟨result, w⟩
  rcases hr' : (plan around order).run ⟨u, []⟩ with ⟨result', w'⟩
  rw [hr, hr'] at hplan hworlds
  dsimp only at hplan hworlds
  obtain ⟨rfl, rfl, hj⟩ := hworlds
  subst hplan
  cases result with
  | error e => exact ⟨rfl, congrArg unlogged hj, halike, fun hne => absurd rfl hne⟩
  | ok p =>
    dsimp only
    split
    · rename_i hfiles
      refine ⟨rfl, congrArg (fun j => unlogged (j ++ _)) hj, halike, fun hne => absurd hfiles hne⟩
    · obtain ⟨⟨place, hfits⟩, -⟩ := plan_leads.of_ok (rfl : Same w.tree ⟨w.tree, []⟩) hr
      have hg := h.given halike hfits.canonical
      obtain ⟨hready, hready'⟩ := hg.ready h.sound hu
      rw [← hg.root, ← hfits.root] at hready hready'
      obtain ⟨hresult, hsame⟩ := alike_migrateFiles hd hs hg.unseen.named hready hready' w w'
        ⟨rfl, rfl, hj⟩
      exact ⟨hresult, hsame.journal, fun _ _ => congrArg (Tree.get? · _) hsame.tree.symm,
        fun _ => hsame.tree⟩

/-- Two runs of the program, from the trees `t` and `u`, that cannot be told apart. -/
structure Indistinct (around : Surroundings) (arguments : List String) (r : Place) (t u : Tree)
    (e e' : Command.Ending) : Prop where
  exitCode : e.exitCode = e'.exitCode
  stdout : e.stdout = e'.stdout
  /-- Where no log records are asked for, the terminals show the same. -/
  stderr : (∀ order, Command.readArguments arguments ≠ .migrate order true) →
    around.environment "RUST_LOG" = none → e.stderr = e'.stderr
  /-- The same is shown, sent and started, in the same order. -/
  journal : unlogged e.world.journal = unlogged e'.world.journal
  outside : AlikeOutside (sandbox r) e.world.tree e'.world.tree
  /-- The same files are found, and where there are any, the same sandbox is left. -/
  found : ∀ order debug, Command.readArguments arguments = .migrate order debug →
    ((plan around order).run ⟨t, []⟩).1 = ((plan around order).run ⟨u, []⟩).1 ∧
    ∀ p w, (plan around order).run ⟨t, []⟩ = (.ok p, w) → p.files ≠ [] →
      e.world.tree = e'.world.tree

theorem perform_alike {d : Terminal.Display} (hd : ∀ r, d.filter.shows r = false)
    (hresult : ((migrate around order).run w).1 = ((migrate around order).run w').1)
    (hj : unlogged ((migrate around order).run w).2.journal =
      unlogged ((migrate around order).run w').2.journal) :
    (Command.perform around order d w).stderr = (Command.perform around order d w').stderr := by
  unfold Command.perform
  dsimp only
  rw [Terminal.transcript_unlogged hd, hresult, hj, ← Terminal.transcript_unlogged hd]

theorem program_stale (clock : String) {arguments : List String} (hs : Stale r t u)
    (h : ∀ order debug, Command.readArguments arguments = .migrate order debug →
      Setting around order r t)
    (hd : around.IsDeaf) (hu : u.Sound) (huo : u.Single) :
    Indistinct around arguments r t u (Command.program around clock arguments t)
      (Command.program around clock arguments u) := by
  unfold Command.program
  cases hr : Command.readArguments arguments with
  | shown text => exact ⟨rfl, rfl, fun _ _ => rfl, rfl, hs.alikeOutside, by rw [hr]; exact nofun⟩
  | refused e => exact ⟨rfl, rfl, fun _ _ => rfl, rfl, hs.alikeOutside, by rw [hr]; exact nofun⟩
  | migrate order debug =>
    obtain ⟨hplan, hresult, hcommon⟩ := (h order debug hr).migrate_stale hd hs hu huo
    dsimp only
    refine {
      exitCode := ?_
      stdout := rfl
      stderr := fun hquiet hlog => perform_alike (fun r => ?_) hresult hcommon.journal
      journal := hcommon.journal
      outside := hcommon.outside
      found := fun order' debug' hr' => ?_ }
    · unfold Command.perform
      dsimp only
      rw [hresult]
    · have hdebug : debug = false := by
        by_contra hne
        rw [Bool.not_eq_false] at hne
        exact hquiet order (hne ▸ hr)
      have hfilter : Command.logFilter around.environment debug = .ofText "error" := by
        unfold Command.logFilter
        rw [hlog, hdebug]
        rfl
      change (Command.logFilter around.environment debug).shows r = false
      rw [hfilter]
      exact Log.Filter.shows_of_default r
    · rw [hr] at hr'
      cases hr'
      refine ⟨hplan, fun p w hp hne => hcommon.tree ?_⟩
      rw [hp]
      exact hne

theorem secluded_of_linkFree (hl : ∀ p, ¬ t.LinkAt p) (hg : ∀ a : Place, ¬ t.FileAt (a ++ [".git"])) :
    Secluded t r where
  project p _ _ := hl p
  above _ _ _ _ _ _ := hl _
  repository a hn _ _ path hp := by
    have hgit : IsName ".git" := ⟨by decide, by decide, by decide⟩
    have hnamed : ∀ s ∈ a ++ [".git"], IsName s := named_append hn (by simpa using hgit)
    have hnot : t.isFile (joinPath a.text ".git") = false := by
      rw [joinPath_name hn hgit]
      by_contra hfile
      obtain ⟨q, bytes, runnable, he⟩ := isFile_eq_true.mp (Bool.not_eq_false _ ▸ hfile)
      have hspot := entryAt_eq_ok.mp he
      obtain rfl := spot_straight (spells_text hnamed) (fun p _ => hl p) hspot rfl
      exact hg a ⟨bytes, runnable, (spot_file hspot).2⟩
    unfold Ignore.elsewhere at hp
    rw [hnot] at hp
    cases hp

def leftTree : Tree :=
  ⟨trioTree.entries ++
    [([directoryName], .directory), ([directoryName, "pom.xml"], .file ByteArray.empty false),
     ([directoryName, ".ignore"], .file "*.java".toUTF8 false),
     ([directoryName, "A.java"], .file "io.vertx.core.Promise".toUTF8 false)]⟩

theorem leftTree_sound : leftTree.Sound := sound_of_listed (by decide)

theorem leftTree_single : leftTree.Single := by
  unfold Single leftTree trioTree
  decide

theorem stale_left : Stale [] trioTree leftTree := ⟨rfl, .inl rfl, .inr rfl⟩

theorem setting_trio : Setting attended wholeOrder [] trioTree where
  sound := trioTree_sound
  single := trioTree_single
  directory := solid_nil _
  outside := by decide
  path := by
    unfold Shuns
    decide +kernel
  root place hp := by
    obtain rfl : [] = place := Except.ok.inj hp
    decide +kernel
  secluded := by
    refine secluded_of_linkFree trioTree_linkFree fun a => ?_
    rintro ⟨bytes, runnable, hf⟩
    have hlisted := mem_entries_of_get? (by simp) hf
    have hnot : ∀ x ∈ trioTree.entries, x.1.getLast? ≠ some ".git" := by decide
    exact hnot _ hlisted List.getLast?_concat

theorem isDeaf_attended : attended.IsDeaf := ⟨deaf_const _, deaf_const _, deaf_const _⟩

theorem program_stale_left :
    (∃ p w₁, (plan attended wholeOrder).run ⟨trioTree, []⟩ = (.ok p, w₁) ∧
      p.files = ["/A.java", "/B.java", "/C.java"]) ∧
    Indistinct attended ["migrate", "/", "-y"] [] trioTree leftTree
      (Command.program attended "" ["migrate", "/", "-y"] trioTree)
      (Command.program attended "" ["migrate", "/", "-y"] leftTree) := by
  have hread : Command.readArguments ["migrate", "/", "-y"] = .migrate wholeOrder false := by
    decide +kernel
  obtain ⟨p, w₁, _, _, _, _, _, _, _, _, _, hplan, hfiles, -⟩ := trio_course
  refine ⟨⟨p, w₁, hplan, hfiles⟩, program_stale "" stale_left (fun order debug h => ?_)
    isDeaf_attended leftTree_sound leftTree_single⟩
  rw [hread] at h
  cases h
  exact setting_trio

def workTree : Tree :=
  ⟨[(["A.java"], .file "io.vertx.core.Promise".toUTF8 false),
    ([".git"], .file "gitdir: /.modernizer_sandbox/wt".toUTF8 false)]⟩

def betrayingTree : Tree :=
  ⟨workTree.entries ++
    [([directoryName], .directory), ([directoryName, "wt"], .directory),
     ([directoryName, "wt", "commondir"], .file ".".toUTF8 false),
     ([directoryName, "wt", "info"], .directory),
     ([directoryName, "wt", "info", "exclude"], .file "A.java".toUTF8 false)]⟩

theorem plan_workTree : (plan alone wholeOrder).run ⟨workTree, []⟩ =
    (.ok ⟨"/", Strategy.webFlux, none, "/", ["/A.java"]⟩,
      ⟨workTree, [.log (rootRecord "/"), .notice .noKey]⟩) :=
  @plan_top workTree alone [["A.java"]] rfl (by decide +kernel) (by decide +kernel)
    (by decide +kernel) (by decide)

theorem plan_betrayingTree : (plan alone wholeOrder).run ⟨betrayingTree, []⟩ =
    (.ok ⟨"/", Strategy.webFlux, none, "/", []⟩,
      ⟨betrayingTree, [.log (rootRecord "/"), .notice .noKey]⟩) :=
  @plan_top betrayingTree alone [] rfl (by decide +kernel) (by decide +kernel)
    (by decide +kernel) (by decide)

/-- Neither tree has a link, and the path is not in the sandbox, but one run finds the source file
and the other finds none. -/
theorem program_betrayed :
    Stale [] workTree betrayingTree ∧ workTree.Sound ∧ betrayingTree.Sound ∧
    (∀ p, ¬ workTree.LinkAt p) ∧ (∀ p, ¬ betrayingTree.LinkAt p) ∧
    ((plan alone wholeOrder).run ⟨workTree, []⟩).1.map Plan.files = .ok ["/A.java"] ∧
    ((plan alone wholeOrder).run ⟨betrayingTree, []⟩).1.map Plan.files = .ok [] ∧
    ¬ Indistinct alone ["migrate", "/", "-y"] [] workTree betrayingTree
      (Command.program alone "" ["migrate", "/", "-y"] workTree)
      (Command.program alone "" ["migrate", "/", "-y"] betrayingTree) := by
  have hread : Command.readArguments ["migrate", "/", "-y"] = .migrate wholeOrder false := by
    decide +kernel
  refine ⟨⟨rfl, .inl rfl, .inr rfl⟩, sound_of_listed (by decide), sound_of_listed (by decide),
    linkFree_of_listed (by decide), linkFree_of_listed (by decide), by rw [plan_workTree]; rfl, by rw [plan_betrayingTree]; rfl,
    fun h => ?_⟩
  have hfound := (h.found _ _ hread).1
  rw [plan_workTree, plan_betrayingTree] at hfound
  have hfiles : ["/A.java"] = ([] : List String) := congrArg Plan.files (Except.ok.inj hfound)
  cases hfiles

end Refit.Run
