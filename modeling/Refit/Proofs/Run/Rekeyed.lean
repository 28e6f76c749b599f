import Refit.Command.Program
import Refit.Proofs.Build.Discreet
import Refit.Proofs.Run.Abreast
import Refit.Proofs.Run.Inside
import Refit.Proofs.Sources.Veiled
import Refit.Proofs.Workspace.Twins

/-!
Two runs that differ in a key. They are planned alike (`run_plan_with`), their workspaces differ in
the copies of the settings only (`prepare_twins`), and from there on they go side by side, so that
they cannot be told apart but by the key (`program_rekeyed`). That is not so where the file with the
key is itself taken for a source (`program_promise`).
-/

namespace Refit

open Refit.Path Refit.Tree Workspace

namespace Run

variable {around : Surroundings} {order : Order} {t t' : Tree} {place r : Place} {s : Settings}
  {key key' : String} {left right : ByteArray} {env' : Environment} {files : List String}
  {c c' : Chat.Client} {w w' : World}

def keyVeil (t : Tree) (root : String) (r : Place) (left right : ByteArray) : Veil where
  left := left
  right := right
  covers p := t.canonical [] (joinPath root Settings.fileName) = .ok p ∨ sandbox r <+: p

def ReadBy (r : Place) (files : List String) (path : String) : Prop :=
  path ∈ files ∨ ∃ file ∈ files, (ofPlace r).mapPath file = .ok path

/-- The sources of a project are read alike in two trees, without a look into the sandbox, and the
build tools leave it so. -/
structure Discreet (v : Veil) (r : Place) (t t' : Tree) (tools : Build.Tools)
    (files : List String) : Prop where
  sources : ∀ file ∈ files, Shuns t r [] file ∧ AgreeAt t t' file
  tools : Build.Discreet v (ReadBy r files) tools

/-- Two runs of the project at `r` that differ in the key of the selected service: what is in the
settings and in the environment may differ, and nobody else looks at that. -/
structure Rekeyed (around : Surroundings) (order : Order) (place r : Place) (s : Settings)
    (key key' : String) (left right : ByteArray) (t t' : Tree) (env' : Environment) : Prop where
  sound : t.Sound
  solid : t.Solid around.directory
  canonical : t.canonical around.directory order.path = .ok place
  root : t.canonical [] (ProjectRoot.find t place.text) = .ok r
  loaded : Settings.load t (ProjectRoot.find t place.text) around.environment = .ok s
  reloaded : Settings.load t' (ProjectRoot.find t place.text) env' = .ok (s.withKey key')
  selected : s.apiKey = some key
  sendable : Chat.Client.isHeaderText key = true ∧ Chat.Client.isHeaderText key' = true
  veiled : Veiled (keyVeil t (ProjectRoot.find t place.text) r left right) t t'
  environment : ∀ name, (∀ p : Chat.Provider, name ≠ p.keyVariable) →
    env' name = around.environment name
  rules : Ignore.ReadAlike place t t'
  discreet : ∀ files, Sources.collect t place.text = .ok files →
    Discreet (keyVeil t (ProjectRoot.find t place.text) r left right) r t t' around.tools files
  service : around.service.IsKeyBlind
  interrupted : KeyBlind around.interrupted

structure Facing (t t' : Tree) (w w' : World) : Prop where
  left : w.tree = t
  right : w'.tree = t'
  journal : keyless w.journal = keyless w'.journal

theorem Facing.note (h : Facing t t' w w') (e : Event) : Facing t t' (w.note e) (w'.note e) :=
  ⟨h.left, h.right, keyless_extend h.journal rfl⟩

theorem Facing.twins {v : Veil} (h : Facing t t' w w') (hv : Veiled v t t') :
    Twins v (fun _ => False) w w' := by
  obtain ⟨rfl, rfl, hj⟩ := h
  exact ⟨⟨hv, nofun⟩, hj⟩

def World.introduced (w : World) (root : String) (c : Chat.Client) : World :=
  (w.note (.log (rootRecord root))).note (.notice (.using c.provider.name c.model))

/-- A plan with a key, as far as it gets. -/
theorem run_plan_with (hplace : w.tree.canonical around.directory order.path = .ok place)
    (hload : Settings.load w.tree (ProjectRoot.find w.tree place.text) around.environment = .ok s)
    (hkey : s.hasAnyKey = true) (hc : Chat.Client.ofSettings s = .ok c) :
    (plan around order).run w =
      match Strategy.find? order.target with
      | none => (.error (.unknownTarget order.target), w)
      | some strategy =>
        let root := ProjectRoot.find w.tree place.text
        match Sources.collect w.tree place.text with
        | .error e => (.error (.search e), World.introduced w root c)
        | .ok files =>
          (.ok ⟨place.text, strategy, some c, root, files⟩, World.introduced w root c) := by
  unfold plan
  rw [Step.run_tree_bind, hplace, Step.run_ofExcept_bind]
  dsimp only [Except.mapError]
  cases Strategy.find? order.target with
  | none => rfl
  | some strategy =>
    dsimp only
    rw [Step.run_pure_bind, Step.run_tree_bind, Step.log, Step.run_note_bind, Step.run_tree_bind,
      Step.note_tree, hload, Step.run_ofExcept_bind]
    dsimp only [Except.mapError]
    have hclient : (client? s).run
        (w.note (.log (rootRecord (ProjectRoot.find w.tree place.text)))) =
        (.ok (some c), World.introduced w (ProjectRoot.find w.tree place.text) c) := by
      unfold client?
      rw [if_pos hkey, hc]
      rfl
    rw [Step.run_bind, hclient]
    dsimp only
    rw [Step.run_tree_bind, show (World.introduced w _ c).tree = w.tree from rfl]
    cases Sources.collect w.tree place.text <;> rfl

theorem prepare_abreast {v : Veil} (hc : ∀ p, v.covers p) (ws : Workspace) :
    Step.Abreast (Twins v fun _ => False) (Twins v fun _ => False) (prepare ws) (prepare ws) := by
  have hN := Twins.notable v fun _ => False
  unfold prepare
  refine (create_abreast hc ws).attempt.bind fun made => ?_
  split
  · exact Step.abreast_note hN _
  · exact (Step.abreast_note hN _).bind fun _ => (cleanup_abreast ws).attempt.bind fun _ =>
      Step.abreast_fail _

theorem agreeAt_readBy {v : Veil} {u u' : Tree} {path : String} (hv : Veiled v t t')
    (hu : Veiled v u u') (hr : ∀ a ∈ r, IsName a) (hsolid : t.Solid r)
    (hfiles : ∀ file ∈ files, (∃ q : Place, (∀ a ∈ q, IsName a) ∧ file = q.text) ∧
      Shuns t r [] file ∧ AgreeAt t t' file)
    (ho : Originals t r u) (ho' : Originals t' r u') (hp : ReadBy r files path) :
    AgreeAt u u' path := by
  obtain hp | ⟨file, hm, hmapped⟩ := hp
  · obtain ⟨-, hs, ha⟩ := hfiles path hp
    exact agreeAt_original hv hs ha ho.fresh.outside ho'.fresh.outside
  · obtain ⟨⟨q, hq, rfl⟩, hs, ha⟩ := hfiles file hm
    obtain ⟨names, rfl, hspells⟩ := mapPath_eq_ok hr (spells_text hq) hmapped
    exact agreeAt_copy hv hu hsolid (fun a hn => hq a (List.mem_append_right r hn)) hs ha ho ho'
      hspells

/-- The workspaces are made alike, or fail alike. -/
theorem prepare_twins {v : Veil} (ht : t.Sound) (hsolid : t.Solid r) (hv : Veiled v t t')
    (hc : ∀ p, sandbox r <+: p → v.covers p)
    (hfiles : ∀ file ∈ files, (∃ q : Place, (∀ a ∈ q, IsName a) ∧ file = q.text) ∧
      Shuns t r [] file ∧ AgreeAt t t' file)
    (hw : Facing t t' w w') :
    (∃ e w₁ w₁', (prepare (ofPlace r)).run w = (.error e, w₁) ∧
        (prepare (ofPlace r)).run w' = (.error e, w₁') ∧ Twins v (fun _ => False) w₁ w₁') ∨
      ∃ w₁ w₁', (prepare (ofPlace r)).run w = (.ok (), w₁) ∧
        (prepare (ofPlace r)).run w' = (.ok (), w₁') ∧ Twins v (ReadBy r files) w₁ w₁' := by
  have hr := named_of_get? ht (hsolid r (List.prefix_refl r)).1
  have hwide : Veiled (wide v) t t' := ⟨hv.entries, fun _ _ => trivial⟩
  obtain ⟨ha, htwins⟩ :=
    prepare_abreast (v := wide v) (fun _ => trivial) (ofPlace r) w w' (hw.twins hwide)
  have hleft := (prepare_leads (originals_made t hr) ht hsolid hr).ending w hw.left
  have hright := (prepare_leads (originals_made t' hr) (hv.sameShape.sound ht)
    (hv.sameShape.solid hsolid) hr).ending w' hw.right
  rcases hx : (prepare (ofPlace r)).run w with ⟨a, w₁⟩
  rcases hx' : (prepare (ofPlace r)).run w' with ⟨a', w₁'⟩
  rw [hx] at ha htwins hleft
  rw [hx'] at ha htwins hright
  dsimp only at ha htwins
  subst ha
  cases a with
  | error e =>
    have hv' := veiled_outside hv htwins.trees.veiled hc hleft.2 hright.2
    exact .inl ⟨e, w₁, w₁', rfl, rfl, ⟨hv', nofun⟩, htwins.journal⟩
  | ok a =>
    have hleft : Originals t r w₁.tree := hleft
    have hright : Originals t' r w₁'.tree := hright
    have hv' := veiled_outside hv htwins.trees.veiled hc hleft.fresh.outside hright.fresh.outside
    exact .inr ⟨w₁, w₁', rfl, rfl, ⟨hv', fun path =>
      agreeAt_readBy hv hv' hr hsolid hfiles hleft hright⟩, htwins.journal⟩

theorem run_setUp {p : Plan} {ws : Workspace} (hws : forProject w.tree p.root = .ok ws) :
    (setUp around order p).run w =
      match (prepare ws).run w with
      | (.error e, w) => (.error e, w)
      | (.ok (), w) =>
        let b := Build.Builder.forRoot w.tree ws.root (around.environment "PATH")
        (.ok ⟨ws, team around p.strategy p.client b, ⟨order.dryRun, order.autoApprove⟩, nobody,
            around.interrupted⟩,
          (w.note (.notice (.filesFound p.files.length p.strategy.name))).note
            (.log (systemRecord b))) := by
  unfold setUp
  rw [Step.run_tree_bind, hws, Step.run_ofExcept_bind]
  dsimp only [Except.mapError]
  rw [Step.run_bind]
  rcases (prepare ws).run w with ⟨_ | ⟨⟩, w₁⟩ <;> rfl

theorem job_agrees {v : Veil} {P : String → Prop} (hrekeyed : c.Rekeyed c')
    (hservice : around.service.IsKeyBlind) (hinterrupted : KeyBlind around.interrupted)
    (htools : Build.Discreet v P around.tools) (env' : Environment) (ws : Workspace)
    (strategy : Strategy) (b : Build.Builder) (gate : Promotion.Gate) :
    Job.Agrees (Twins v P)
      ⟨ws, team around strategy (some c) b, gate, nobody, around.interrupted⟩
      ⟨ws, team { around with environment := env' } strategy (some c') b, gate, nobody,
        around.interrupted⟩ where
  workspace := rfl
  gate := rfl
  answerer := rfl
  interrupted := rfl
  team := {
    strategy := rfl
    noted := (Twins.shares v P).noted
    written := (Twins.shares v P).written
    oracle := by
      refine .inr ⟨_, _, rfl, rfl, fun w w' code instructions h => ?_⟩
      obtain ⟨hreply, hevents⟩ := hrekeyed.propose hservice code instructions h.journal
      exact ⟨hreply, h.notes hevents⟩
    checker := b.check_agrees htools }
  unanswered _ _ _ := rfl
  uninterrupted _ _ h := hinterrupted _ _ h.journal

namespace Rekeyed

variable (h : Rekeyed around order place r s key key' left right t t' env')

include h

theorem solid_root : t.Solid r :=
  canonical_passed t.passed_solid t.solid_nil h.root

theorem named_place : ∀ a ∈ place, IsName a := (canonical_solid h.sound h.solid h.canonical).1

theorem forProject_eq :
    forProject t (ProjectRoot.find t place.text) = .ok (ofPlace r) := by
  obtain ⟨hn, hs⟩ := canonical_solid h.sound h.solid h.canonical
  obtain ⟨r', -, -, -, hroot, hws⟩ := exists_project h.sound hn hs
  rwa [Except.ok.inj (h.root.symm.trans hroot)]

theorem find_eq : ProjectRoot.find t' place.text = ProjectRoot.find t place.text := by
  have hstart : ProjectRoot.start t' place.text = ProjectRoot.start t place.text := by
    unfold ProjectRoot.start
    rw [h.veiled.isDirectory_eq]
  have hbuildable : ProjectRoot.isBuildable t' = ProjectRoot.isBuildable t := by
    funext directory
    unfold ProjectRoot.isBuildable
    rw [funext h.veiled.isFile_eq]
  unfold ProjectRoot.find
  rw [hstart, hbuildable]

theorem searchPath_eq : env' "PATH" = around.environment "PATH" :=
  h.environment "PATH" fun p => by cases p <;> decide

theorem rules_at (start : Place) (hs : t.canonical [] place.text = .ok start) :
    Ignore.ReadAlike start t t' := by
  obtain ⟨hn, hsolid⟩ := canonical_solid h.sound h.solid h.canonical
  rw [ProjectRoot.canonical_text hn (fun o ho => (hsolid o ho).2) hs]
  exact h.rules

theorem migrateFiles_abreast {p : Plan} (hroot : p.root = ProjectRoot.find t place.text)
    (hfiles : Sources.collect t place.text = .ok p.files) (hrekeyed : c.Rekeyed c') :
    Step.Abreast (Facing t t')
      (Twins (keyVeil t (ProjectRoot.find t place.text) r left right) fun _ => False)
      (migrateFiles around order { p with client := some c })
      (migrateFiles { around with environment := env' } order { p with client := some c' }) := by
  intro w w' hw
  have hdiscreet := h.discreet p.files hfiles
  have hread : ∀ file ∈ p.files, (∃ q : Place, (∀ a ∈ q, IsName a) ∧ file = q.text) ∧
      Shuns t r [] file ∧ AgreeAt t t' file := fun file hm =>
    ⟨Sources.collect_eq_ok h.sound.named h.named_place hfiles file hm, hdiscreet.sources file hm⟩
  have hws : forProject w.tree p.root = .ok (ofPlace r) := by
    rw [hw.left, hroot, h.forProject_eq]
  have hws' : forProject w'.tree p.root = .ok (ofPlace r) := by
    rw [hw.right, hroot, ← h.forProject_eq]
    unfold forProject
    rw [h.veiled.canonical_eq]
  unfold migrateFiles
  rw [Step.run_bind, Step.run_bind, run_setUp (p := { p with client := some c }) hws,
    run_setUp (p := { p with client := some c' }) hws']
  obtain ⟨e, w₁, w₁', hx, hx', htwins⟩ | ⟨w₁, w₁', hx, hx', htwins⟩ :=
    prepare_twins h.sound h.solid_root h.veiled (fun _ hp => .inr hp) hread hw
  · rw [hx, hx']
    exact ⟨rfl, htwins⟩
  · rw [hx, hx']
    dsimp only
    rw [h.searchPath_eq, Build.Builder.forRoot_veiled htwins.trees.veiled]
    have hagrees := job_agrees hrekeyed h.service h.interrupted hdiscreet.tools env'
      (ofPlace r) p.strategy
      (Build.Builder.forRoot w₁.tree (ofPlace r).root (around.environment "PATH"))
      ⟨order.dryRun, order.autoApprove⟩
    have hlegible : ∀ file ∈ p.files, Legible (ReadBy r p.files) (ofPlace r) file := fun file hm =>
      ⟨.inl hm, fun path hp => .inr ⟨file, hm, hp⟩⟩
    have hall := (migrateAll_abreast (Twins.shares _ _) hagrees p.files.length {} hlegible).mono
      fun _ _ hw => hw.forget
    exact (hall.bind fun summary => conclude_abreast (Twins.notable _ _)
      (cleanup_abreast (ofPlace r)) order.dryRun summary) _ _
      ((htwins.notes rfl).notes rfl)

theorem migrate_abreast :
    Step.Abreast (Facing t t')
      (Twins (keyVeil t (ProjectRoot.find t place.text) r left right) fun _ => False)
      (migrate around order) (migrate { around with environment := env' } order) := by
  intro w w' hw
  obtain ⟨c, c', hc, hc', hrekeyed⟩ :=
    Chat.Client.exists_rekeyed h.selected h.sendable.1 h.sendable.2
  have hintroduced : Facing t t' (World.introduced w (ProjectRoot.find t place.text) c)
      (World.introduced w' (ProjectRoot.find t place.text) c') := by
    rw [hrekeyed.same]
    exact (hw.note _).note _
  obtain ⟨rfl, rfl, hj⟩ := hw
  have hplace' : w'.tree.canonical { around with environment := env' }.directory order.path =
      .ok place := (h.veiled.canonical_eq _ _).trans h.canonical
  have hload' : Settings.load w'.tree (ProjectRoot.find w'.tree place.text)
      { around with environment := env' }.environment = .ok (s.withKey key') :=
    h.find_eq ▸ h.reloaded
  unfold migrate
  rw [Step.run_bind, Step.run_bind,
    run_plan_with h.canonical h.loaded (Settings.hasAnyKey_of_apiKey h.selected) hc,
    run_plan_with hplace' hload' (Settings.hasAnyKey_of_apiKey (s.apiKey_withKey key')) hc',
    h.find_eq]
  cases Strategy.find? order.target with
  | none => exact ⟨rfl, Facing.twins ⟨rfl, rfl, hj⟩ h.veiled⟩
  | some strategy =>
    dsimp only
    rw [Sources.collect_veiled h.veiled h.sound.named h.rules_at]
    cases hfiles : Sources.collect w.tree place.text with
    | error e => exact ⟨rfl, hintroduced.twins h.veiled⟩
    | ok files =>
      cases files with
      | nil => exact ⟨rfl, (hintroduced.note _).twins h.veiled⟩
      | cons file rest =>
        have hmigrated := h.migrateFiles_abreast
          (p := ⟨place.text, strategy, none, ProjectRoot.find w.tree place.text, file :: rest⟩)
          rfl hfiles hrekeyed
        exact hmigrated _ _ hintroduced

end Rekeyed

end Run

theorem Terminal.Display.showEvent_keyless (d : Terminal.Display) (e : Event) :
    d.showEvent e.keyless = d.showEvent e := by
  cases e <;> rfl

theorem Terminal.transcript_keyless (d : Terminal.Display) {j j' : Journal}
    (h : keyless j = keyless j') : transcript d j' = transcript d j := by
  have hshown : ∀ j : Journal, j.flatMap d.showEvent = (keyless j).flatMap d.showEvent := by
    intro j
    simp only [keyless, List.flatMap_map, Display.showEvent_keyless]
  unfold transcript
  rw [hshown j, hshown j', h]

namespace Command

/-- Two runs of the program that end alike: with the same exit code, the same output, the same
events but for the keys in the requests, and with trees that differ under a veil only. -/
structure Ending.Alike (v : Veil) (e e' : Ending) : Prop where
  exitCode : e'.exitCode = e.exitCode
  stdout : e'.stdout = e.stdout
  stderr : e'.stderr = e.stderr
  journal : keyless e.world.journal = keyless e'.world.journal
  tree : Veiled v e.world.tree e'.world.tree

theorem perform_alike {around around' : Run.Surroundings} {order : Run.Order} {v : Veil}
    {w w' : World} {R : World → World → Prop} (d : Terminal.Display)
    (h : Step.Abreast R (Twins v fun _ => False) (Run.migrate around order)
      (Run.migrate around' order)) (hw : R w w') :
    (perform around order d w).Alike v (perform around' order d w') := by
  obtain ⟨hr, htwins⟩ := h w w' hw
  unfold perform
  rcases hx : (Run.migrate around order).run w with ⟨a, w₁⟩
  rcases hx' : (Run.migrate around' order).run w' with ⟨a', w₁'⟩
  rw [hx, hx'] at hr htwins
  dsimp only at hr htwins ⊢
  subst hr
  refine ⟨rfl, rfl, ?_, htwins.journal, htwins.trees.veiled⟩
  rw [Terminal.transcript_keyless d htwins.journal]

theorem display_rekeyed {env env' : Environment}
    (h : ∀ name, (∀ p : Chat.Provider, name ≠ p.keyVariable) → env' name = env name) (debug : Bool)
    (clock : String) : display env' debug clock = display env debug clock := by
  have hcolor := h "CLICOLOR_FORCE" fun p => by cases p <;> decide
  have hplain := h "NO_COLOR" fun p => by cases p <;> decide
  have hfilter := h "RUST_LOG" fun p => by cases p <;> decide
  unfold display wantsLogColor wantsColor logFilter
  rw [hcolor, hplain, hfilter]

end Command

namespace Run

/-- A key does not leak. Whatever the settings, a client with another key proposes the same for the
same answers, with the same requests but for the header with the key and with the same log records.
And a whole run of the program with another key sends the same requests but for that header, records
and shows the same, ends with the same exit code, and leaves the same files but for the settings and
their copies in the sandbox, if nothing else reads the settings: neither are they a source, or a
source looked for in the sandbox, nor do ignore rules stand in them, nor do the build tools look at
them. -/
theorem program_rekeyed :
    (∀ (s : Settings) (key key' : String) (service : Chat.Service), s.apiKey = some key →
      Chat.Client.isHeaderText key = true → Chat.Client.isHeaderText key' = true →
      service.IsKeyBlind →
      ∃ c c', Chat.Client.ofSettings s = .ok c ∧ Chat.Client.ofSettings (s.withKey key') = .ok c' ∧
        ∀ j j' code instructions, keyless j = keyless j' →
          Chat.SameButKeys (c.propose service j code instructions)
            (c'.propose service j' code instructions)) ∧
    ∀ {around order place r s key key' left right t t' env'},
      Rekeyed around order place r s key key' left right t t' env' →
      ∀ arguments debug clock, Command.readArguments arguments = .migrate order debug →
        (Command.program around clock arguments t).Alike
          (keyVeil t (ProjectRoot.find t place.text) r left right)
          (Command.program { around with environment := env' } clock arguments t') := by
  constructor
  · intro s key key' service hs hl hr hservice
    obtain ⟨c, c', hc, hc', hrekeyed⟩ := Chat.Client.exists_rekeyed hs hl hr
    exact ⟨c, c', hc, hc', fun j j' code instructions hj =>
      hrekeyed.propose hservice code instructions hj⟩
  · intro around order place r s key key' left right t t' env' h arguments debug clock harguments
    unfold Command.program
    rw [harguments]
    dsimp only
    rw [Command.display_rekeyed h.environment]
    exact Command.perform_alike _ h.migrate_abreast ⟨rfl, rfl, rfl⟩

def keyFile (key : String) : ByteArray := ("[llm]\nanthropic_api_key = \"" ++ key ++ "\"\n").toUTF8

def keyedProject (key : String) : Tree := ⟨[
  (["A.java"], .file "public void start(Promise<Void> startFuture){}".toUTF8 false),
  (["modernizer.toml"], .file (keyFile key) false),
  (["pom.xml"], .file "".toUTF8 false)]⟩

theorem keyedProject_veiled (key key' : String) :
    Veiled (keyVeil (keyedProject key) "/" [] (keyFile key) (keyFile key')) (keyedProject key)
      (keyedProject key') where
  entries := by
    refine .cons ⟨rfl, Veil.matches_refl _ _⟩ (.cons ⟨rfl, Veil.matches_file _ false⟩ ?_)
    exact .cons ⟨rfl, Veil.matches_refl _ _⟩ .nil
  covered p hp := by
    by_cases he : p = ["modernizer.toml"]
    · rw [he]
      exact .inl rfl
    · refine absurd ?_ hp
      simp only [get?, keyedProject, entryIn, Ne.symm he, if_false]

theorem keyedProject_lacks (key : String) :
    ∀ s ∈ [".ignore", ".gitignore", ".git", "exclude"], Sources.Lacks (keyedProject key) s := by
  intro s hs
  have hlisted : ∀ x ∈ [["A.java"], ["modernizer.toml"], ["pom.xml"]],
      ∀ s ∈ [".ignore", ".gitignore", ".git", "exclude"], List.getLast? x ≠ some s := by
    decide
  refine Sources.lacks_of_listed fun x hx => hlisted x.1 ?_ s hs
  exact List.mem_map_of_mem (f := Prod.fst) hx

theorem broken_isKeyBlind : Chat.Service.IsKeyBlind fun _ _ => .broken := fun _ _ _ _ _ _ => rfl

theorem discreet_idle (v : Veil) (P : String → Prop) : Build.Discreet v P alone.tools :=
  fun _ _ _ _ _ _ _ _ ht => ⟨rfl, rfl, rfl, ht⟩

theorem rekeyed_left : Rekeyed alone soleOrder ["A.java"] [] { anthropicKey := some "left" } "left"
    "right" (keyFile "left") (keyFile "right") (keyedProject "left") (keyedProject "right")
    alone.environment := by
  have hfind : ProjectRoot.find (keyedProject "left") (Place.text ["A.java"]) = "/" := by
    decide +kernel
  have hcollect : Sources.collect (keyedProject "left") (Place.text ["A.java"]) =
      .ok ["/A.java"] := by decide +kernel
  have hveiled := keyedProject_veiled "left" "right"
  exact {
    sound := sound_of_listed (by decide +kernel)
    solid := solid_nil _
    canonical := by decide +kernel
    root := by decide +kernel
    loaded := by decide +kernel
    reloaded := by decide +kernel
    selected := rfl
    sendable := by decide
    veiled := by rw [hfind]; exact hveiled
    environment := fun _ _ => rfl
    rules := Ignore.readAlike_of_lacks hveiled (keyedProject_lacks "left")
    discreet := by
      intro files hfiles
      obtain rfl := Except.ok.inj (hcollect.symm.trans hfiles)
      refine ⟨fun file hm => ?_, discreet_idle _ _⟩
      obtain rfl := List.mem_singleton.mp hm
      have hplain : Plain (keyedProject "left") [] ["A.java"] :=
        ⟨by decide, fun p _ => linkFree_of_listed (by decide) p, by decide⟩
      refine ⟨hplain.shuns, ?_⟩
      unfold AgreeAt
      decide +kernel
    service := broken_isKeyBlind
    interrupted := keyBlind_const false }

theorem program_rekeyed_left :
    (Command.program alone "now" ["migrate", "/A.java", "-y"] (keyedProject "left")).Alike
        (keyVeil (keyedProject "left") "/" [] (keyFile "left") (keyFile "right"))
        (Command.program alone "now" ["migrate", "/A.java", "-y"] (keyedProject "right")) ∧
      ∃ c c', Chat.Client.ofSettings { anthropicKey := some "left" } = .ok c ∧
        Chat.Client.ofSettings { anthropicKey := some "right" } = .ok c' ∧
        ∀ code instructions, Chat.SameButKeys (c.propose (fun _ _ => .broken) [] code instructions)
          (c'.propose (fun _ _ => .broken) [] code instructions) := by
  have hfind : ProjectRoot.find (keyedProject "left") (Place.text ["A.java"]) = "/" := by
    decide +kernel
  have halike := program_rekeyed.2 rekeyed_left ["migrate", "/A.java", "-y"] false "now"
    (by decide +kernel)
  rw [hfind] at halike
  obtain ⟨c, c', hc, hc', hpropose⟩ := program_rekeyed.1 { anthropicKey := some "left" } "left"
    "right" (fun _ _ => .broken) rfl (by decide) (by decide) broken_isKeyBlind
  exact ⟨halike, c, c', hc, hc', fun code instructions => hpropose [] [] code instructions rfl⟩

/-- Where the settings are migrated themselves, a key with a name in it that asks for a migration can
be told from one without. -/
theorem program_promise :
    let settings : Settings := { anthropicKey := some "Promise" }
    let run := fun key => Command.program alone "now" ["migrate", "/modernizer.toml", "-y"]
      (keyedProject key)
    settings.apiKey = some "Promise" ∧
    Settings.load (keyedProject "Promise") "/" alone.environment = .ok settings ∧
    Settings.load (keyedProject "secret") "/" alone.environment = .ok (settings.withKey "secret") ∧
    Chat.Client.isHeaderText "Promise" = true ∧ Chat.Client.isHeaderText "secret" = true ∧
    Chat.Service.IsKeyBlind alone.service ∧
    Veiled (keyVeil (keyedProject "Promise") "/" [] (keyFile "Promise") (keyFile "secret"))
      (keyedProject "Promise") (keyedProject "secret") ∧
    (run "secret").stderr ≠ (run "Promise").stderr :=
  ⟨rfl, by decide +kernel, by decide +kernel, by decide, by decide, broken_isKeyBlind,
    keyedProject_veiled _ _, by decide +kernel⟩

end Run

end Refit
