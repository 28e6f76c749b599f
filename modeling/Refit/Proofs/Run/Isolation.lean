import Refit.Proofs.Repair.Splice
import Refit.Proofs.Run.Loop

/-!
What a run changes outside of its sandbox. `migrate_isolated` is the main statement: only files that
it saves, and each of them is what was shown for it. Between two worlds of a run this is `Confined`,
a relation that composes; only the promotion of a file makes use of its second case.
-/

namespace Refit

open Refit.Path Refit.Tree Workspace

namespace Build

/-- Build tools that keep to a directory: they change nothing elsewhere, and they put no link there
by which a path into the directory leads out of it. -/
structure Tools.KeepTo (tools : Tools) (directory : Place) : Prop where
  outside : ∀ history t program root arguments,
    AlikeOutside directory t (tools history t program root arguments).tree
  inside : ∀ history t program root arguments, t.Encloses directory →
    (tools history t program root arguments).tree.Encloses directory

end Build

namespace Run

variable {t u : Tree} {directory p q r o below : Place} {w w₁ w₂ w₃ w' : World}
  {path file current : String} {draft : Draft}

/-- The promotion of a file: the draft, the world in which the two were compared, and the text of the
file in it. -/
structure Save where
  file : String
  draft : Draft
  seen : World
  current : String

namespace Save

/-- What is told from the diff on: that the file is copied, and that it has been saved. -/
def events (s : Save) : List Event :=
  Promotion.review s.draft s.file s.current :: Promotion.closing s.draft s.file .promoted

/-- The file of a save stands at a place, as the draft that was shown. -/
structure Wrote (s : Save) (w : World) (p : Place) : Prop where
  place : ∃ bytes runnable, s.seen.tree.spot s.file = .ok (.found p (.file bytes runnable))
  current : s.seen.tree.readText s.file = .ok s.current
  told : s.seen.journal ++ s.events <+: w.journal
  written : ∃ runnable, w.tree.get? p = some (.file s.draft.content.toUTF8 runnable)

theorem Wrote.mono {s : Save} (h : s.Wrote w p) (hj : w.journal <+: w'.journal)
    (hg : w'.tree.get? p = w.tree.get? p) : s.Wrote w' p where
  place := h.place
  current := h.current
  told := h.told.trans hj
  written := by rw [hg]; exact h.written

end Save

structure Confined (directory : Place) (A : Save → Prop) (w w' : World) : Prop where
  journal : w.journal <+: w'.journal
  places : ∀ p, ¬ directory <+: p → w'.tree.get? p = w.tree.get? p ∨
    w.tree.FileAt p ∧ ∃ s : Save, A s ∧ s.Wrote w' p

section Confined

variable {A B : Save → Prop}

theorem confined_of_alike (hj : w.journal <+: w'.journal)
    (h : AlikeOutside directory w.tree w'.tree) : Confined directory A w w' :=
  ⟨hj, fun p hp => .inl (h p hp)⟩

theorem Confined.imp (h : Confined directory A w w') (hA : ∀ s, A s → B s) :
    Confined directory B w w' := by
  refine ⟨h.journal, fun p hp => ?_⟩
  obtain hg | ⟨hf, s, hs, hw⟩ := h.places p hp
  · exact .inl hg
  · exact .inr ⟨hf, s, hA s hs, hw⟩

theorem Confined.trans (h : Confined directory A w w₁) (h' : Confined directory A w₁ w₂) :
    Confined directory A w w₂ := by
  refine ⟨h.journal.trans h'.journal, fun p hp => ?_⟩
  obtain hg | ⟨hf, s, hs, hw⟩ := h.places p hp
  · obtain hg' | ⟨hf, s, hs, hw⟩ := h'.places p hp
    · exact .inl (hg'.trans hg)
    · obtain ⟨bytes, runnable, hf⟩ := hf
      exact .inr ⟨⟨bytes, runnable, hg ▸ hf⟩, s, hs, hw⟩
  · obtain hg' | ⟨-, s', hs', hw'⟩ := h'.places p hp
    · exact .inr ⟨hf, s, hs, hw.mono h'.journal hg'⟩
    · exact .inr ⟨hf, s', hs', hw'⟩

/-- What was no link is none, since saving makes files. -/
theorem Confined.not_linkAt (h : Confined directory A w w') (hp : ¬ directory <+: p)
    (hl : ¬ w.tree.LinkAt p) : ¬ w'.tree.LinkAt p := by
  rintro ⟨target, hg⟩
  obtain hsame | ⟨-, s, -, hw⟩ := h.places p hp
  · exact hl ⟨target, hsame ▸ hg⟩
  · obtain ⟨runnable, hw⟩ := hw.written
    rw [hg] at hw
    cases hw

end Confined

structure Within (directory : Place) (w w' : World) : Prop where
  journal : w.journal <+: w'.journal
  alike : AlikeOutside directory w.tree w'.tree
  encloses : w'.tree.Encloses directory

theorem Within.confined {A : Save → Prop} (h : Within directory w w') : Confined directory A w w' :=
  confined_of_alike h.journal h.alike

theorem Within.ends {α : Type} {A : Save → Prop} {ended : α × World} {a : α}
    (h : Within directory w w') (hended : ended = (a, w')) :
    ended.2.tree.Encloses directory ∧ Confined directory A w ended.2 := by
  rw [hended]
  exact ⟨h.encloses, h.confined⟩

theorem place_of_writable {bytes : ByteArray} {runnable : Bool}
    (hr : w.tree.readText file = .ok current) (hw : w.tree.write path bytes = .ok u)
    (hq : u.writable file = .ok (q, runnable)) :
    ∃ bytes runnable, w.tree.spot file = .ok (.found q (.file bytes runnable)) := by
  obtain ⟨-, spot, hs, ht⟩ := writable_eq_ok hq
  obtain ⟨a, _, ha, rfl⟩ := write_eq_ok hw
  obtain ⟨spot', hs', hp⟩ := spot_put_place (writable_eq_ok ha).1 hs ht.place?_eq
  obtain ⟨q', runnable, hf⟩ := read_eq_ok (readText_eq_ok hr)
  rw [hs'] at hf
  cases hf
  cases hp
  exact ⟨_, _, hs'⟩

theorem write_within {bytes : ByteArray} (he : t.Encloses directory)
    (hs : Spells path (directory ++ below)) (hw : t.write path bytes = .ok u) :
    AlikeOutside directory t u ∧ u.Encloses directory := by
  obtain ⟨q, runnable, hq, rfl⟩ := write_eq_ok hw
  obtain ⟨htakes, spot, hspot, hplace⟩ := writable_eq_ok hq
  exact ⟨AlikeOutside.put (fun _ _ => rfl) htakes.1 (he path below spot q hs hspot hplace.place?_eq),
    he.put htakes⟩

theorem copy_saves (he : w.tree.Encloses directory)
    (hs : Spells draft.path (directory ++ below)) (hr : w.tree.readText file = .ok current)
    (hw : w.tree.write draft.path draft.content.toUTF8 = .ok u)
    (hc : u.copy draft.path file = .ok t) :
    t.Encloses directory ∧ Confined directory (· = ⟨file, draft, w, current⟩) w
      ⟨t, w.journal ++ (⟨file, draft, w, current⟩ : Save).events⟩ := by
  obtain ⟨halike, hu⟩ := write_within he hs hw
  obtain ⟨origin, bytes, runnable, q, old, horigin, hq, rfl⟩ := copy_eq_ok hc
  have htakes := (writable_eq_ok hq).1
  have hbytes : bytes = draft.content.toUTF8 := by
    have hread := read_write hw
    rw [read_of_spot horigin] at hread
    exact Except.ok.inj hread
  refine ⟨hu.put htakes, List.prefix_append _ _, fun p hp => ?_⟩
  dsimp only
  rw [get?_put _ _ _ _ htakes.1]
  by_cases hpq : p = q
  · subst hpq
    obtain ⟨old, runnable', hspot⟩ := place_of_writable hr hw hq
    have hne : p ≠ origin := by
      rintro rfl
      exact hp (hu _ below _ _ hs horigin rfl)
    refine .inr ⟨⟨old, runnable', (spot_file hspot).2⟩, _, rfl, ⟨old, runnable', hspot⟩, hr,
      List.prefix_refl _, runnable, ?_⟩
    rw [get?_put _ _ _ _ htakes.1, if_pos rfl, if_neg hne, hbytes]
  · rw [if_neg hpq]
    exact .inl (halike p hp)

theorem promote_confined (gate : Promotion.Gate) (file : String) (he : w.tree.Encloses directory)
    (hs : Spells draft.path (directory ++ below)) :
    let ended := (Promotion.promote gate nobody draft file).run w
    ended.2.tree.Encloses directory ∧
      Confined directory (fun s => (s.file = file ∧ s.draft = draft ∧ s.seen = w) ∧
        ended.1 = .ok .promoted ∧ gate.autoApprove = true ∧ gate.dryRun = false) w ended.2 := by
  intro ended
  have hstart : Within directory w w := ⟨List.prefix_refl _, fun _ _ => rfl, he⟩
  have hrun : ended = (Promotion.promote gate nobody draft file).run w := rfl
  rw [Promotion.run_promote] at hrun
  cases hr : w.tree.readText file with
  | error cause =>
    rw [hr] at hrun
    exact hstart.ends hrun
  | ok current =>
    simp only [hr] at hrun
    by_cases hc : draft.content = current
    · rw [if_pos hc] at hrun
      exact hstart.ends hrun
    rw [if_neg hc] at hrun
    cases hw : w.tree.write draft.path draft.content.toUTF8 with
    | error cause =>
      rw [hw] at hrun
      exact hstart.ends hrun
    | ok u =>
      obtain ⟨halike, hu⟩ := write_within he hs hw
      simp only [hw] at hrun
      rw [Promotion.run_decide] at hrun
      dsimp only [nobody] at hrun
      by_cases hv : gate.verdict false = .promoted
      · rw [hv] at hrun
        dsimp only at hrun
        rw [Promotion.run_save] at hrun
        cases hcopy : u.copy draft.path file with
        | error cause =>
          simp only [hcopy] at hrun
          exact Within.ends ⟨by simp [World.log, World.note], halike, hu⟩ hrun
        | ok v =>
          obtain ⟨dryRun, autoApprove⟩ := gate
          have hflags : dryRun = false ∧ autoApprove = true := by
            revert hv
            cases dryRun <;> cases autoApprove <;> decide
          obtain ⟨rfl, rfl⟩ := hflags
          obtain ⟨hv', hsaves⟩ := copy_saves he hs hr hw hcopy
          simp only [hcopy] at hrun
          rw [hrun]
          refine ⟨hv', ?_⟩
          have hworld : ∀ told : List Event, (w.journal ++ [Promotion.review draft file current]) ++
              Promotion.Gate.prompts ⟨false, true⟩ file false ++ told =
                w.journal ++ Promotion.review draft file current :: told := fun told => by
            simp [Promotion.Gate.prompts]
          dsimp only
          rw [hworld]
          refine hsaves.imp ?_
          rintro s rfl
          exact ⟨⟨rfl, rfl, rfl⟩, rfl, rfl, rfl⟩
      · cases hd : gate.verdict false with
        | promoted => exact absurd hd hv
        | unchanged | declined | dryRun =>
          rw [hd] at hrun
          exact Within.ends ⟨by simp [World.notes], halike, hu⟩ hrun

/-- A repair of a draft in the directory changes nothing outside of it. -/
theorem Within.keeps {tools : Build.Tools} (ht : tools.KeepTo directory) (b : Build.Builder)
    (hs : Spells path (directory ++ below)) :
    Repair.Keeps ⟨b.check tools⟩ path (Within directory w) where
  notes _ _ h := ⟨h.journal.trans (List.prefix_append _ _), h.alike, h.encloses⟩
  write _ _ _ h hw := by
    obtain ⟨ha, he⟩ := write_within h.encloses hs hw
    exact ⟨h.journal, fun p hp => (ha p hp).trans (h.alike p hp), he⟩
  check v h := by
    dsimp only
    have hj := h.journal.trans (List.prefix_append v.journal (b.check tools v.journal v.tree).2.1)
    obtain hu | ⟨program, arguments, hu⟩ := b.check_tree tools v.journal v.tree
    · exact ⟨hj, by rw [hu]; exact h.alike, by rw [hu]; exact h.encloses⟩
    · refine ⟨hj, ?_, ?_⟩ <;> rw [hu]
      · exact fun p hp => (ht.outside _ _ _ _ _ p hp).trans (h.alike p hp)
      · exact ht.inside _ _ _ _ _ h.encloses

def Job.Promotes (job : Job) (w : World) (s : Save) : Prop :=
  ∃ path draft status, job.workspace.mapPath s.file = .ok path ∧ Draft.load w.tree path = .ok draft ∧
    (Repair.run job.team draft w).status = .ok status ∧ status ≠ .notNeeded ∧
    s.draft = (Repair.run job.team draft w).session.draft ∧
    s.seen = job.repaired s.file draft status w

section Process

variable {around : Surroundings} {order : Order} {job : Job} {result : FileResult}
  {done : List (String × FileResult)}

theorem Job.run_repair_within (hj : job.Fits around order r) (ht : around.tools.KeepTo (sandbox r))
    (hs : Spells draft.path (sandbox r ++ below)) (he : w.tree.Encloses (sandbox r)) :
    Within (sandbox r) w (Repair.run job.team draft w).session.world := by
  obtain ⟨b, hb⟩ := hj.checker
  refine Repair.run_keeps (I := Within (sandbox r) w) ?_
    ⟨List.prefix_refl _, fun _ _ => rfl, he⟩
  rw [hb]
  exact Within.keeps ht b hs

theorem Job.exists_spells (hj : job.Fits around order r) (hr : ∀ s ∈ r, IsName s)
    (hf : Spells file o) (hp : job.workspace.mapPath file = .ok path)
    (hl : Draft.load t path = .ok draft) : ∃ below, Spells draft.path (sandbox r ++ below) := by
  rw [hj.workspace] at hp
  obtain ⟨below, -, hs⟩ := mapPath_eq_ok hr hf hp
  exact ⟨below, (load_eq_ok hl).1 ▸ hs⟩

/-- Up to the promotion of a file nothing has changed outside of the sandbox. -/
theorem Job.Promotes.alike {s : Save} (h : job.Promotes w s) (hj : job.Fits around order r)
    (ht : around.tools.KeepTo (sandbox r)) (hr : ∀ s ∈ r, IsName s) (hf : Spells s.file o)
    (he : w.tree.Encloses (sandbox r)) : AlikeOutside (sandbox r) w.tree s.seen.tree := by
  obtain ⟨path, draft, status, hp, hl, -, -, -, hseen⟩ := h
  obtain ⟨below, hs⟩ := job.exists_spells hj hr hf hp hl
  rw [hseen]
  exact (job.run_repair_within hj ht hs he).alike

theorem Job.migrate_confined (hj : job.Fits around order r) (ht : around.tools.KeepTo (sandbox r))
    (hr : ∀ s ∈ r, IsName s) (hf : Spells file o) (he : w.tree.Encloses (sandbox r)) :
    let ended := (job.migrate file).run w
    ended.2.tree.Encloses (sandbox r) ∧
      Confined (sandbox r) (fun s => s.file = file ∧ job.Promotes w s ∧
        (∃ status, ended.1 = .ok (.done status .promoted)) ∧
        order.autoApprove = true ∧ order.dryRun = false) w ended.2 := by
  intro ended
  have hrun : ended = (job.migrate file).run w := rfl
  have hstart : Within (sandbox r) w w := ⟨List.prefix_refl _, fun _ _ => rfl, he⟩
  rw [job.run_migrate] at hrun
  cases hm : job.workspace.mapPath file with
  | error e =>
    rw [hm] at hrun
    exact hstart.ends hrun
  | ok path =>
  rw [hm] at hrun
  dsimp only at hrun
  cases hl : Draft.load w.tree path with
  | error e =>
    rw [hl] at hrun
    exact hstart.ends hrun
  | ok draft =>
  rw [hl] at hrun
  dsimp only at hrun
  obtain ⟨below, hs⟩ := job.exists_spells hj hr hf hm hl
  have hrepair := job.run_repair_within hj ht hs he
  cases hstatus : (Repair.run job.team draft w).status with
  | error e =>
    rw [hstatus] at hrun
    exact hrepair.ends hrun
  | ok status =>
  rw [hstatus] at hrun
  dsimp only at hrun
  have hwithin : Within (sandbox r) w (job.repaired file draft status w) := by
    refine ⟨hrepair.journal.trans ?_, hrepair.alike, hrepair.encloses⟩
    simp [repaired, World.log, World.announce, World.note]
  by_cases hn : status = .notNeeded
  · rw [if_pos hn] at hrun
    exact hwithin.ends hrun
  · rw [if_neg hn, job.run_promote, hj.answerer] at hrun
    obtain ⟨hencloses, hconfined⟩ := promote_confined
      (w := job.repaired file draft status w) job.gate file hwithin.encloses
      ((Repair.run_kept job.team draft w).1.symm ▸ hs)
    rw [hj.gate] at hrun hencloses hconfined
    rcases hpromote : (Promotion.promote ⟨order.dryRun, order.autoApprove⟩ nobody
      (Repair.run job.team draft w).session.draft file).run (job.repaired file draft status w)
      with ⟨e | decision, v⟩ <;> rw [hpromote] at hrun hencloses hconfined
    · rw [hrun]
      refine ⟨hencloses, hwithin.confined.trans (hconfined.imp ?_)⟩
      rintro s ⟨-, h, -⟩
      cases h
    · have htold : (ended.2.tree = v.tree) ∧ v.journal <+: ended.2.journal ∧
          ended.1 = .ok (.done status decision) := by
        rw [hrun]
        dsimp only
        split
        · exact ⟨rfl, List.prefix_append _ _, rfl⟩
        · exact ⟨rfl, List.prefix_refl _, rfl⟩
      refine ⟨htold.1 ▸ hencloses, (hwithin.confined.trans (hconfined.imp ?_)).trans
        (confined_of_alike htold.2.1 fun p _ => by rw [htold.1])⟩
      rintro s ⟨⟨hsf, hsd, hss⟩, hd, hflags⟩
      refine ⟨hsf, ⟨path, draft, status, hsf.symm ▸ hm, hl, hstatus, hn, hsd, hsf.symm ▸ hss⟩,
        ⟨status, ?_⟩, hflags⟩
      rw [htold.2.2]
      cases hd
      rfl

theorem Job.process_confined (hj : job.Fits around order r) (ht : around.tools.KeepTo (sandbox r))
    (hr : ∀ s ∈ r, IsName s) (hf : Spells file o) (he : w.tree.Encloses (sandbox r))
    (h : (job.process file (ε := RunError)).run w = (.ok result, w₁)) :
    w₁.tree.Encloses (sandbox r) ∧
      Confined (sandbox r) (fun s => s.file = file ∧ job.Promotes w s ∧ result.isPromoted = true ∧
        order.autoApprove = true ∧ order.dryRun = false) w w₁ := by
  obtain ⟨hencloses, hconfined⟩ := job.migrate_confined hj ht hr hf he
  rw [job.run_process] at h
  rcases hrun : (job.migrate file).run w with ⟨e | other, v⟩ <;>
    rw [hrun] at h hencloses hconfined <;> cases h
  · refine ⟨hencloses, (hconfined.imp ?_).trans
      (confined_of_alike (List.prefix_append _ _) fun _ _ => rfl)⟩
    rintro s ⟨-, -, ⟨status, h⟩, -⟩
    cases h
  · refine ⟨hencloses, hconfined.imp ?_⟩
    rintro s ⟨hs, hp, ⟨status, h⟩, hflags⟩
    cases h
    exact ⟨hs, hp, rfl, hflags⟩

def Job.Saves (job : Job) (w : World) (done : List (String × FileResult)) (s : Save) : Prop :=
  ∃ before result after w', done = before ++ (s.file, result) :: after ∧
    job.Processed w before w' ∧ result.isPromoted = true ∧ job.Promotes w' s

theorem Job.Processed.confined (h : job.Processed w done w₁) (hj : job.Fits around order r)
    (ht : around.tools.KeepTo (sandbox r)) (hr : ∀ s ∈ r, IsName s)
    (hf : ∀ x ∈ done, ∃ o, Spells x.1 o) (he : w.tree.Encloses (sandbox r)) :
    w₁.tree.Encloses (sandbox r) ∧ Confined (sandbox r) (fun s => job.Saves w done s ∧
      order.autoApprove = true ∧ order.dryRun = false) w w₁ := by
  induction h with
  | none w => exact ⟨he, confined_of_alike (List.prefix_refl _) fun _ _ => rfl⟩
  | @next w w₁ w₂ file result done begun ran others ih =>
    obtain ⟨o, ho⟩ := hf _ List.mem_cons_self
    obtain ⟨he₁, hfirst⟩ := job.process_confined hj ht hr ho he ran
    obtain ⟨he₂, hothers⟩ := ih (fun x hx => hf x (List.mem_cons_of_mem _ hx)) he₁
    refine ⟨he₂, (hfirst.imp ?_).trans (hothers.imp ?_)⟩
    · rintro s ⟨rfl, hs, hp, hflags⟩
      exact ⟨⟨[], result, done, w, rfl, .none w, hp, hs⟩, hflags⟩
    · rintro s ⟨⟨before, result', after, w', rfl, hw', hp, hs⟩, hflags⟩
      exact ⟨⟨(file, result) :: before, result', after, w', rfl, .next begun ran hw', hp, hs⟩, hflags⟩

end Process

section Whole

variable {around : Surroundings} {order : Order} {job : Job} {p : Plan} {s : Summary}
  {done : List (String × FileResult)} {rest : List String}

theorem conclude_alike (hr : ∀ s ∈ r, IsName s) (hl : ∀ o, o <+: r → ¬ w.tree.LinkAt o)
    (dryRun : Bool) (s : Summary) :
    let ended := (conclude (ofPlace r) dryRun s).run w
    w.journal <+: ended.2.journal ∧ AlikeOutside (sandbox r) w.tree ended.2.tree ∧
      ∀ e, ended.1 = .error e → ¬ e.IsEarly := by
  intro ended
  have hrun : ended = (conclude (ofPlace r) dryRun s).run w := rfl
  rw [run_conclude] at hrun
  split at hrun
  · rw [hrun]
    exact ⟨List.prefix_append _ _, fun _ _ => rfl, nofun⟩
  · have hcleanup := (cleanup_leads (P := (· = w)) (Q := fun v => w.journal <+: v.journal ∧
      AlikeOutside (sandbox r) w.tree v.tree) hr (by rintro v rfl; exact hl) (fun v hv => by
        subst hv
        exact ⟨List.prefix_append _ _, AlikeOutside.prune fun _ _ => rfl⟩) (fun v hv _ => by
        subst hv
        exact ⟨List.prefix_refl _, fun _ _ => rfl⟩)).ending w rfl
    rcases hc : (ofPlace r).cleanup.run w with ⟨e | _, v⟩ <;> rw [hc] at hrun hcleanup <;>
      rw [hrun]
    · rw [show v = w from hcleanup]
      refine ⟨List.prefix_refl _, fun _ _ => rfl, ?_⟩
      rintro _ ⟨⟩
      exact id
    · exact ⟨hcleanup.1.trans (List.prefix_append _ _), hcleanup.2, nofun⟩

theorem reaches_confined (hfresh : Fresh t r w₂.tree) (hs : t.Solid r)
    (hr : ∀ s ∈ r, IsName s) (hj : job.Fits around order r)
    (htools : around.tools.KeepTo (sandbox r)) {files : List String}
    (hf : ∀ file ∈ files, ∃ o, Spells file o) (hreaches : job.Reaches files w₂ done rest w₃) :
    Confined (sandbox r) (fun s => job.Saves w₂ done s ∧
      order.autoApprove = true ∧ order.dryRun = false) w₂
      ((conclude job.workspace order.dryRun s).run
        (w₃.notes (interruption rest done.length files.length))).2 ∧
    ∀ e, ((conclude job.workspace order.dryRun s).run
      (w₃.notes (interruption rest done.length files.length))).1 = .error e → ¬ e.IsEarly := by
  obtain ⟨-, hworked⟩ := hreaches.processed.confined hj htools hr (fun x hx =>
    hf x.1 (hreaches.mem hx)) (hfresh.unlinked hs).encloses
  have hl : ∀ o, o <+: r → ¬ w₃.tree.LinkAt o := fun o ho => by
    refine hworked.not_linkAt (sandbox_not_above ho) ?_
    rw [hfresh.outside.linkAt_iff (sandbox_not_above ho)]
    exact (hs o ho).2
  obtain ⟨hjournal, halike, hend⟩ := conclude_alike
    (w := w₃.notes (interruption rest done.length files.length)) hr hl order.dryRun s
  rw [hj.workspace]
  exact ⟨hworked.trans (confined_of_alike ((List.prefix_append _ _).trans hjournal) halike), hend⟩

end Whole

/-- Outside of its sandbox a run changes nothing but regular files, and those only if it may save
without asking: each of them is what the diff that was shown for it, against the file as it then was,
leads to. A run that fails before it has a workspace changes nothing there. -/
theorem migrate_isolated (around : Surroundings) (order : Order) (w : World) (ht : w.tree.Sound)
    (hd : ∀ s ∈ around.directory, IsName s)
    (htools : ∀ directory, sandboxOf around order w.tree = some directory →
      around.tools.KeepTo directory) :
    let ended := (migrate around order).run w
    ∀ q, (∀ directory, sandboxOf around order w.tree = some directory → ¬ directory <+: q) →
      ended.2.tree.get? q ≠ w.tree.get? q →
      order.autoApprove = true ∧ order.dryRun = false ∧
      (∀ e, ended.1 = .error e → ¬ e.IsEarly) ∧
      (∃ bytes runnable, w.tree.get? q = some (.file bytes runnable)) ∧
      ∃ p w₁ job w₂ done rest w₃, (plan around order).run w = (.ok p, w₁) ∧
        (setUp around order p).run w₁ = (.ok job, w₂) ∧ job.Reaches p.files w₂ done rest w₃ ∧
        ∃ s, job.Saves w₂ done s ∧ s.Wrote ended.2 q := by
  intro ended q hq hne
  obtain hsame | ⟨p, w₁, e, w₂, hplan, -, hsetUp, hrun⟩ | ⟨p, w₁, job, w₂, hplan, hfiles, hsetUp⟩ :=
    migrate_cases around order w
  · exact absurd (congrArg (Tree.get? · q) hsame) hne
  all_goals
    obtain ⟨⟨place, hfits⟩, hw₁⟩ := plan_leads.of_ok (rfl : Same w.tree w) hplan
    have hmade := (@setUp_leads w.tree around order p (Fresh w.tree)
      (fun r _ _ hr => fresh_made w.tree hr) ht).ending w₁ hw₁
    rw [hsetUp] at hmade
  · have hended : ended = (.error e, w₂) := hrun
    rw [hended] at hne
    obtain ⟨-, hsame | ⟨r, hc, halike⟩⟩ := hmade
    · exact absurd (congrArg (Tree.get? · q) (hsame : w₂.tree = w.tree)) hne
    · exact absurd (halike q (hq _ (sandboxOf_eq hfits hc))) hne
  · obtain ⟨r, ⟨hc, hs, hr, hj⟩, hfresh⟩ := hmade
    obtain ⟨done, rest, w₃, hreaches, hrun⟩ := migrate_reaches hplan hfiles hsetUp
    have hf : ∀ file ∈ p.files, ∃ o, Spells file o := fun file hm => by
      obtain ⟨o, ho, rfl⟩ := Sources.collect_eq_ok ht.named
        (canonical_passed w.tree.passed_names hd hfits.canonical) hfits.files file hm
      exact ⟨o, spells_text ho⟩
    obtain ⟨hconfined, hend⟩ := reaches_confined (s := counts done) hfresh hs hr hj
      (htools _ (sandboxOf_eq hfits hc)) hf hreaches
    rw [← hrun] at hconfined hend
    have hq := hq _ (sandboxOf_eq hfits hc)
    obtain hg | ⟨⟨bytes, runnable, hfile⟩, s, ⟨hsaves, happrove, hdry⟩, hwrote⟩ :=
      hconfined.places q hq
    · exact absurd (hg.trans (hfresh.outside q hq)) hne
    · exact ⟨happrove, hdry, hend, ⟨bytes, runnable, hfresh.outside q hq ▸ hfile⟩, p, w₁, job, w₂,
        done, rest, w₃, hplan, hsetUp, hreaches, s, hsaves, hwrote⟩

theorem migrate_isolated_trio :
    ((migrate attended wholeOrder).run ⟨trioTree, []⟩).2.tree.get? ["A.java"] ≠
      trioTree.get? ["A.java"] ∧
    ∃ p w₁ job w₂ done rest w₃, (plan attended wholeOrder).run ⟨trioTree, []⟩ = (.ok p, w₁) ∧
      (setUp attended wholeOrder p).run w₁ = (.ok job, w₂) ∧
      job.Reaches p.files w₂ done rest w₃ ∧
      ∃ s, job.Saves w₂ done s ∧
        s.Wrote ((migrate attended wholeOrder).run ⟨trioTree, []⟩).2 ["A.java"] := by
  obtain ⟨_, _, _, _, _, _, _, _, _, _, w', -, -, -, -, -, -, hrun, -, -, -, hsaved⟩ := trio_course
  have hne : ((migrate attended wholeOrder).run ⟨trioTree, []⟩).2.tree.get? ["A.java"] ≠
      trioTree.get? ["A.java"] := by
    rw [hrun, hsaved]
    decide +kernel
  have houtside : ∀ directory, sandboxOf attended wholeOrder trioTree = some directory →
      ¬ directory <+: ["A.java"] := fun directory h => by
    rw [sandboxOf_trio] at h
    cases h
    decide
  obtain ⟨-, -, -, -, h⟩ := migrate_isolated attended wholeOrder ⟨trioTree, []⟩ trioTree_sound nofun
    (fun _ _ => ⟨fun _ _ _ _ _ _ _ => rfl, fun _ _ _ _ _ h => h⟩) ["A.java"] houtside hne
  exact ⟨hne, h⟩

def planting : Surroundings :=
  { attended with
    tools := fun _ t _ _ _ => ⟨.code 0, ByteArray.empty, ByteArray.empty,
      t.put [".modernizer_sandbox", "A.java"] (.link "../B.java")⟩ }

/-- A build that writes in the sandbox alone can leave a link there that leads out of it. The draft
is then written where the link leads, though nothing is to be saved. -/
theorem migrate_planted :
    sandboxOf planting dryOrder trioTree = some [".modernizer_sandbox"] ∧
    (∀ history t program root arguments, AlikeOutside [".modernizer_sandbox"] t
      (planting.tools history t program root arguments).tree) ∧
    dryOrder.dryRun = true ∧
    ∃ w', (migrate planting dryOrder).run ⟨trioTree, []⟩ = (.ok (), w') ∧
      w'.tree.get? ["B.java"] ≠ trioTree.get? ["B.java"] := by
  refine ⟨by decide +kernel, fun _ t _ _ _ => ?_, rfl, ?_⟩
  · exact AlikeOutside.put (fun _ _ => rfl) (by decide) (by decide)
  have hrun : (migrate planting dryOrder).succeeds (fun _ w =>
      decide (w.tree.get? ["B.java"] =
        some (.file "reactor.core.publisher.Mono void init(){}".toUTF8 false)))
      ⟨trioTree, []⟩ = true := by
    decide +kernel
  obtain ⟨⟨⟩, w', hw', hwritten⟩ := Step.exists_of_succeeds hrun
  refine ⟨w', hw', ?_⟩
  rw [of_decide_eq_true hwritten]
  decide +kernel

end Run

end Refit
