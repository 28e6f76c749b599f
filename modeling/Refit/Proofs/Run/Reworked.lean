import Refit.Proofs.Run.Course
import Refit.Proofs.Run.Loop
import Refit.Proofs.Run.Told

/-!
The outcome of a run that nobody is asked in, file by file (`migrate_rulesOnly`). What becomes of a
file depends on its own text alone: the files are apart, and each is worked on once.
-/

namespace Refit.Run

open Refit.Path Refit.Tree Workspace

variable {t u : Tree} {r names p : Place} {done rels : List Place} {text : String}
  {bytes : ByteArray} {job : Job} {w w' : World}

/-- The text of a file that a run can work on: none in an excluded directory below the root, and
none where the bytes are no text. -/
def textOf (t : Tree) (r : Place) (file : String) : Option String :=
  if shown ((Path.ofText file).names.drop r.length) then (t.readText file).toOption else none

theorem holds_of_leadsTo (hu : t.Unlinked r) (hn : ∀ s ∈ r ++ names, IsName s)
    (h : t.LeadsTo (Place.text (r ++ names)) p bytes) : t.Holds (r ++ names) bytes := by
  obtain ⟨runnable, hs⟩ := h
  obtain rfl := spot_straight (spells_text hn) (fun _ hp => hu.not_linkAt hp) hs rfl
  exact ⟨runnable, (spot_file hs).2⟩

theorem textOf_eq_some (ht : t.Sound) (hu : t.Unlinked r) (hn : ∀ s ∈ r ++ names, IsName s) :
    textOf t r (Place.text (r ++ names)) = some text ↔
      shown names = true ∧ t.Holds (r ++ names) text.toUTF8 := by
  unfold textOf
  rw [(spells_text hn).names, List.drop_left]
  have hread : t.readText (Place.text (r ++ names)) = .ok text ↔
      t.Holds (r ++ names) text.toUTF8 := by
    constructor
    · intro h
      obtain ⟨p, hl⟩ := leadsTo_of_readText h
      exact holds_of_leadsTo hu hn hl
    · exact fun h => (leadsTo_of_holds ht h).readText
  rw [← hread]
  cases t.readText (Place.text (r ++ names)) with
  | error e => simp [Except.toOption]
  | ok text' => simp [Except.toOption]

structure Ready (t : Tree) (r : Place) (u : Tree) : Prop where
  sound : t.Sound
  unlinked : t.Unlinked r
  noFile : ¬ t.FileAt (sandbox r)
  alike : AlikeOutside (sandbox r) t u
  copySound : u.Sound
  copyUnlinked : u.Unlinked r
  copyRoot : u.get? (sandbox r) = some .directory
  copies : ∀ names bytes runnable, u.get? (sandbox r ++ names) = some (.file bytes runnable) ↔
    t.get? (r ++ names) = some (.file bytes runnable) ∧ shown names = true

theorem Ready.pair (h : Ready t r u) (hn : ∀ s ∈ r ++ names, IsName s)
    (ht : textOf t r (Place.text (r ++ names)) = some text) :
    names.head? ≠ some directoryName ∧ u.Holds (sandbox r ++ names) text.toUTF8 ∧
      u.Holds (r ++ names) text.toUTF8 := by
  obtain ⟨hshown, runnable, hg⟩ := (textOf_eq_some h.sound h.unlinked hn).mp ht
  have hhead : names.head? ≠ some directoryName := by
    intro hd
    obtain ⟨rest, rfl⟩ := List.head?_eq_some_iff.mp hd
    cases rest with
    | nil => exact h.noFile ⟨_, runnable, hg⟩
    | cons a rest =>
      have hx := isExcluded_of_shown hshown (s := directoryName) (by simp)
      revert hx
      decide
  refine ⟨hhead, ⟨runnable, (h.copies _ _ _).mpr ⟨hg, hshown⟩⟩, runnable, ?_⟩
  rw [h.alike _ (sandbox_not_above_append hhead)]
  exact hg

structure Reworked (t : Tree) (r : Place) (u : Tree) (done : List Place) (v : Tree) : Prop where
  shape : SameShape u v
  rest : ∀ p, (∀ names ∈ done, textOf t r (Place.text (r ++ names)) ≠ none →
    p ≠ r ++ names ∧ p ≠ sandbox r ++ names) → v.get? p = u.get? p
  texts : ∀ names ∈ done, ∀ text, textOf t r (Place.text (r ++ names)) = some text →
    v.Holds (r ++ names) (rewritten text).toUTF8

theorem reworked_nil (t : Tree) (r : Place) (u : Tree) : Reworked t r u [] u where
  shape := sameShape_refl u
  rest _ _ := rfl
  texts := nofun

theorem Ready.root (h : Ready t r u) : t.get? r = some .directory := by
  rw [← h.alike r (sandbox_not_above (List.prefix_refl r))]
  refine h.copySound.inDirectory r directoryName ?_
  have hroot := h.copyRoot
  rw [sandbox] at hroot
  rw [hroot]
  simp

theorem Ready.isDirectory_root (h : Ready t r u) (hr : ∀ s ∈ r, IsName s) (hs : t.Solid r) :
    t.isDirectory r.text = true :=
  isDirectory_eq_true.mpr ⟨r, entryAt_eq_ok.mpr
    ((spot_text_directory h.sound hr fun p hp => (hs p hp).2).mpr ⟨rfl, h.root⟩)⟩

theorem Ready.solid (h : Ready t r u) (hs : t.Solid r) : u.Solid r := by
  intro p hp
  have hu := h.alike p (sandbox_not_above hp)
  simp only [LinkAt, hu]
  exact hs p hp

theorem Reworked.untouched {v : Tree} (h : Reworked t r u done v) (hr : Ready t r u)
    (hd : ∀ names ∈ done, ∀ s ∈ r ++ names, IsName s) (hn : names ∉ done) :
    v.get? (sandbox r ++ names) = u.get? (sandbox r ++ names) ∧
      (names.head? ≠ some directoryName → v.get? (r ++ names) = u.get? (r ++ names)) := by
  refine ⟨h.rest _ fun other ho ht => ?_, fun hhead => h.rest _ fun other ho _ => ?_⟩
  · obtain ⟨text, ht⟩ := Option.ne_none_iff_exists'.mp ht
    have hhead := (hr.pair (hd other ho) ht).1
    refine ⟨fun he => ?_, fun he => hn (List.append_cancel_left he ▸ ho)⟩
    rw [sandbox_append] at he
    rw [← List.append_cancel_left he] at hhead
    exact hhead rfl
  · refine ⟨fun he => hn (List.append_cancel_left he ▸ ho), fun he => ?_⟩
    rw [sandbox_append] at he
    rw [List.append_cancel_left he] at hhead
    exact hhead rfl

def tally (s : Summary) : Option String → Summary
  | none => { s with failed := s.failed + 1 }
  | some text => s.countDecision (decisionOn text)

theorem process_reworked (hj : job.RulesOnly r) (hready : Ready t r u) (hr : ∀ s ∈ r, IsName s)
    (hd : ∀ names ∈ done, ∀ s ∈ r ++ names, IsName s) (hn : names ∉ done) (hne : names ≠ [])
    (hname : ∀ s ∈ names, IsName s) (h : Reworked t r u done w.tree) :
    ∃ result w', (job.process (Place.text (r ++ names)) (ε := RunError)).run w = (.ok result, w') ∧
      (∀ s : Summary, s.record result = tally s (textOf t r (Place.text (r ++ names)))) ∧
      Reworked t r u (done ++ [names]) w'.tree := by
  have hmap := mapPath_text hr hne hname
  have hfile := named_append hr hname
  obtain ⟨hcopy, horiginal⟩ := h.untouched hready hd hn
  cases ht : textOf t r (Place.text (r ++ names)) with
  | some text =>
    obtain ⟨hhead, hc, ho⟩ := hready.pair hfile ht
    have hpair : Paired w.tree (Place.text (sandbox r ++ names)) (Place.text (r ++ names))
        (sandbox r ++ names) (r ++ names) text := by
      refine ⟨(sandbox_append_ne r names).symm, ?_, ?_⟩
      · exact (leadsTo_of_holds hready.copySound hc).sameShape h.shape (hc.congr hcopy)
      · exact (leadsTo_of_holds hready.copySound ho).sameShape h.shape (ho.congr (horiginal hhead))
    obtain ⟨status, w', hrun, hv, hs⟩ := process_text hj hmap hpair
    refine ⟨_, w', hrun, fun s => by simp [Summary.record, hv, tally], ?_, fun p hp => ?_, ?_⟩
    · exact h.shape.trans (hs.sameShape hpair.copy.holds.fileAt hpair.original.holds.fileAt)
    · obtain ⟨ho', hc'⟩ := hp names (by simp) (by simp [ht])
      rw [hs.elsewhere p hc' ho']
      exact h.rest p fun other hm => hp other (List.mem_append_left _ hm)
    · intro other hm text' ht'
      obtain hm | hm := List.mem_append.mp hm
      · have hne' : other ≠ names := fun he => hn (he ▸ hm)
        refine (h.texts other hm text' ht').congr (hs.elsewhere _ ?_ fun he =>
          hne' (List.append_cancel_left he))
        intro he
        have hhead' := (hready.pair (hd other hm) ht').1
        rw [sandbox_append] at he
        rw [List.append_cancel_left he] at hhead'
        exact hhead' rfl
      · obtain rfl := List.mem_singleton.mp hm
        rw [ht] at ht'
        cases ht'
        exact hs.original
  | none =>
    have hload : ∀ text, w.tree.readText (Place.text (sandbox r ++ names)) ≠ .ok text := by
      intro text hread
      obtain ⟨p, runnable, hspot⟩ := leadsTo_of_readText hread
      obtain rfl := spot_straight (spells_text (named_append (named_sandbox hr) hname))
        (fun q hq => h.shape.not_linkAt (by
          rw [sandbox_append] at hq
          exact hready.copyUnlinked.not_linkAt hq)) hspot rfl
      have hg := (spot_file hspot).2
      rw [hcopy] at hg
      obtain ⟨hg, hshown⟩ := (hready.copies _ _ _).mp hg
      rw [(textOf_eq_some hready.sound hready.unlinked hfile).mpr ⟨hshown, runnable, hg⟩] at ht
      cases ht
    obtain ⟨w', hrun, hw⟩ := process_failed hj hmap hload
    refine ⟨_, w', hrun, fun _ => rfl, hw ▸ h.shape, fun p hp => ?_, fun other hm text' ht' => ?_⟩
    · rw [hw]
      exact h.rest p fun other hm => hp other (List.mem_append_left _ hm)
    · obtain hm | hm := List.mem_append.mp hm
      · rw [hw]
        exact h.texts other hm text' ht'
      · rw [List.mem_singleton.mp hm, ht] at ht'
        cases ht'

theorem migrateAll_reworked (hj : job.RulesOnly r) (hready : Ready t r u)
    (hr : ∀ s ∈ r, IsName s) (total : Nat) {s s' : Summary}
    (hd : ∀ names ∈ done, ∀ s ∈ r ++ names, IsName s)
    (hrels : ∀ names ∈ rels, names ≠ [] ∧ ∀ s ∈ names, IsName s) (hn : (done ++ rels).Nodup)
    (h : Reworked t r u done w.tree)
    (hrun : (migrateAll job total s (rels.map fun names => Place.text (r ++ names))).run w =
      (.ok s', w')) :
    (∃ n k, Event.notice (.interrupted n k) ∈ w'.journal) ∨
      Reworked t r u (done ++ rels) w'.tree ∧
        s' = rels.foldl (fun s names => tally s (textOf t r (Place.text (r ++ names)))) s := by
  induction rels generalizing done s w with
  | nil =>
    cases hrun
    rw [List.append_nil]
    exact .inr ⟨h, rfl⟩
  | cons names rels ih =>
    rw [List.map_cons, migrateAll] at hrun
    obtain ⟨_, w₁, h₁, hrun⟩ := Step.bind_eq_ok hrun
    cases h₁
    split at hrun
    · cases hrun
      exact .inl ⟨_, _, List.mem_append_right _ (List.mem_singleton.mpr rfl)⟩
    · obtain ⟨result, w₂, h₂, hrun⟩ := Step.bind_eq_ok hrun
      obtain ⟨hne, hname⟩ := hrels names List.mem_cons_self
      have hnot : names ∉ done := fun hm =>
        (List.nodup_append.mp hn).2.2 names hm names List.mem_cons_self rfl
      obtain ⟨result', w₂', h₂', hcount, hw₂⟩ :=
        process_reworked hj hready hr hd hnot hne hname h
      rw [h₂] at h₂'
      cases h₂'
      rw [List.append_cons] at hn ⊢
      have hd' : ∀ other ∈ done ++ [names], ∀ s ∈ r ++ other, IsName s := by
        intro other hm
        obtain hm | hm := List.mem_append.mp hm
        · exact hd other hm
        · rw [List.mem_singleton.mp hm]
          exact named_append hr hname
      obtain hi | ⟨hw, hs⟩ := ih hd' (fun other hm => hrels other (List.mem_cons_of_mem _ hm)) hn
        hw₂ hrun
      · exact .inl hi
      · refine .inr ⟨hw, ?_⟩
        rw [hs, hcount, List.foldl_cons]

/-- How the files of a run count. -/
def tallied (texts : List (Option String)) : Summary where
  promoted := texts.countP fun x => x.any fun text => rewritten text != text
  skipped := 0
  unchanged := texts.countP fun x => x.any fun text => rewritten text == text
  failed := texts.countP fun x => x.isNone
  unverified := 0

theorem foldl_tally (texts : List (Option String)) (s : Summary) :
    texts.foldl tally s = { s with
      promoted := s.promoted + texts.countP fun x => x.any fun text => rewritten text != text
      unchanged := s.unchanged + texts.countP fun x => x.any fun text => rewritten text == text
      failed := s.failed + texts.countP fun x => x.isNone } := by
  induction texts generalizing s with
  | nil => rfl
  | cons x texts ih =>
    rw [List.foldl_cons, ih]
    cases x with
    | none => simp [tally, Nat.add_assoc, Nat.add_comm]
    | some text =>
      by_cases hs : rewritten text = text
      · simp [tally, decisionOn, hs, Summary.countDecision, Nat.add_assoc, Nat.add_comm]
      · simp [tally, decisionOn, hs, Summary.countDecision, Nat.add_assoc, Nat.add_comm]

/-- What is left of a run once its sandbox is gone. -/
theorem Reworked.cleared {v : Tree} (h : Reworked t r u rels v) (hready : Ready t r u)
    (hr : ∀ s ∈ r, IsName s) (hrels : ∀ names ∈ rels, names ≠ [] ∧ ∀ s ∈ names, IsName s) :
    (∀ names ∈ rels, ∀ text, textOf t r (Place.text (r ++ names)) = some text →
      (v.prune (sandbox r)).readText (Place.text (r ++ names)) = .ok (rewritten text)) ∧
    ∀ p, ¬ sandbox r <+: p → (∀ names ∈ rels, textOf t r (Place.text (r ++ names)) ≠ none →
      Place.text (r ++ names) ≠ Place.text p) → (v.prune (sandbox r)).get? p = t.get? p := by
  refine ⟨fun names hm text ht => ?_, fun p hp hother => ?_⟩
  · obtain ⟨hhead, -⟩ := hready.pair (named_append hr (hrels names hm).2) ht
    have hout : (v.prune (sandbox r)).get? (r ++ names) = v.get? (r ++ names) :=
      (get?_of_prune rfl (sandbox_not_above_append hhead)).symm
    exact (leadsTo_of_holds (h.shape.sound hready.copySound).prune
      ((h.texts names hm text ht).congr hout)).readText
  · rw [← get?_of_prune rfl hp, h.rest p, hready.alike p hp]
    exact fun names hm ht => ⟨fun he => hother names hm ht (by rw [he]),
      fun he => hp (he ▸ List.prefix_append _ _)⟩

theorem foldl_tally_empty (texts : List (Option String)) :
    texts.foldl tally {} = tallied texts := by
  rw [foldl_tally]
  simp [tallied]

section Whole

variable {around : Surroundings} {order : Order} {plan : Plan} {w₁ : World}

theorem find?_webFlux {target : String} {strategy : Strategy}
    (h : Strategy.find? target = some strategy) : strategy = Strategy.webFlux :=
  List.mem_singleton.mp (List.mem_of_find?_eq_some h)

theorem plan_rulesOnly (h : (Run.plan around order).run w = (.ok plan, w₁))
    (hkeys : ∀ s, Settings.load w.tree plan.root around.environment = .ok s →
      s.hasAnyKey = false) :
    plan.strategy = Strategy.webFlux ∧ plan.client = none := by
  unfold Run.plan at h
  rw [Step.run_tree_bind] at h
  obtain ⟨place, _, hplace, hrest⟩ := Step.bind_eq_ok h
  obtain ⟨-, rfl⟩ := Step.ofExcept_eq_ok hplace
  clear h
  dsimp only at hrest
  split at hrest
  · rename_i strategy hstrategy
    rw [Step.run_pure_bind, Step.run_tree_bind, Step.log, Step.run_note_bind,
      Step.run_tree_bind] at hrest
    obtain ⟨settings, _, hsettings, hrest⟩ := Step.bind_eq_ok hrest
    obtain ⟨hload, rfl⟩ := Step.ofExcept_eq_ok hsettings
    obtain ⟨client, w₃, hclient, hrest⟩ := Step.bind_eq_ok hrest
    rw [Step.run_tree_bind] at hrest
    obtain ⟨files, _, hfiles, hrest⟩ := Step.bind_eq_ok hrest
    cases hrest
    refine ⟨find?_webFlux hstrategy, ?_⟩
    have hkey := hkeys settings hload
    unfold client? at hclient
    rw [if_neg (by simp [hkey])] at hclient
    cases hclient
    rfl
  · obtain ⟨_, _, hs, -⟩ := Step.bind_eq_ok hrest
    exact absurd (congrArg Prod.fst hs) (by simp)

theorem setUp_ready (ht : w.tree.Sound) (ho : w.tree.Single)
    (hroot : w.tree.canonical [] plan.root = .ok r) (hl : ∀ p, r <+: p → ¬ w.tree.LinkAt p)
    (hplan : plan.strategy = Strategy.webFlux ∧ plan.client = none)
    (horder : order.dryRun = false ∧ order.autoApprove = true)
    (h : (setUp around order plan).run w = (.ok job, w')) :
    (∀ s ∈ r, IsName s) ∧ w.tree.Solid r ∧ job.RulesOnly r ∧ Ready w.tree r w'.tree := by
  obtain ⟨r', b, w₂, hr', hr, hs, rfl, -, hcreate, hw₂⟩ := setUp_eq_ok h
  obtain rfl : r = r' := Except.ok.inj (hroot.symm.trans hr')
  obtain ⟨halike, hsound, hunlinked, hnoFile, hcopyRoot, hcopies⟩ := create_plain ht ho hr hs hl hcreate
  have hready := Ready.mk ht (hs.unlinked hl) hnoFile halike hsound hunlinked hcopyRoot hcopies
  rw [← hw₂] at hready
  refine ⟨hr, hs, ⟨rfl, hplan.1, ?_, ?_⟩, hready⟩
  · simp [team, hplan.2]
  · rw [horder.1, horder.2]

theorem conclude_cleared {ws : Workspace} {s : Summary} {a : Unit}
    (h : (conclude ws false s).run w = (.ok a, w')) :
    ∃ w₁, ws.cleanup.run w = (.ok (), w₁) ∧ w' = w₁.announce (.summary s false) := by
  unfold conclude at h
  rw [if_neg (by simp)] at h
  obtain ⟨_, w₁, hcleanup, hrest⟩ := Step.bind_eq_ok h
  refine ⟨w₁, ?_, Step.note_eq_ok hrest⟩
  have hcleanup : ((ws.cleanup.run w).1.mapError RunError.cleanup, (ws.cleanup.run w).2) =
      (.ok (), w₁) := hcleanup
  rcases hc : ws.cleanup.run w with ⟨e | _, w₂⟩ <;> rw [hc] at hcleanup <;> cases hcleanup
  rfl

/-- A run for the rules alone, below a directory without links, that nobody is asked in and that has
gone through. -/
structure Unattended (around : Surroundings) (order : Order) (w : World) (place r : Place)
    (files : List String) (w' : World) : Prop where
  sound : w.tree.Sound
  single : w.tree.Single
  solid : w.tree.Solid around.directory
  canonical : w.tree.canonical around.directory order.path = .ok place
  root : w.tree.canonical [] (ProjectRoot.find w.tree place.text) = .ok r
  unlinked : ∀ p, r <+: p → ¬ w.tree.LinkAt p
  found : Sources.collect w.tree place.text = .ok files
  nonempty : files ≠ []
  noKey : ∀ s, Settings.load w.tree (ProjectRoot.find w.tree place.text) around.environment =
    .ok s → s.hasAnyKey = false
  approved : order.dryRun = false ∧ order.autoApprove = true
  passed : (migrate around order).run w = (.ok (), w')
  going : ∀ n k, Event.notice (.interrupted n k) ∉ w'.journal

theorem Unattended.reworked (h : Unattended around order w place r files w') :
    (∀ s ∈ r, IsName s) ∧ ∃ rels u v, files = rels.map (fun names => Place.text (r ++ names)) ∧
      (∀ names ∈ rels, names ≠ [] ∧ ∀ s ∈ names, IsName s) ∧ Ready w.tree r u ∧
      Reworked w.tree r u rels v ∧ w'.tree = v.prune (sandbox r) ∧
      (∃ told, w'.journal = w.journal ++ told ∧ ∀ e ∈ told, e.isTool = false) ∧
      w'.journal.getLast? =
        some (.notice (.summary (tallied (files.map (textOf w.tree r))) false)) := by
  obtain ⟨plan, w₁, hplan, hrest⟩ := Step.bind_eq_ok h.passed
  obtain ⟨⟨place', hfits⟩, hw₁⟩ := plan_leads.of_ok (rfl : Same w.tree w) hplan
  obtain rfl : place = place' := Except.ok.inj (h.canonical.symm.trans hfits.canonical)
  obtain rfl : files = plan.files := Except.ok.inj (h.found.symm.trans hfits.files)
  have hw₁ : w₁.tree = w.tree := hw₁
  have hnobody := plan_rulesOnly hplan fun s hs => h.noKey s (hfits.root ▸ hs)
  split at hrest
  · exact absurd ‹_› h.nonempty
  obtain ⟨job, w₂, hjob, hrest⟩ := Step.bind_eq_ok hrest
  obtain ⟨s, w₃, hall, hrest⟩ := Step.bind_eq_ok hrest
  rw [h.approved.1] at hrest
  obtain ⟨hr, hs, hj, hready⟩ := setUp_ready (hw₁ ▸ h.sound) (hw₁ ▸ h.single)
    (by rw [hw₁, hfits.root]; exact h.root) (hw₁ ▸ h.unlinked) hnobody h.approved hjob
  rw [hw₁] at hs hready
  have hcwd := named_of_get? h.sound (h.solid _ (List.prefix_refl _)).1
  have hplace := canonical_passed w.tree.passed_names hcwd h.canonical
  have habove := ProjectRoot.canonical_find hplace
    (canonical_passed w.tree.passed_solid h.solid h.canonical) h.root
  obtain ⟨hnodup, hfound⟩ := Sources.collect_found h.sound h.single hplace h.found
  obtain ⟨rels, hrels, hnames⟩ := Sources.exists_rels habove (hready.isDirectory_root hr hs) hfound
  have hplanned := (preparing_plan around order).untooled w
  have hprepared := (preparing_setUp around order plan).untooled w₁
  have hworked := untooled_migrateAll hj plan.files.length {} plan.files w₂
  have hconcluded := untooled_conclude job.workspace false s w₃
  rw [hplan] at hplanned
  rw [hjob] at hprepared
  rw [hall] at hworked
  rw [hrest] at hconcluded
  rw [hrels] at hall hnodup
  obtain ⟨n, k, hi⟩ | ⟨hwork, hcount⟩ := migrateAll_reworked hj hready hr _
    (fun _ hm => absurd hm List.not_mem_nil) hnames
    (List.Pairwise.of_map _ (fun _ _ hne he => hne (by rw [he])) hnodup) (reworked_nil _ _ _) hall
  · obtain ⟨concluded, hj', -⟩ := hconcluded
    exact absurd (hj' ▸ List.mem_append_left concluded hi) (h.going n k)
  rw [List.nil_append] at hwork
  obtain ⟨w₄, hcleanup, rfl⟩ := conclude_cleared (hj.workspace ▸ hrest)
  have hw₄ := cleanup_cleared (hwork.shape.sound hready.copySound) hr
    (hwork.shape.solid (hready.solid hs)) hcleanup
  refine ⟨hr, rels, w₂.tree, w₃.tree, hrels, hnames, hready, hwork, hw₄,
    Step.told_trans hplanned (Step.told_trans hprepared (Step.told_trans hworked hconcluded)), ?_⟩
  have hsum : s = tallied (plan.files.map (textOf w.tree r)) := by
    rw [hrels, hcount, List.map_map, ← foldl_tally_empty, List.foldl_map]
    rfl
  rw [← hsum]
  exact List.getLast?_concat

theorem Unattended.readText (h : Unattended around order w place r files w') {file : String}
    (hfile : file ∈ files) {text : String} (htext : textOf w.tree r file = some text) :
    w'.tree.readText file = .ok (rewritten text) := by
  obtain ⟨hr, rels, u, v, rfl, hnames, hready, hwork, hw', -⟩ := h.reworked
  obtain ⟨names, hm, rfl⟩ := List.mem_map.mp hfile
  rw [hw']
  exact (hwork.cleared hready hr hnames).1 names hm text htext

/-- A run for the rules alone, once it has gone through: every file with a text is rewritten, each
by itself, and nothing else differs. The sandbox is gone, no build tool has been called, and the
summary counts the files by what has become of their texts. -/
theorem migrate_rulesOnly {place : Place} {files : List String} (ht : w.tree.Sound)
    (ho : w.tree.Single) (hcwd : w.tree.Solid around.directory)
    (hplace : w.tree.canonical around.directory order.path = .ok place)
    (hroot : w.tree.canonical [] (ProjectRoot.find w.tree place.text) = .ok r)
    (hl : ∀ p, r <+: p → ¬ w.tree.LinkAt p)
    (hfiles : Sources.collect w.tree place.text = .ok files) (hne : files ≠ [])
    (hkeys : ∀ s, Settings.load w.tree (ProjectRoot.find w.tree place.text) around.environment =
      .ok s → s.hasAnyKey = false)
    (horder : order.dryRun = false ∧ order.autoApprove = true)
    (hrun : (migrate around order).run w = (.ok (), w'))
    (hgo : ∀ n k, Event.notice (.interrupted n k) ∉ w'.journal) :
    (∀ file ∈ files, ∀ text, textOf w.tree r file = some text →
      w'.tree.readText file = .ok (rewritten text)) ∧
    (∀ p, ¬ sandbox r <+: p →
      (∀ file ∈ files, textOf w.tree r file ≠ none → file ≠ Place.text p) →
      w'.tree.get? p = w.tree.get? p) ∧
    (∀ p, sandbox r <+: p → w'.tree.get? p = none) ∧
    (∃ told, w'.journal = w.journal ++ told ∧ ∀ e ∈ told, e.isTool = false) ∧
    w'.journal.getLast? = some (.notice (.summary (tallied (files.map (textOf w.tree r))) false)) := by
  have h : Unattended around order w place r files w' :=
    ⟨ht, ho, hcwd, hplace, hroot, hl, hfiles, hne, hkeys, horder, hrun, hgo⟩
  obtain ⟨hr, rels, u, v, rfl, hnames, hready, hwork, hw', htold, hlast⟩ := h.reworked
  obtain ⟨-, hothers⟩ := hwork.cleared hready hr hnames
  refine ⟨fun file hfile text htext => h.readText hfile htext, ?_, fun p hp => ?_, htold, hlast⟩
  · intro p hp hother
    rw [hw']
    exact hothers p hp fun names hnames htext => hother _ (List.mem_map_of_mem hnames) htext
  · rw [hw']
    exact get?_prune_sandbox hp

theorem unattended_trio : ∃ w', Unattended alone wholeOrder ⟨trioTree, []⟩ [] []
    ["/A.java", "/B.java", "/C.java"] w' := by
  have hsettings : (Settings.load trioTree "/" alone.environment).toOption.any
      (fun s => !s.hasAnyKey) = true := by
    decide +kernel
  have hplan := @plan_top trioTree alone [["A.java"], ["B.java"], ["C.java"]] rfl
    (by decide +kernel) hsettings (by decide +kernel) (by decide)
  have hrun : (migrateFiles alone wholeOrder ⟨"/", Strategy.webFlux, none, "/",
      ["/A.java", "/B.java", "/C.java"]⟩).succeeds (fun _ w => w.journal.all fun
        | .notice (.interrupted _ _) => false
        | _ => true) ⟨trioTree, [.log (rootRecord "/"), .notice .noKey]⟩ = true := by
    decide +kernel
  obtain ⟨⟨⟩, w', hw', hgo⟩ := Step.exists_of_succeeds hrun
  refine ⟨w', {
    sound := trioTree_sound
    single := trioTree_single
    solid := solid_nil trioTree
    canonical := rfl
    root := by decide +kernel
    unlinked := fun p _ => trioTree_linkFree p
    found := @Sources.collect_top trioTree [["A.java"], ["B.java"], ["C.java"]]
      (by decide +kernel) (by decide)
    nonempty := by decide
    noKey := fun s hs => ?_
    approved := ⟨rfl, rfl⟩
    passed := ?_
    going := fun n k hm => Bool.noConfusion (List.all_eq_true.mp hgo _ hm) }⟩
  · have hroot : ProjectRoot.find trioTree (Place.text []) = "/" := by decide +kernel
    rw [hroot] at hs
    simpa [hs, Except.toOption] using hsettings
  · unfold migrate
    rw [Step.run_bind, hplan]
    exact hw'

theorem migrate_rulesOnly_trio :
    ∃ w', (migrate alone wholeOrder).run ⟨trioTree, []⟩ = (.ok (), w') ∧
      w'.tree.readText "/A.java" =
        .ok "reactor.core.publisher.Mono public void start(Promise<Void> startFuture)\x7b\x7d" ∧
      w'.tree.get? ["C.java"] = trioTree.get? ["C.java"] ∧
      w'.tree.get? [".modernizer_sandbox"] = none ∧
      w'.journal.getLast? =
        some (.notice (.summary { promoted := 1, unchanged := 1, failed := 1 } false)) := by
  obtain ⟨w', h⟩ := unattended_trio
  obtain ⟨htexts, hothers, hgone, -, hsum⟩ := migrate_rulesOnly h.sound h.single h.solid h.canonical
    h.root h.unlinked h.found h.nonempty h.noKey h.approved h.passed h.going
  have hread : textOf trioTree [] "/A.java" =
      some "io.vertx.core.Promise public void start(Promise<Void> startFuture)\x7b\x7d" := by
    decide +kernel
  refine ⟨w', h.passed, ?_, hothers ["C.java"] (by decide) ?_, hgone _ (by decide), ?_⟩
  · rw [htexts "/A.java" (by simp) _ hread]
    decide +kernel
  · decide +kernel
  · rw [hsum]
    decide +kernel

end Whole

end Refit.Run
