import Mathlib.Data.List.Basic
import Mathlib.Data.List.Find
import Refit.Proofs.ProjectRoot.Above
import Refit.Proofs.Run.Course
import Refit.Proofs.Workspace.Unseen

namespace Refit

open Refit.Path Refit.Tree Workspace

variable {t u : Tree} {r q a place start : Place} {path : String} {names : List String}

def consulted : List Place :=
  [["pom.xml"], ["build.gradle"], ["build.gradle.kts"], [".ignore"], [".gitignore"],
   [".git", "info", "exclude"]]

namespace Ignore

/-- The directory that a file in the place of a repository's directory leads to. -/
def ownDirectory? (t : Tree) (directory : String) : Option String :=
  (firstLine t (joinPath directory ".git")).bind fun line =>
    if linkMark.toList.isPrefixOf line.toList then
      some (String.ofList (line.toList.drop linkMark.length))
    else none

/-- What is looked for in the directory of such a repository. -/
def elsewhere (t : Tree) (directory : String) : List String :=
  if t.isFile (joinPath directory ".git") then
    match ownDirectory? t directory with
    | some own =>
      joinPath own "commondir" :: ((repositoryDirectory t directory).map Rules.excludePath).toList
    | none => []
  else []

theorem repositoryDirectory_eq (t : Tree) (directory : String) :
    repositoryDirectory t directory =
      if t.isFile (joinPath directory ".git") then
        (ownDirectory? t directory).bind fun own =>
          (firstLine t (joinPath own "commondir")).bind fun common =>
            some (if common.toList.head? = some '.' then joinPath own common else common)
      else some (joinPath directory ".git") := by
  unfold repositoryDirectory ownDirectory?
  simp only [Option.bind_eq_bind, Option.pure_def]
  by_cases hf : t.isFile (joinPath directory ".git") = true
  · rw [if_pos hf, if_pos hf]
    cases firstLine t (joinPath directory ".git") with
    | none => rfl
    | some line =>
      rw [Option.bind_some, Option.bind_some]
      by_cases hm : linkMark.toList.isPrefixOf line.toList = true
      · rw [if_pos hm, if_pos hm, Option.bind_some]
      · rw [if_neg hm, if_neg hm, Option.bind_none]
  · rw [if_neg hf, if_neg hf]

theorem mem_elsewhere {directory own : String} (hf : t.isFile (joinPath directory ".git") = true)
    (ho : ownDirectory? t directory = some own) :
    path ∈ elsewhere t directory ↔ path = joinPath own "commondir" ∨
      ∃ repository, repositoryDirectory t directory = some repository ∧
        path = Rules.excludePath repository := by
  unfold elsewhere
  rw [if_pos hf, ho]
  simp only [List.mem_cons, Option.mem_toList, Option.map_eq_some_iff, eq_comm (a := path)]

end Ignore

/-- Neither a project nor the directories above it lead into the sandbox: there is no link outside
the sandbox, as far as the directories above the project are looked at, and the repositories that
files stand for are not looked for in the sandbox. -/
structure Secluded (t : Tree) (r : Place) : Prop where
  project : ∀ p, r <+: p → ¬ sandbox r <+: p → ¬ t.LinkAt p
  above : ∀ a, a <+: r → ∀ names ∈ consulted, ∀ n, n <+: names → ¬ t.LinkAt (a ++ n)
  repository : ∀ a : Place, (∀ s ∈ a, IsName s) → a <+: r ∨ r <+: a → ¬ sandbox r <+: a →
    ∀ path ∈ Ignore.elsewhere t a.text, Shuns t r [] path

/-- Two trees that differ in the sandbox of a secluded project only. -/
structure Unseen (t u : Tree) (r : Place) : Prop where
  alike : AlikeOutside (sandbox r) t u
  named : ∀ s ∈ r, IsName s
  solid : t.Solid r
  secluded : Secluded t r

/-- A place of the project or above it, and not in the sandbox. -/
structure Near (r a : Place) : Prop where
  named : ∀ s ∈ a, IsName s
  comparable : a <+: r ∨ r <+: a
  outside : ¬ sandbox r <+: a

theorem Near.of_prefix (h : Near r place) (hr : r <+: place) (ha : a <+: place) : Near r a where
  named s hs := h.named s (ha.subset hs)
  comparable := List.prefix_or_prefix_of_prefix ha hr
  outside hs := h.outside (hs.trans ha)

theorem prefix_append_cases {p : Place} (h : p <+: a ++ names) :
    p <+: a ∨ ∃ n, n <+: names ∧ p = a ++ n := by
  obtain hp | ⟨n, rfl⟩ := List.prefix_or_prefix_of_prefix h (List.prefix_append a names)
  · exact .inl hp
  · exact .inr ⟨n, (List.prefix_append_right_inj a).mp h, rfl⟩

theorem consulted_names (hc : names ∈ consulted) :
    (∀ s ∈ names, IsName s) ∧ directoryName ∉ names := by
  have h : ∀ names ∈ consulted, (∀ s ∈ names, IsName s) ∧ directoryName ∉ names := by decide
  exact h names hc

theorem outside_append (ha : ¬ sandbox r <+: a) (hn : directoryName ∉ names) :
    ¬ sandbox r <+: a ++ names := by
  intro hs
  obtain hs | ⟨n, hp, he⟩ := prefix_append_cases hs
  · exact ha hs
  · obtain rfl | ⟨n, s, rfl⟩ := List.eq_nil_or_concat n
    · rw [List.append_nil] at he
      exact ha (he ▸ List.prefix_refl _)
    · rw [sandbox, List.concat_eq_append, ← List.append_assoc] at he
      obtain ⟨-, he⟩ := List.append_inj' he rfl
      rw [← List.singleton_inj.mp he] at hp
      exact hn (hp.subset (by simp))

theorem joinPath_name {s : String} (ha : ∀ b ∈ a, IsName b) (hs : IsName s) :
    joinPath a.text s = Place.text (a ++ [s]) := by
  rw [← joinPath_text ha (List.cons_ne_nil s []) (by simpa using hs), mk_single_text]

namespace Unseen

theorem plain (h : Unseen t u r) (ha : Near r a) : Plain t r a where
  named := ha.named
  unlinked p hp := by
    have hproject : r <+: p → ¬ t.LinkAt p := fun hr =>
      h.secluded.project p hr fun hs => ha.outside (hs.trans hp)
    obtain har | har := ha.comparable
    · exact (h.solid p (hp.trans har)).2
    · obtain hpr | hpr := List.prefix_or_prefix_of_prefix hp har
      · exact (h.solid p hpr).2
      · exact hproject hpr
  outside := ha.outside

theorem agree (h : Unseen t u r) (ha : Near r a) : AgreeAt t u a.text :=
  agree_text h.alike (h.plain ha)

theorem agree_consulted (h : Unseen t u r) (ha : Near r a) {n : List String}
    (hc : names ∈ consulted) (hn : n <+: names) : AgreeAt t u (Place.text (a ++ n)) := by
  have hnames := consulted_names hc
  have houtside : ¬ sandbox r <+: a ++ n :=
    outside_append ha.outside fun hm => hnames.2 (hn.subset hm)
  have hnamed := named_append ha.named fun s hs => hnames.1 s (hn.subset hs)
  refine agree_text h.alike ⟨hnamed, fun p hp => ?_, houtside⟩
  obtain hp' | ⟨m, hm, rfl⟩ := prefix_append_cases hp
  · exact (h.plain ha).unlinked p hp'
  · obtain har | har := ha.comparable
    · exact h.secluded.above a har names hc m (hm.trans hn)
    · exact h.secluded.project _ (har.trans (List.prefix_append a m)) fun hs =>
        houtside (hs.trans hp)

theorem agree_name (h : Unseen t u r) (ha : Near r a) {s : String} (hc : names ∈ consulted)
    (hs : [s] <+: names) : AgreeAt t u (joinPath a.text s) := by
  have hagree := h.agree_consulted ha hc hs
  rwa [← joinPath_name ha.named ((consulted_names hc).1 s (hs.subset (by simp)))] at hagree

theorem agree_git (h : Unseen t u r) (ha : Near r a) : AgreeAt t u (joinPath a.text ".git") :=
  h.agree_name ha (show [".git", "info", "exclude"] ∈ consulted by simp [consulted])
    (List.prefix_append [".git"] ["info", "exclude"])

end Unseen

namespace Ignore

theorem repositoryDirectory_unseen (h : Unseen t u r) (ha : Near r a) :
    repositoryDirectory u a.text = repositoryDirectory t a.text := by
  have hgit := h.agree_git ha
  have hown : ownDirectory? u a.text = ownDirectory? t a.text := by
    unfold ownDirectory?
    rw [hgit.firstLine]
  rw [repositoryDirectory_eq, repositoryDirectory_eq, hgit.isFile, hown]
  split
  · rename_i hfile
    cases ho : ownDirectory? t a.text with
    | none => rw [Option.bind_none, Option.bind_none]
    | some own =>
      have hread := h.secluded.repository a ha.named ha.comparable ha.outside _
        ((mem_elsewhere hfile ho).mpr (.inl rfl))
      rw [Option.bind_some, Option.bind_some, (agree_of_shuns h.alike hread).firstLine]
  · rfl

theorem excludePath_text (ha : ∀ s ∈ a, IsName s) :
    Rules.excludePath (joinPath a.text ".git") = Place.text (a ++ [".git", "info", "exclude"]) := by
  have hgit : IsName ".git" := ⟨by decide, by decide, by decide⟩
  have hnames : ∀ s ∈ ["info", "exclude"], IsName s := by decide
  have htext : (Path.mk false ["info", "exclude"]).text = "info/exclude" := by decide
  unfold Rules.excludePath
  rw [joinPath_name ha hgit, ← htext, joinPath_text (named_append ha (by simpa using hgit))
    (List.cons_ne_nil _ _) hnames, List.append_assoc]
  rfl

theorem exclude_unseen (h : Unseen t u r) (ha : Near r a) {repository : String}
    (hr : repositoryDirectory t a.text = some repository) :
    fileAt u (Rules.excludePath repository) = fileAt t (Rules.excludePath repository) := by
  refine AgreeAt.fileAt ?_
  have he := hr
  rw [repositoryDirectory_eq] at he
  split at he
  · rename_i hfile
    obtain ⟨own, ho, -⟩ := Option.bind_eq_some_iff.mp he
    exact agree_of_shuns h.alike (h.secluded.repository a ha.named ha.comparable ha.outside _
      ((mem_elsewhere hfile ho).mpr (.inr ⟨repository, hr, rfl⟩)))
  · cases he
    rw [excludePath_text ha.named]
    exact h.agree_consulted ha (by simp [consulted]) (List.prefix_refl _)

theorem ofDirectory_unseen (h : Unseen t u r) (ha : Near r a) :
    Rules.ofDirectory u a.text = Rules.ofDirectory t a.text := by
  have hplain := h.agree_name ha (show [".ignore"] ∈ consulted by simp [consulted]) (List.prefix_refl _)
  have hshared := h.agree_name ha (show [".gitignore"] ∈ consulted by simp [consulted]) (List.prefix_refl _)
  have hgit := h.agree_git ha
  unfold Rules.ofDirectory Rules.plainPath Rules.sharedPath
  rw [hplain.fileAt, hshared.fileAt, hgit.exists?, repositoryDirectory_unseen h ha]
  cases hr : repositoryDirectory t a.text with
  | none => simp only [Option.map_none]
  | some repository => simp only [Option.map_some, exclude_unseen h ha hr]

theorem rulesAbove_unseen (h : Unseen t u r) (hp : Near r place) (hr : r <+: place) :
    rulesAbove u place = rulesAbove t place := by
  refine List.map_congr_left fun n _ => ?_
  rw [ofDirectory_unseen h (hp.of_prefix hr (List.take_prefix n place))]

theorem verdict?_unseen (h : Unseen t u r) (hp : Near r place) (hr : r <+: place)
    (isDirectory : Bool) : verdict? u place isDirectory = verdict? t place isDirectory := by
  unfold verdict?
  rw [rulesAbove_unseen h hp hr]

end Ignore

namespace ProjectRoot

theorem isBuildable_unseen (h : Unseen t u r) (ha : Near r a) :
    isBuildable u a.text = isBuildable t a.text := by
  unfold isBuildable
  rw [Bool.eq_iff_iff, List.any_eq_true, List.any_eq_true]
  refine exists_congr fun name => and_congr_right fun hn => ?_
  have hc : [name] ∈ consulted := by
    have hsub : ∀ name ∈ descriptors, [name] ∈ consulted := by decide
    exact hsub name hn
  rw [(h.agree_name ha hc (List.prefix_refl _)).isFile]

theorem find_unseen (h : Unseen t u r) (hp : Near r place) (hr : r <+: place) :
    find u place.text = find t place.text := by
  have hstart : start u place.text = start t place.text := by
    unfold start
    rw [(h.agree hp).isDirectory]
  obtain ⟨base, hb, he⟩ := start_names (t := t) hp.named
  have hbn : ∀ s ∈ base, IsName s := fun s hs => hp.named s (hb.subset hs)
  unfold find
  rw [hstart, he]
  rw [List.find?_congr fun x hx => ?_]
  obtain ⟨a, ha, rfl⟩ := ancestors_names hbn x hx
  exact isBuildable_unseen h (hp.of_prefix hr (ha.trans hb))

end ProjectRoot

theorem Settings.load_unseen (h : Unseen t u r) (env : Environment) :
    load u r.text env = load t r.text env := by
  have hname : IsName fileName := ⟨by decide, by decide, by decide⟩
  have hnear : Near r (r ++ [fileName]) := {
    named := named_append h.named (by simpa using hname)
    comparable := .inr (List.prefix_append r _)
    outside := outside_append (sandbox_not_above (List.prefix_refl r)) (by decide) }
  have hagree := h.agree hnear
  rw [← joinPath_name h.named hname] at hagree
  unfold load ofFile
  rw [hagree.isFile, hagree.readText]

namespace Sources

theorem isOpen_unseen (h : Unseen t u r) (hs : Near r (start ++ names)) (hr : r <+: start)
    (isDirectory : Bool) : isOpen u start names isDirectory = isOpen t start names isDirectory := by
  have hskip : ∀ n name isDirectory, isSkipped u (start ++ names.take n) name isDirectory =
      isSkipped t (start ++ names.take n) name isDirectory := by
    intro n name isDirectory
    have hbegins : start ++ names.take n <+: start ++ names :=
      (List.prefix_append_right_inj start).mpr (List.take_prefix n names)
    have hrs := hr.trans (List.prefix_append start (names.take n))
    unfold isSkipped
    rw [Ignore.verdict?_unseen h (hs.of_prefix (hrs.trans hbegins) hbegins) hrs]
  unfold isOpen
  simp only [hskip]

theorem found?_unseen (h : Unseen t u r) (hp : Near r place) (hr : r <+: place) {x : Place × Entry}
    (hx : ∀ s ∈ x.1, IsName s) (hs : ¬ sandbox r <+: x.1) :
    found? u place.text place x = found? t place.text place x := by
  unfold found?
  dsimp only
  by_cases hbegins : place <+: x.1
  · obtain ⟨names, hn⟩ := hbegins
    rw [← hn] at hx hs ⊢
    rw [List.drop_left]
    by_cases hne : names = []
    · simp [hne]
    · have hnear : Near r (place ++ names) :=
        ⟨hx, .inr (hr.trans (List.prefix_append place names)), hs⟩
      have hpath : pathBelow place.text names = Place.text (place ++ names) :=
        joinPath_text hp.named hne fun s hm => hx s (List.mem_append_right _ hm)
      have hsource : isSource u (pathBelow place.text names) =
          isSource t (pathBelow place.text names) := by
        unfold isSource
        rw [hpath, (h.agree hnear).isFile]
      rw [isOpen_unseen h hnear hr, hsource]
  · have hf : place.isPrefixOf x.1 = false := by
      rw [← Bool.not_eq_true, List.isPrefixOf_iff_prefix]
      exact hbegins
    simp only [hf, Bool.false_and]

theorem isSkipped_sandbox (p : Place) : isSkipped t p directoryName true = true := by
  have he : isExcluded directoryName = true := by decide
  unfold isSkipped
  split
  · rfl
  · exact he
  · rw [he]
    exact Bool.or_true _

theorem found?_sandbox (hp : ¬ sandbox r <+: place) (hr : r <+: place) {x : Place × Entry}
    (hs : sandbox r <+: x.1) (hd : x.1 = sandbox r → x.2 = .directory) :
    found? t place.text place x = none := by
  unfold found?
  dsimp only
  refine if_neg fun hc => ?_
  simp only [Bool.and_eq_true, List.isPrefixOf_iff_prefix, decide_eq_true_eq] at hc
  obtain ⟨⟨⟨⟨hbegins, -⟩, hfile⟩, hopen⟩, -⟩ := hc
  have habove : place <+: r := prefix_sandbox
    ((List.prefix_or_prefix_of_prefix hbegins hs).resolve_right hp) fun he => hp (he ▸ List.prefix_refl _)
  obtain rfl : place = r := habove.eq_of_length (Nat.le_antisymm habove.length_le hr.length_le)
  obtain ⟨rest, hx⟩ := hs
  by_cases hrest : rest = []
  · rw [hrest, List.append_nil] at hx
    rw [hd hx.symm] at hfile
    cases hfile
  · rw [← hx, sandbox, List.append_assoc, List.drop_left] at hopen
    have hfirst := List.all_eq_true.mp hopen 0 (List.mem_range.mpr (by simp))
    have hdirectory : (false || decide (0 + 1 < ([directoryName] ++ rest).length)) = true := by
      simpa using List.length_pos_iff.mpr hrest
    change (!isSkipped t (place ++ [directoryName]) directoryName
      (false || decide (0 + 1 < ([directoryName] ++ rest).length))) = true at hfirst
    rw [hdirectory, isSkipped_sandbox] at hfirst
    cases hfirst

theorem faultsAbove_unseen (h : Unseen t u r) (hp : Near r place) (hr : r <+: place) :
    faultsAbove u place = faultsAbove t place := by
  unfold faultsAbove
  rw [List.flatMap_def, List.flatMap_def]
  refine congrArg List.flatten (List.map_congr_left fun n _ => ?_)
  have hnear := hp.of_prefix hr (List.take_prefix n place)
  unfold faultsOf
  rw [Ignore.ofDirectory_unseen h hnear, Ignore.repositoryDirectory_unseen h hnear]

theorem below_unseen (h : Unseen t u r) (hp : Near r place) (hr : r <+: place)
    (ht : ∀ x ∈ t.entries, ∀ s ∈ x.1, IsName s) (hrest : t.prune (sandbox r) = u.prune (sandbox r))
    (hsandbox : ∀ v ∈ [t, u], ∀ x ∈ v.entries, x.1 = sandbox r → x.2 = .directory) :
    below u place.text place = below t place.text place := by
  have hfound : ∀ v ∈ [t, u], v.entries.filterMap (found? v place.text place) =
      (v.prune (sandbox r)).entries.filterMap (found? v place.text place) := by
    intro v hv
    rw [prune, List.filterMap_filter]
    refine List.filterMap_congr fun x hx => ?_
    by_cases hs : sandbox r <+: x.1
    · rw [found?_sandbox hp.outside hr hs (hsandbox v hv x hx)]
      split <;> rfl
    · rw [if_pos (by simpa [← List.isPrefixOf_iff_prefix] using hs)]
  unfold below
  rw [hfound u (by simp), hfound t (by simp), ← hrest]
  refine congrArg (fun l => (sorted l).map (pathBelow place.text)) (List.filterMap_congr fun x hx => ?_)
  obtain ⟨hx, hs⟩ := List.mem_filter.mp hx
  exact found?_unseen h hp hr (ht x hx) (by simpa [← List.isPrefixOf_iff_prefix] using hs)

theorem collect_unseen (h : Unseen t u r) (hp : Near r place) (hr : r <+: place)
    (ht : ∀ x ∈ t.entries, ∀ s ∈ x.1, IsName s) (hrest : t.prune (sandbox r) = u.prune (sandbox r))
    (hsandbox : ∀ v ∈ [t, u], ∀ x ∈ v.entries, x.1 = sandbox r → x.2 = .directory) :
    collect u place.text = collect t place.text := by
  unfold collect
  rw [show u.entryAt place.text = t.entryAt place.text from h.agree hp]
  cases he : t.entryAt place.text with
  | error cause => rfl
  | ok found =>
    obtain ⟨start, entry⟩ := found
    cases entry with
    | file bytes runnable => rfl
    | link target => rfl
    | directory =>
      have hstart : start = place := spot_straight (spells_text hp.named) (h.plain hp).unlinked
        (entryAt_eq_ok.mp he) rfl
      dsimp only
      rw [hstart, faultsAbove_unseen h hp hr, below_unseen h hp hr ht hrest hsandbox]

end Sources

end Refit
