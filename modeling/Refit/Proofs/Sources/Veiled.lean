import Refit.Proofs.Run.Secluded
import Refit.Proofs.Sources.Unruled
import Refit.Proofs.Tree.Veil

namespace Refit

open Refit.Path Refit.Tree

variable {v : Veil} {t u : Tree} {start place : Place} {directory path : String}
  {names : List String}

namespace Ignore

def readFor (t : Tree) (directory : String) : List String :=
  Rules.plainPath directory :: Rules.sharedPath directory :: joinPath directory ".git" ::
    Rules.excludePath (joinPath directory ".git") :: elsewhere t directory

theorem mem_readFor (h : path ∈ elsewhere t directory) : path ∈ readFor t directory := by
  simp [readFor, h]

/-- The rules of the directories above a place and below it are read alike. -/
def ReadAlike (start : Place) (t u : Tree) : Prop :=
  ∀ a : Place, (∀ s ∈ a, IsName s) → a <+: start ∨ start <+: a →
    ∀ path ∈ readFor t a.text, AgreeAt t u path

theorem readAlike_of_lacks (hv : Veiled v t u)
    (h : ∀ s ∈ [".ignore", ".gitignore", ".git", "exclude"], Sources.Lacks t s) :
    ReadAlike start t u := by
  intro a ha _ path hm
  have hnames : ∀ s ∈ [".ignore", ".gitignore", ".git", "exclude"], IsName s := by decide
  have habsent : ∀ s ∈ [".ignore", ".gitignore", ".git", "exclude"], ∀ b : Place,
      AgreeAt t u (joinPath b.text s) := fun s hs b =>
    hv.agreeAt_of_not_exists ((h s hs).exists?_eq_false (hnames s hs) b)
  have hgit : t.isFile (joinPath a.text ".git") = false := by
    have hnone := (h ".git" (.tail _ (.tail _ (.head _)))).exists?_eq_false
      (hnames _ (.tail _ (.tail _ (.head _)))) a
    unfold Tree.exists? at hnone
    unfold Tree.isFile
    cases he : t.entryAt (joinPath a.text ".git") with
    | error cause => rfl
    | ok found =>
      rw [he] at hnone
      cases hnone
  have hexclude : Rules.excludePath (joinPath a.text ".git") =
      joinPath (Place.text (a ++ [".git", "info"])) "exclude" := by
    rw [excludePath_text ha, joinPath_name (Workspace.named_append ha (by decide))
      (hnames "exclude" (by simp)), List.append_assoc]
    rfl
  unfold readFor elsewhere at hm
  rw [if_neg (by simp [hgit]), hexclude] at hm
  rcases hm with _ | ⟨_, _ | ⟨_, _ | ⟨_, _ | ⟨_, hm⟩⟩⟩⟩
  · exact habsent ".ignore" (.head _) a
  · exact habsent ".gitignore" (.tail _ (.head _)) a
  · exact habsent ".git" (.tail _ (.tail _ (.head _))) a
  · exact habsent "exclude" (.tail _ (.tail _ (.tail _ (.head _)))) _
  · cases hm

theorem repositoryDirectory_of_read (h : ∀ path ∈ readFor t directory, AgreeAt t u path) :
    repositoryDirectory u directory = repositoryDirectory t directory := by
  have hgit := h (joinPath directory ".git") (by simp [readFor])
  have hown : ownDirectory? u directory = ownDirectory? t directory := by
    unfold ownDirectory?
    rw [hgit.firstLine]
  rw [repositoryDirectory_eq, repositoryDirectory_eq, hgit.isFile, hown]
  split
  · rename_i hfile
    cases ho : ownDirectory? t directory with
    | none => rw [Option.bind_none, Option.bind_none]
    | some own =>
      have hcommon := h (joinPath own "commondir")
        (mem_readFor ((mem_elsewhere hfile ho).mpr (.inl rfl)))
      rw [Option.bind_some, Option.bind_some, hcommon.firstLine]
  · rfl

theorem exclude_of_read (h : ∀ path ∈ readFor t directory, AgreeAt t u path) {repository : String}
    (hr : repositoryDirectory t directory = some repository) :
    fileAt u (Rules.excludePath repository) = fileAt t (Rules.excludePath repository) := by
  refine AgreeAt.fileAt (h _ ?_)
  have he := hr
  rw [repositoryDirectory_eq] at he
  split at he
  · rename_i hfile
    obtain ⟨own, ho, -⟩ := Option.bind_eq_some_iff.mp he
    exact mem_readFor ((mem_elsewhere hfile ho).mpr (.inr ⟨repository, hr, rfl⟩))
  · cases he
    simp [readFor]

theorem ofDirectory_of_read (h : ∀ path ∈ readFor t directory, AgreeAt t u path) :
    Rules.ofDirectory u directory = Rules.ofDirectory t directory := by
  have hplain := h (Rules.plainPath directory) (by simp [readFor])
  have hshared := h (Rules.sharedPath directory) (by simp [readFor])
  have hgit := h (joinPath directory ".git") (by simp [readFor])
  unfold Rules.ofDirectory
  rw [hplain.fileAt, hshared.fileAt, hgit.exists?, repositoryDirectory_of_read h]
  cases hr : repositoryDirectory t directory with
  | none => simp only [Option.map_none]
  | some repository => simp only [Option.map_some, exclude_of_read h hr]

theorem verdict?_of_read (h : ReadAlike start t u) (hs : start <+: place)
    (hp : ∀ s ∈ place, IsName s) (isDirectory : Bool) :
    verdict? u place isDirectory = verdict? t place isDirectory := by
  have habove : rulesAbove u place = rulesAbove t place := by
    refine List.map_congr_left fun n _ => ?_
    rw [ofDirectory_of_read (h _ (fun s hm => hp s (List.take_subset n place hm))
      (List.prefix_or_prefix_of_prefix (List.take_prefix n place) hs))]
  unfold verdict?
  rw [habove]

end Ignore

namespace Sources

theorem isOpen_of_read (h : Ignore.ReadAlike start t u) (hn : ∀ s ∈ start ++ names, IsName s)
    (isDirectory : Bool) : isOpen u start names isDirectory = isOpen t start names isDirectory := by
  have hskip : ∀ n name isDirectory, isSkipped u (start ++ names.take n) name isDirectory =
      isSkipped t (start ++ names.take n) name isDirectory := by
    intro n name isDirectory
    unfold isSkipped
    rw [Ignore.verdict?_of_read h (List.prefix_append start _) fun s hs => hn s
      (((List.prefix_append_right_inj start).mpr (List.take_prefix n names)).subset hs)]
  unfold isOpen
  simp only [hskip]

theorem found?_veiled (hv : Veiled v t u) (h : Ignore.ReadAlike start t u) {x y : Place × Entry}
    (hx : ∀ s ∈ x.1, IsName s) (hxy : v.Lists x y) :
    found? u path start y = found? t path start x := by
  obtain ⟨p, e⟩ := x
  obtain ⟨p', e'⟩ := y
  obtain ⟨hp, he⟩ := hxy
  dsimp only at hp hx
  subst hp
  have hdirectory : (e' != .directory) = (e != .directory) :=
    he.congr (· != .directory) fun _ _ => rfl
  unfold found? isSource
  dsimp only
  rw [hdirectory, hv.isFile_eq]
  by_cases hs : start <+: p'
  · obtain ⟨names, rfl⟩ := hs
    rw [List.drop_left, isOpen_of_read h hx]
  · have hf : start.isPrefixOf p' = false := by
      rw [← Bool.not_eq_true, List.isPrefixOf_iff_prefix]
      exact hs
    simp only [hf, Bool.false_and]

theorem faultsAbove_of_read (h : Ignore.ReadAlike start t u) (hs : ∀ s ∈ start, IsName s) :
    faultsAbove u start = faultsAbove t start := by
  have hfaults : ∀ n, faultsOf u (Place.text (start.take n)) =
      faultsOf t (Place.text (start.take n)) := by
    intro n
    have hread := h (start.take n) (fun s hm => hs s (List.take_subset n start hm))
      (.inl (List.take_prefix n start))
    unfold faultsOf
    rw [Ignore.ofDirectory_of_read hread, Ignore.repositoryDirectory_of_read hread]
  unfold faultsAbove
  simp only [hfaults]

/-- The same sources are found, where the ignore rules are read alike. -/
theorem collect_veiled (hv : Veiled v t u) (ht : ∀ x ∈ t.entries, ∀ s ∈ x.1, IsName s)
    (h : ∀ start, t.canonical [] path = .ok start → Ignore.ReadAlike start t u) :
    collect u path = collect t path := by
  have hbelow : ∀ start, Ignore.ReadAlike start t u → below u path start = below t path start := by
    intro start h
    unfold below
    have hlists := (List.forall₂_and_left _ _).mpr ⟨ht, hv.entries⟩
    rw [filterMap_congr hlists fun x y hxy => found?_veiled hv h hxy.1 hxy.2]
  unfold collect
  obtain he | ⟨p, m, hl, hr⟩ := hv.entryAt_veiled path
  · rw [he]
    cases hstart : t.entryAt path with
    | error cause => rfl
    | ok found =>
      obtain ⟨start, entry⟩ := found
      cases entry with
      | directory =>
        have hspot := entryAt_eq_ok.mp hstart
        have hread := h start (canonical_eq_ok.mpr ⟨_, hspot⟩)
        dsimp only
        rw [faultsAbove_of_read hread (spot_passed t.passed_names hspot), hbelow start hread]
      | file bytes m => rfl
      | link target => rfl
  · rw [hl, hr]

end Sources

end Refit
