import Mathlib.Data.List.Induction
import Refit.Proofs.Tree.Listing
import Refit.Proofs.Workspace.Sandbox

namespace Refit.Workspace

open Refit.Path Refit.Tree

variable {t u : Tree} {r names above place p q directory : Place} {entry : Entry} {s : String}
  {S : Place → Prop}

def Kept (t : Tree) (r names : Place) : Prop :=
  ∀ above s, above ++ [s] <+: names → t.isDirectory (Place.text (r ++ (above ++ [s]))) = true →
    isExcluded s = false

/-- The names lead from a project root to an entry, and through no excluded directory. -/
structure Belongs (t : Tree) (r names place : Place) (entry : Entry) : Prop where
  named : ∀ s ∈ names, IsName s
  kept : Kept t r names
  leads : t.entryAt (Place.text (r ++ names)) = .ok (place, entry)

/-- A part of the tree is entered only through excluded directories, or not at all. -/
def Doors (t : Tree) (S : Place → Prop) : Prop :=
  ∀ p s, ¬ S p → S (p ++ [s]) →
    isExcluded s = true ∧ (t.get? (p ++ [s]) = none ∨ t.get? (p ++ [s]) = some .directory)

/-- No link of a project leads into a part of the tree, and none leads through it. -/
def Avoids (t : Tree) (r : Place) (S : Place → Prop) : Prop :=
  ∀ names directory s target, Belongs t r names directory .directory →
    t.get? (directory ++ [s]) = some (.link target) →
    ∀ p ∈ t.trail linkLimit directory [s], ¬ S p

/-- A part of the tree that no path from a project root enters, as long as it keeps clear of
excluded directories. -/
structure ShutOff (t : Tree) (r : Place) (S : Place → Prop) : Prop where
  below : ∀ p q, S p → p <+: q → S q
  root : ¬ S r
  doors : Doors t S
  avoids : Avoids t r S

theorem Kept.of_prefix (h : Kept t r names) (ha : above <+: names) : Kept t r above :=
  fun a s hs => h a s (hs.trans ha)

theorem Kept.concat (h : Kept t r names)
    (hs : t.isDirectory (Place.text (r ++ (names ++ [s]))) = true → isExcluded s = false) :
    Kept t r (names ++ [s]) := by
  intro a b ha hd
  obtain he | ha := List.prefix_concat_iff.mp ha
  · obtain ⟨rfl, hb⟩ := List.append_inj' he rfl
    cases hb
    exact hs hd
  · exact h a b ha hd

theorem kept_nil : Kept t r [] := fun a s h => by simp at h

theorem Belongs.unique {place' : Place} {entry' : Entry} (h : Belongs t r names place entry)
    (h' : Belongs t r names place' entry') : place = place' ∧ entry = entry' := by
  have he := h.leads.symm.trans h'.leads
  cases he
  exact ⟨rfl, rfl⟩

theorem Belongs.follow_eq (h : Belongs t r names place entry) (hr : ∀ s ∈ r, IsName s) :
    t.follow false linkLimit [] (r ++ names) = .ok (.found place entry) :=
  (entryAt_text (named_append hr h.named)).mp h.leads

/-- What belongs to a project stands in directories that do. -/
theorem Belongs.init (h : Belongs t r (names ++ [s]) place entry) (hr : ∀ s ∈ r, IsName s) :
    ∃ directory, Belongs t r names directory .directory := by
  have hn : ∀ a ∈ names, IsName a := fun a ha => h.named a (List.mem_append_left _ ha)
  have hs : IsName s := h.named s (by simp)
  have hf := h.follow_eq hr
  rw [← List.append_assoc] at hf
  obtain ⟨directory, hf⟩ := follow_init hs.not_filler hf
  exact ⟨directory, hn, h.kept.of_prefix (List.prefix_append _ _),
    (entryAt_text (named_append hr hn)).mpr hf⟩

theorem Belongs.step (h : Belongs t r (names ++ [s]) place entry)
    (hd : Belongs t r names directory .directory) (hr : ∀ s ∈ r, IsName s) :
    ∃ n, n ≤ linkLimit ∧ t.follow false n directory [s] = .ok (.found place entry) ∧
      t.trail linkLimit [] (r ++ (names ++ [s])) =
        t.trail linkLimit [] (r ++ names) ++ t.trail n directory [s] := by
  obtain ⟨n, hn, hm⟩ := follow_append (hd.follow_eq hr)
  obtain ⟨hf, ht⟩ := hm [s]
  rw [List.append_assoc] at hf ht
  exact ⟨n, hn, hf.symm.trans (h.follow_eq hr), ht⟩

theorem ShutOff.entryAt_eq (h : ShutOff t r S) (hu : ∀ p, ¬ S p → u.get? p = t.get? p)
    (hq : ∀ s ∈ q, IsName s) (ht : ∀ p ∈ t.trail linkLimit [] q, ¬ S p)
    (he : u.entryAt q.text = .ok (place, entry)) :
    t.entryAt q.text = .ok (place, entry) ∧ ¬ S place := by
  have hf := (entryAt_text hq).mp he
  rw [follow_congr fun p hp => hu p (ht p hp)] at hf
  exact ⟨(entryAt_text hq).mpr hf,
    follow_outside h.below (fun hn => h.root (h.below _ _ hn List.nil_prefix)) ht hf⟩

/-- Paths of a project keep clear of a part that is shut off, also where that part is filled
differently. -/
theorem ShutOff.clear (h : ShutOff t r S) (hr : ∀ s ∈ r, IsName s) (hs : t.Solid r)
    (hu : ∀ p, ¬ S p → u.get? p = t.get? p) (hd : Doors u S) (hb : Belongs u r names place entry) :
    Belongs t r names place entry ∧ (∀ p ∈ t.trail linkLimit [] (r ++ names), ¬ S p) ∧
      ¬ S place := by
  induction names using List.reverseRecOn generalizing place entry with
  | nil =>
    have ht : ∀ p ∈ t.trail linkLimit [] (r ++ []), ¬ S p := by
      intro p hp hS
      rw [List.append_nil] at hp
      have hp : p <+: [] ++ r := trail_names hr (fun p hp => (hs p hp).2) hp
      exact h.root (h.below _ _ hS hp)
    obtain ⟨he, hp⟩ := h.entryAt_eq hu (by simpa using hr) ht hb.leads
    exact ⟨⟨nofun, kept_nil, he⟩, ht, hp⟩
  | append_singleton names s ih =>
    obtain ⟨directory, hdir⟩ := hb.init hr
    obtain ⟨hdir', ht, hS⟩ := ih hdir
    obtain ⟨n, hn, hf, -⟩ := hb.step hdir hr
    have hname := hb.named s (by simp)
    have hname := And.intro hname.not_filler hname.not_up
    have hkept : u.get? (directory ++ [s]) = some .directory → isExcluded s = false := by
      intro hg
      refine hb.kept names s (List.prefix_refl _) (isDirectory_eq_true.mpr ⟨directory ++ [s], ?_⟩)
      rw [follow_name hname, hg] at hf
      cases hf
      exact hb.leads
    -- a part that is shut off is not entered by a name: only directories and links lead on
    have hout : ¬ S (directory ++ [s]) := by
      intro hin
      obtain ⟨hx, hg | hg⟩ := hd _ _ hS hin
      · rw [follow_name hname, hg] at hf
        cases hf
      · rw [hkept hg] at hx
        cases hx
    have hlast : ∀ p ∈ t.trail linkLimit directory [s], ¬ S p := by
      intro p hp
      by_cases hl : ∃ target, t.get? (directory ++ [s]) = some (.link target)
      · obtain ⟨target, hl⟩ := hl
        exact h.avoids names directory s target hdir' hl p hp
      · rw [trail_name hname fun target hg => hl ⟨target, hg⟩] at hp
        rwa [List.mem_singleton.mp hp]
    have htrail : ∀ p ∈ t.trail linkLimit [] (r ++ (names ++ [s])), ¬ S p := by
      obtain ⟨m, hm, hmore⟩ := follow_append (hdir'.follow_eq hr)
      intro p hp
      rw [← List.append_assoc, (hmore [s]).2] at hp
      obtain hp | hp := List.mem_append.mp hp
      · exact ht p hp
      · exact hlast p (trail_mono hm hp)
    obtain ⟨he, hplace⟩ := h.entryAt_eq hu (named_append hr hb.named) htrail hb.leads
    refine ⟨⟨hb.named, hdir'.kept.concat fun hdt => ?_, he⟩, htrail, hplace⟩
    obtain ⟨p, hp⟩ := isDirectory_eq_true.mp hdt
    rw [he] at hp
    cases hp
    exact hb.kept names s (List.prefix_refl _) (isDirectory_eq_true.mpr ⟨_, hb.leads⟩)

theorem ShutOff.refill (h : ShutOff t r S) (hr : ∀ s ∈ r, IsName s) (hs : t.Solid r)
    (hu : ∀ p, ¬ S p → u.get? p = t.get? p) (hd : Doors u S) : ShutOff u r S where
  below := h.below
  root := h.root
  doors := hd
  avoids names directory s target hb hl p hp := by
    obtain ⟨hb, -, hS⟩ := h.clear hr hs hu hd hb
    have hout : ¬ S (directory ++ [s]) := by
      intro hin
      obtain ⟨-, hg | hg⟩ := hd _ _ hS hin
      · rw [hl] at hg
        cases hg
      · rw [hl] at hg
        cases hg
    rw [hu _ hout] at hl
    have ht := h.avoids names directory s target hb hl
    rw [trail_congr fun p hp => hu p (ht p hp)] at hp
    exact ht p hp

theorem solid_refill (h : ShutOff t r S) (hs : t.Solid r) (hu : ∀ p, ¬ S p → u.get? p = t.get? p) :
    u.Solid r := by
  intro p hp
  have hu := hu p fun hS => h.root (h.below _ _ hS hp)
  simp only [LinkAt, hu]
  exact hs p hp

/-- What belongs to a project does not depend on how parts that are shut off are filled. -/
theorem belongs_congr (h : ShutOff t r S) (hr : ∀ s ∈ r, IsName s) (hs : t.Solid r)
    (hu : ∀ p, ¬ S p → u.get? p = t.get? p) (hd : Doors u S) :
    Belongs u r names place entry ↔ Belongs t r names place entry :=
  ⟨fun hb => (h.clear hr hs hu hd hb).1, fun hb =>
    ((h.refill hr hs hu hd).clear hr (solid_refill h hs hu) (fun p hp => (hu p hp).symm) h.doors
      hb).1⟩

end Refit.Workspace
