import Refit.Proofs.Tree.Trail

namespace Refit.Tree

open Refit.Path

variable {t t' : Tree} {p q place : Place} {s : String} {entry : Entry} {spot : Spot}
  {l : List (Place × Entry)} {path : String} {last : Bool} {links : Nat} {here : Place}
  {segments done rest : List String} {target : String}

/-- Every place is listed once. -/
def Single (t : Tree) : Prop := (t.entries.map Prod.fst).Nodup

theorem mem_of_entryIn (h : entryIn p l = some entry) : (p, entry) ∈ l := by
  induction l with
  | nil => cases h
  | cons x l ih => grind [entryIn]

theorem entryIn_of_mem (hl : (l.map Prod.fst).Nodup) (h : (p, entry) ∈ l) :
    entryIn p l = some entry := by
  induction l with
  | nil => cases h
  | cons x l ih =>
    obtain ⟨hx, hl⟩ := List.nodup_cons.mp hl
    obtain rfl | h := List.mem_cons.mp h
    · rw [entryIn, if_pos rfl]
    · rw [entryIn, if_neg, ih hl h]
      intro he
      exact hx (he ▸ List.mem_map_of_mem h)

theorem mem_entries_of_get? (hp : p ≠ []) (h : t.get? p = some entry) : (p, entry) ∈ t.entries := by
  rw [get?, if_neg hp] at h
  exact mem_of_entryIn h

/-- A tree is sound if all that is listed in it has a name and stands in a directory. -/
theorem sound_of_listed (h : ∀ x ∈ t.entries, (∀ a ∈ x.1, IsName a) ∧
    t.get? x.1.dropLast = some .directory) : t.Sound where
  named x hx := (h x hx).1
  inDirectory p s hs := by
    obtain ⟨entry, he⟩ := Option.ne_none_iff_exists'.mp hs
    have hd := (h _ (mem_entries_of_get? (by simp) he)).2
    rwa [List.dropLast_concat] at hd

theorem not_linkAt_of_listed {r : Place} (h : ∀ x ∈ t.entries, r <+: x.1 → (x.2 matches .link _) = false)
    (hr : r <+: p) : ¬ t.LinkAt p := by
  rintro ⟨target, hl⟩
  have hp : p ≠ [] := by
    rintro rfl
    cases hl
  cases h _ (mem_entries_of_get? hp hl) hr

theorem linkFree_of_listed (h : ∀ x ∈ t.entries, (x.2 matches .link _) = false) (p : Place) :
    ¬ t.LinkAt p :=
  not_linkAt_of_listed (fun x hx _ => h x hx) p.nil_prefix

theorem get?_of_mem_entries {x : Place × Entry} (hx : x ∈ t.entries) : t.get? x.1 ≠ none := by
  unfold get?
  split
  · exact nofun
  · generalize t.entries = l at hx
    induction l with
    | nil => cases hx
    | cons y l ih => grind [entryIn]

theorem named_of_get? (ht : t.Sound) {p : Place} (h : t.get? p ≠ none) : ∀ s ∈ p, IsName s := by
  by_cases hp : p = []
  · rw [hp]
    exact nofun
  · obtain ⟨entry, he⟩ := Option.ne_none_iff_exists'.mp h
    exact ht.named _ (mem_entries_of_get? hp he)

theorem mem_children (ht : t.Single) :
    (s, entry) ∈ t.children p ↔ t.get? (p ++ [s]) = some entry := by
  have hget : t.get? (p ++ [s]) = entryIn (p ++ [s]) t.entries := if_neg (by simp)
  rw [hget, children, List.mem_filterMap]
  constructor
  · rintro ⟨⟨q, e⟩, hq, hc⟩
    dsimp only at hc
    split at hc
    · cases hc
    · rename_i name hn
      split at hc
      · rename_i hp
        cases hc
        obtain ⟨above, rfl⟩ := List.getLast?_eq_some_iff.mp hn
        rw [List.dropLast_concat] at hp
        exact entryIn_of_mem ht (hp ▸ hq)
      · cases hc
  · intro h
    exact ⟨_, mem_of_entryIn h, by simp⟩

theorem map_putEntry : (putEntry p entry l).map Prod.fst =
    if p ∈ l.map Prod.fst then l.map Prod.fst else l.map Prod.fst ++ [p] := by
  induction l with
  | nil => simp [putEntry]
  | cons x l ih => grind [putEntry]

theorem Single.put (ht : t.Single) : (t.put p entry).Single := by
  unfold Single Tree.put
  rw [map_putEntry]
  split
  · exact ht
  · rename_i hp
    refine List.nodup_append.mpr ⟨ht, by simp, ?_⟩
    rintro a ha b hb rfl
    rw [List.mem_singleton.mp hb] at ha
    exact hp ha

theorem Single.prune (ht : t.Single) : (t.prune p).Single :=
  List.Nodup.sublist (List.Sublist.map _ List.filter_sublist) ht

theorem length_le_putEntry : l.length ≤ (putEntry p entry l).length := by
  induction l with
  | nil => exact Nat.zero_le _
  | cons x l ih => grind [putEntry]

theorem filter_putEntry {f : Place × Entry → Bool} (hf : ∀ e, f (p, e) = false) :
    (putEntry p entry l).filter f = l.filter f := by
  induction l with
  | nil => simp [putEntry, hf]
  | cons x l ih => grind [putEntry]

theorem prune_put (h : q <+: p) : (t.put p entry).prune q = t.prune q := by
  have hf := @filter_putEntry p entry t.entries (fun x => !q.isPrefixOf x.1) fun _ => by
    simpa [List.isPrefixOf_iff_prefix] using h
  exact congrArg Tree.mk hf

theorem prune_free (h : ∀ p, q <+: p → t.get? p = none) : t.prune q = t := by
  have hf : t.entries.filter (fun x => !q.isPrefixOf x.1) = t.entries := by
    refine List.filter_eq_self.mpr fun x hx => ?_
    rw [Bool.not_eq_true', ← Bool.not_eq_true, List.isPrefixOf_iff_prefix]
    intro hp
    exact get?_of_mem_entries hx (h x.1 hp)
  exact congrArg Tree.mk hf

theorem Sound.put (ht : t.Sound) (hp : ∀ a ∈ p ++ [s], IsName a) (hd : t.get? p = some .directory)
    (he : entry = .directory ∨ t.get? (p ++ [s]) ≠ some .directory) :
    (t.put (p ++ [s]) entry).Sound where
  named := named_put ht.named hp
  inDirectory q a h := by
    have hne : p ++ [s] ≠ [] := by simp
    rw [get?_put _ _ _ _ hne] at h ⊢
    have hq : t.get? q = some .directory := by
      split at h
      · rename_i heq
        rw [(List.append_inj' heq rfl).1]
        exact hd
      · exact ht.inDirectory q a h
    split
    · rename_i heq
      obtain rfl | he := he
      · rfl
      · exact absurd (heq ▸ hq) he
    · exact hq

theorem Sound.prune (ht : t.Sound) : (t.prune p).Sound where
  named := named_prune ht.named
  inDirectory q s h := by
    rw [get?_prune _ _ _ (by simp)] at h
    split at h
    · exact absurd rfl h
    · rename_i hp
      by_cases hq : q = []
      · rw [hq]
        rfl
      · rw [get?_prune _ _ _ hq, if_neg fun hpq => hp (hpq.trans (List.prefix_append _ _))]
        exact ht.inDirectory q s h

theorem passed_there (ht : t.Sound) : t.Passed fun p => t.get? p ≠ none where
  root := nofun
  up p hp := by
    obtain rfl | ⟨q, s, rfl⟩ := List.eq_nil_or_concat p
    · exact nofun
    · rw [List.concat_eq_append, List.dropLast_concat]
      rw [List.concat_eq_append] at hp
      rw [ht.inDirectory q s hp]
      exact nofun
  down p s entry _ _ hg _ := by
    rw [hg]
    exact nofun

theorem spot_passed {P : Place → Prop} (hP : t.Passed P)
    (h : t.spot path = .ok (.found place entry)) : P place :=
  follow_passed hP (fun _ ha => not_mem_of_mem_segments ha) hP.root (spot_eq_ok.mp h).2

theorem advance_not_link :
    advance t false here segments ≠ .arrived (.found place (.link target)) := by
  induction segments generalizing here with
  | nil => exact nofun
  | cons s segments ih =>
    simp only [advance]
    generalize here ++ [s] = there
    grind

theorem entryAt_not_link : t.entryAt path ≠ .ok (place, .link target) := by
  intro h
  have hf := (spot_eq_ok.mp (entryAt_eq_ok.mp h)).2
  generalize linkLimit = links at hf
  generalize ([] : Place) = here at hf
  generalize (Path.ofText path).segments = segments at hf
  induction links using Nat.strongRecOn generalizing here segments with
  | _ links ih =>
    obtain ha | ⟨n, directory, target, rest, rfl, -, -, hf⟩ := follow_eq_ok.mp hf
    · exact advance_not_link ha
    · exact ih n (Nat.lt_succ_self n) _ _ hf

theorem spot_text_found (ht : t.Sound) (hq : ∀ a ∈ q, IsName a)
    (hl : ∀ p, p <+: q → ¬ t.LinkAt p) :
    t.spot q.text = .ok (.found place entry) ↔ place = q ∧ t.get? q = some entry := by
  have hroot : q = [] → t.spot q.text = .ok (.found [] .directory) := by
    rintro rfl
    rw [spot_text_eq hq]
    exact follow_eq_ok.mpr (.inl rfl)
  have hlink : ∀ e, t.get? q = some e → ∀ target, e ≠ .link target := by
    rintro e he target rfl
    exact hl q (List.prefix_refl _) ⟨target, he⟩
  constructor
  · intro h
    obtain rfl := spot_straight (spells_text hq) hl h rfl
    refine ⟨rfl, ?_⟩
    obtain ⟨e, he⟩ := Option.ne_none_iff_exists'.mp (spot_passed (passed_there ht) h)
    by_cases hne : place = []
    · rw [hroot hne] at h
      cases h
      rfl
    · have hs := spot_text hne hq (fun p hp hn => ht.above (by rw [he]; simp) hp hn) he (hlink e he)
      rw [h] at hs
      cases hs
      exact he
  · rintro ⟨rfl, hg⟩
    by_cases hne : place = []
    · rw [hroot hne]
      subst hne
      cases hg
      rfl
    · exact spot_text hne hq (fun p hp hn => ht.above (by rw [hg]; simp) hp hn) hg (hlink _ hg)

theorem spot_text_directory (ht : t.Sound) (hq : ∀ a ∈ q, IsName a)
    (hl : ∀ p, p <+: q → ¬ t.LinkAt p) :
    t.spot q.text = .ok (.found place .directory) ↔ place = q ∧ t.get? q = some .directory :=
  spot_text_found ht hq hl

theorem spot_text_concat (ht : t.Sound) (hq : ∀ a ∈ q ++ [s], IsName a)
    (hl : ∀ p, p <+: q ++ [s] → ¬ t.LinkAt p) (h : t.spot (Place.text (q ++ [s])) = .ok spot) :
    t.get? q = some .directory ∧
      match t.get? (q ++ [s]) with
      | none => spot = .vacant (q ++ [s]) false
      | some entry => spot = .found (q ++ [s]) entry := by
  have hn : ∀ a ∈ q, IsName a := fun a ha => hq a (List.mem_append_left _ ha)
  have hs : IsName s := hq s (by simp)
  rw [spot_text_eq hq] at h
  obtain ⟨directory, hf⟩ := follow_init hs.not_filler h
  rw [← spot_text_eq hn] at hf
  obtain ⟨rfl, hg⟩ := (spot_text_directory ht hn fun p hp =>
    hl p (hp.trans (List.prefix_append _ _))).mp hf
  rw [spot_text_eq hn] at hf
  obtain ⟨n, -, hm⟩ := follow_append hf
  rw [(hm [s]).1, follow_name ⟨hs.not_filler, hs.not_up⟩] at h
  refine ⟨hg, ?_⟩
  cases he : t.get? (directory ++ [s]) with
  | none =>
    rw [he] at h
    cases h
    rfl
  | some entry =>
    cases entry with
    | link target => exact absurd ⟨target, he⟩ (hl _ (List.prefix_refl _))
    | directory =>
      rw [he] at h
      cases h
      rfl
    | file bytes runnable =>
      rw [he] at h
      cases h
      rfl

theorem makeDirectory_text (ht : t.Sound) (hq : ∀ a ∈ q ++ [s], IsName a)
    (hl : ∀ p, p <+: q ++ [s] → ¬ t.LinkAt p)
    (h : t.makeDirectory (Place.text (q ++ [s])) = .ok t') :
    (t.get? (q ++ [s]) = some .directory ∧ t' = t) ∨
      t.get? q = some .directory ∧ t.get? (q ++ [s]) = none ∧ t' = t.put (q ++ [s]) .directory := by
  unfold makeDirectory at h
  cases hs : t.spot (Place.text (q ++ [s])) with
  | error e => simp [hs, bind, Except.bind] at h
  | ok spot =>
    obtain ⟨hd, hspot⟩ := spot_text_concat ht hq hl hs
    simp only [hs, bind, Except.bind] at h
    cases hg : t.get? (q ++ [s]) with
    | none =>
      rw [hg] at hspot
      rw [hspot] at h
      cases h
      exact .inr ⟨hd, rfl, rfl⟩
    | some entry =>
      rw [hg] at hspot
      rw [hspot] at h
      cases entry with
      | directory =>
        cases h
        exact .inl ⟨rfl, rfl⟩
      | file => cases h
      | link => cases h

section MakeDirectories

variable {I : Tree → Prop}

theorem makeEach_made (hq : ∀ a ∈ q, IsName a)
    (hI : ∀ t, I t → t.Sound ∧ ∀ p, p <+: q → ¬ t.LinkAt p)
    (hput : ∀ t p s, I t → p ++ [s] <+: q → t.get? p = some .directory →
      t.get? (p ++ [s]) = none → I (t.put (p ++ [s]) .directory))
    (hd : done ++ rest = q) (hm : t.makeEach true done rest = .ok t') (hi : I t) :
    I t' ∧ (rest ≠ [] → t'.get? q = some .directory) := by
  induction rest generalizing done t with
  | nil =>
    cases hm
    exact ⟨hi, fun h => absurd rfl h⟩
  | cons s rest ih =>
    rw [List.append_cons] at hd
    have hp : done ++ [s] <+: q := hd ▸ List.prefix_append _ _
    rw [makeEach] at hm
    cases ho : t.makeDirectory (Path.mk true (done ++ [s])).text with
    | error e => simp [ho, bind, Except.bind] at hm
    | ok u =>
      simp only [ho, bind, Except.bind] at hm
      obtain ⟨ht, hl⟩ := hI t hi
      have hu : I u ∧ u.get? (done ++ [s]) = some .directory := by
        obtain ⟨hg, rfl⟩ | ⟨hdir, hg, rfl⟩ := makeDirectory_text ht (fun a ha => hq a (hp.subset ha))
          (fun p hp' => hl p (hp'.trans hp)) ho
        · exact ⟨hi, hg⟩
        · refine ⟨hput t done s hi hp hdir hg, ?_⟩
          rw [get?_put _ _ _ _ (by simp), if_pos rfl]
      obtain ⟨hi', hlast⟩ := ih hd hm hu.1
      refine ⟨hi', fun _ => ?_⟩
      by_cases hrest : rest = []
      · subst hrest
        cases hm
        rw [List.append_nil] at hd
        rw [← hd]
        exact hu.2
      · exact hlast hrest

theorem makeDirectories_made (hne : q ≠ []) (hq : ∀ a ∈ q, IsName a)
    (hI : ∀ t, I t → t.Sound ∧ ∀ p, p <+: q → ¬ t.LinkAt p)
    (hput : ∀ t p s, I t → p ++ [s] <+: q → t.get? p = some .directory →
      t.get? (p ++ [s]) = none → I (t.put (p ++ [s]) .directory))
    (hm : t.makeDirectories q.text = .ok t') (hi : I t) : I t' ∧ t'.get? q = some .directory := by
  have hfilter : q.filter (· ≠ "") = q :=
    List.filter_eq_self.mpr fun a ha => by simpa using (hq a ha).ne_empty
  have hm : t.makeEach (Path.ofText q.text).rooted []
      ((Path.ofText q.text).segments.filter (· ≠ "")) = .ok t' := hm
  rw [(spells_text hq).rooted, segments_text hne hq, hfilter] at hm
  obtain ⟨hi', hd⟩ := makeEach_made hq hI hput (List.nil_append q) hm hi
  exact ⟨hi', hd hne⟩

end MakeDirectories

end Refit.Tree
