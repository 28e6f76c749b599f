import Refit.Proofs.Path.Names
import Refit.Proofs.Tree.Spot

namespace Refit.Tree

open Refit.Path

variable {t : Tree} {last : Bool} {here p q place : Place} {segments : List String} {spot : Spot}
  {path target : String} {links : Nat} {entry : Entry} {bytes : ByteArray} {runnable : Bool}

def LinkAt (t : Tree) (p : Place) : Prop := ∃ target, t.get? p = some (.link target)

/-- What stands at a place and above it is there, and is no link. -/
def Solid (t : Tree) (p : Place) : Prop := ∀ q, q <+: p → t.get? q ≠ none ∧ ¬ t.LinkAt q

/-- No link stands at a place, above it or below it. -/
def Unlinked (t : Tree) (p : Place) : Prop := ∀ q, q <+: p ∨ p <+: q → ¬ t.LinkAt q

/-- A tree as a disk holds it: every entry has a name and stands in a directory. -/
structure Sound (t : Tree) : Prop where
  named : ∀ x ∈ t.entries, ∀ s ∈ x.1, IsName s
  inDirectory : ∀ p s, t.get? (p ++ [s]) ≠ none → t.get? p = some .directory

/-- Paths into a directory stay in it. -/
def Encloses (t : Tree) (directory : Place) : Prop :=
  ∀ path below spot place, Spells path (directory ++ below) → t.spot path = .ok spot →
    spot.place? = some place → directory <+: place

theorem not_linkAt_nil (t : Tree) : ¬ t.LinkAt [] := nofun

theorem solid_nil (t : Tree) : t.Solid [] := by
  intro q hq
  rw [List.prefix_nil.mp hq]
  exact ⟨nofun, t.not_linkAt_nil⟩

theorem Solid.of_prefix (h : t.Solid p) (hq : q <+: p) : t.Solid q := fun _ hr => h _ (hr.trans hq)

theorem Solid.concat {s : String} (h : t.Solid p) (hs : t.get? (p ++ [s]) = some entry)
    (hl : ¬ t.LinkAt (p ++ [s])) : t.Solid (p ++ [s]) := by
  intro q hq
  obtain rfl | hq := List.prefix_concat_iff.mp hq
  · exact ⟨by rw [hs]; exact nofun, hl⟩
  · exact h q hq

theorem Solid.unlinked (h : t.Solid p) (hl : ∀ q, p <+: q → ¬ t.LinkAt q) : t.Unlinked p :=
  fun q hq => hq.elim (fun hq => (h q hq).2) (hl q)

theorem Unlinked.not_linkAt {below : Place} (h : t.Unlinked p) (hq : q <+: p ++ below) :
    ¬ t.LinkAt q :=
  h q (List.prefix_or_prefix_of_prefix hq (List.prefix_append p below))

theorem Sound.above (h : t.Sound) (hp : t.get? p ≠ none) (hq : q <+: p) (hne : q ≠ p) :
    t.get? q = some .directory := by
  obtain ⟨rest, rfl⟩ := hq
  induction rest generalizing q with
  | nil => exact absurd (List.append_nil q).symm hne
  | cons s rest ih =>
    refine h.inDirectory q s ?_
    rw [List.append_cons] at hp
    by_cases hr : rest = []
    · rwa [hr, List.append_nil] at hp
    · rw [ih hp (by simpa using hr)]
      exact nofun

theorem advance_straight (hu : ".." ∉ segments)
    (hl : ∀ p, p <+: (segments.filter fun s => !isFiller s) → p ≠ [] → t.LinkAt (here ++ p) →
      last = true ∧ p = segments) :
    (∃ spot, advance t last here segments = .arrived spot ∧
      ∀ place, spot.place? = some place → place = here ++ segments.filter fun s => !isFiller s) ∨
    ∃ error, advance t last here segments = .failed error := by
  induction segments generalizing here with
  | nil =>
    refine .inl ⟨_, rfl, fun place hp => ?_⟩
    cases hp
    exact (List.append_nil here).symm
  | cons s rest ih =>
    obtain ⟨hs, hr⟩ := not_or.mp (mt List.mem_cons.mpr hu)
    by_cases hf : isFiller s = true
    · simp only [advance, if_pos hf]
      rw [List.filter_cons_of_neg (by simp [hf])] at hl ⊢
      refine ih hr fun p hp hne ha => ?_
      -- a link stands at a name, and the text up to it is written with a filler
      obtain ⟨-, rfl⟩ := hl p hp hne ha
      have hm := List.mem_filter.mp (hp.subset List.mem_cons_self)
      simp [hf] at hm
    · have hn : ((s :: rest).filter fun s => !isFiller s) =
          s :: rest.filter fun s => !isFiller s := List.filter_cons_of_pos (by simp [hf])
      simp only [advance, if_neg hf, if_neg (Ne.symm hs)]
      rw [hn] at hl ⊢
      have hall : rest.all (· == "") = true → (rest.filter fun s => !isFiller s) = [] := by
        intro ha
        refine List.filter_eq_nil_iff.mpr fun a hm => ?_
        simp [isFiller, List.all_eq_true.mp ha a hm]
      cases he : t.get? (here ++ [s]) with
      | none =>
        dsimp only
        split
        · refine .inl ⟨_, rfl, fun place hp => ?_⟩
          cases hp
          rw [hall ‹_›]
        · exact .inr ⟨_, rfl⟩
      | some entry =>
        cases entry with
        | directory =>
          have ih := @ih (here ++ [s]) hr fun p hp hne ha => by
            have hp' := hl (s :: p) (List.cons_prefix_cons.mpr ⟨rfl, hp⟩) (by simp)
              (by simpa using ha)
            exact ⟨hp'.1, (List.cons.inj hp'.2).2⟩
          simpa using ih
        | file bytes runnable =>
          dsimp only
          split
          · rename_i hr
            subst hr
            exact .inl ⟨_, rfl, fun place hp => by cases hp; rfl⟩
          · split
            · exact .inl ⟨_, rfl, fun place hp => by cases hp⟩
            · exact .inr ⟨_, rfl⟩
        | link target =>
          obtain ⟨hlast, hr⟩ := hl [s] (by simp) (by simp) ⟨target, he⟩
          obtain rfl : rest = [] := (List.cons.inj hr).2.symm
          subst hlast
          exact .inl ⟨_, rfl, fun place hp => by cases hp; rfl⟩

theorem follow_straight (hu : ".." ∉ segments)
    (hl : ∀ p, p <+: (segments.filter fun s => !isFiller s) → p ≠ [] → t.LinkAt (here ++ p) →
      last = true ∧ p = segments)
    (h : follow t last links here segments = .ok spot) (hp : spot.place? = some place) :
    place = here ++ segments.filter fun s => !isFiller s := by
  have ha := advance_straight hu hl
  obtain h | ⟨_, _, _, _, -, -, h, -⟩ := follow_eq_ok.mp h
  · rw [h] at ha
    obtain ⟨spot', hs, hplace⟩ | ⟨error, he⟩ := ha
    · cases hs
      exact hplace place hp
    · cases he
  · rw [h] at ha
    obtain ⟨_, hs, -⟩ | ⟨_, he⟩ := ha
    · cases hs
    · cases he

/-- A path that meets no link leads to the place that its names spell. -/
theorem spot_straight (h : Spells path q) (hl : ∀ p, p <+: q → ¬ t.LinkAt p)
    (hs : t.spot path = .ok spot) (hp : spot.place? = some place) : place = q := by
  have hf := (spot_eq_ok.mp hs).2
  have hn : ((ofText path).segments.filter fun s => !isFiller s) = q := h.names
  have hplace := follow_straight h.up_not_mem (fun p hp _ ha => by
    rw [hn] at hp
    exact absurd ha (hl p hp)) hf hp
  rw [hplace, hn]
  rfl

theorem spotOfLink_eq_ok : t.spotOfLink path = .ok spot ↔
    path ≠ "" ∧ follow t true linkLimit [] (ofText path).segments = .ok spot := by
  unfold spotOfLink spotFrom
  by_cases hp : path = "" <;> simp [hp]

theorem spotOfLink_straight (hne : q ≠ []) (hq : ∀ s ∈ q, IsName s)
    (hl : ∀ p, p <+: q → p ≠ q → ¬ t.LinkAt p)
    (hs : t.spotOfLink (Place.text q) = .ok spot) (hp : spot.place? = some place) : place = q := by
  have hf := (spotOfLink_eq_ok.mp hs).2
  have hn : (q.filter fun s => !isFiller s) = q :=
    List.filter_eq_self.mpr fun s hs => by simp [(hq s hs).not_filler]
  rw [segments_text hne hq] at hf
  have hplace := follow_straight (fun hm => (hq _ hm).not_up rfl) (fun p hp _ ha => by
    rw [hn] at hp
    exact ⟨rfl, Classical.byContradiction fun hpq => hl p hp hpq ha⟩) hf hp
  rw [hplace, hn]
  rfl

theorem Unlinked.encloses (h : t.Unlinked q) : t.Encloses q := by
  intro path below spot place hs ht hp
  have hplace := spot_straight hs (fun p hp => h.not_linkAt hp) ht hp
  rw [hplace]
  exact List.prefix_append q below

theorem Encloses.put (h : t.Encloses q) (hp : TakesFile t p) :
    (t.put p (.file bytes runnable)).Encloses q := by
  intro path below spot place hs ht hplace
  obtain ⟨spot, ht, hplace⟩ := spot_put_place hp ht hplace
  exact h path below spot place hs ht hplace

theorem advance_through {above rest : List String} (hq : ∀ s ∈ above, IsName s)
    (hd : ∀ p, p <+: above → p ≠ [] → t.get? (here ++ p) = some .directory) :
    advance t last here (above ++ rest) = advance t last (here ++ above) rest := by
  induction above generalizing here with
  | nil => rw [List.nil_append, List.append_nil]
  | cons s above ih =>
    have hs := hq s List.mem_cons_self
    simp only [List.cons_append, advance, hs.not_filler, if_neg hs.not_up]
    rw [hd [s] (by simp) (by simp)]
    have hbelow := @ih (here ++ [s]) (fun a ha => hq a (List.mem_cons_of_mem _ ha)) fun p hp hne => by
      simpa using hd (s :: p) (List.cons_prefix_cons.mpr ⟨rfl, hp⟩) (by simp)
    simpa using hbelow

theorem advance_to (hne : segments ≠ []) (hq : ∀ s ∈ segments, IsName s)
    (hd : ∀ p, p <+: segments → p ≠ [] → p ≠ segments → t.get? (here ++ p) = some .directory) :
    ∃ above s, segments = above ++ [s] ∧ IsName s ∧
      advance t last here segments = advance t last (here ++ above) [s] := by
  obtain rfl | ⟨above, s, hs⟩ := List.eq_nil_or_concat segments
  · exact absurd rfl hne
  · rw [List.concat_eq_append] at hs
    subst hs
    refine ⟨above, s, rfl, hq s (by simp), advance_through (fun a ha => hq a (by simp [ha])) ?_⟩
    intro p hp hpn
    refine hd p (hp.trans (List.prefix_append _ _)) hpn fun he => ?_
    have hlen := hp.length_le
    rw [he, List.length_append, List.length_singleton] at hlen
    omega

theorem advance_names (hne : segments ≠ []) (hq : ∀ s ∈ segments, IsName s)
    (hd : ∀ p, p <+: segments → p ≠ [] → p ≠ segments → t.get? (here ++ p) = some .directory)
    (he : t.get? (here ++ segments) = some entry)
    (hl : last = true ∨ ∀ target, entry ≠ .link target) :
    advance t last here segments = .arrived (.found (here ++ segments) entry) := by
  obtain ⟨above, s, rfl, hs, ha⟩ := @advance_to t last here segments hne hq hd
  rw [← List.append_assoc] at he ⊢
  rw [ha]
  simp only [advance, hs.not_filler, if_neg hs.not_up, he]
  cases entry with
  | directory => rfl
  | file bytes runnable => rfl
  | link target =>
    obtain rfl | hl := hl
    · rfl
    · exact absurd rfl (hl target)

theorem advance_free (hne : segments ≠ []) (hq : ∀ s ∈ segments, IsName s)
    (hd : ∀ p, p <+: segments → p ≠ [] → p ≠ segments → t.get? (here ++ p) = some .directory)
    (he : t.get? (here ++ segments) = none) :
    advance t last here segments = .arrived (.vacant (here ++ segments) false) := by
  obtain ⟨above, s, rfl, hs, ha⟩ := @advance_to t last here segments hne hq hd
  rw [← List.append_assoc] at he ⊢
  rw [ha]
  simp only [advance, hs.not_filler, if_neg hs.not_up, he]
  rfl

theorem follow_names (hne : q ≠ []) (hq : ∀ s ∈ q, IsName s)
    (hd : ∀ p, p <+: q → p ≠ q → t.get? p = some .directory) (he : t.get? q = some entry)
    (hl : last = true ∨ ∀ target, entry ≠ .link target) :
    follow t last links [] q = .ok (.found q entry) :=
  follow_eq_ok.mpr (.inl (advance_names hne hq (fun p hp _ hn => hd p hp hn) he hl))

theorem spot_text (hne : q ≠ []) (hq : ∀ s ∈ q, IsName s)
    (hd : ∀ p, p <+: q → p ≠ q → t.get? p = some .directory) (he : t.get? q = some entry)
    (hl : ∀ target, entry ≠ .link target) : t.spot q.text = .ok (.found q entry) := by
  refine spot_eq_ok.mpr ⟨(spells_text hq).ne_empty, ?_⟩
  rw [segments_text hne hq]
  exact follow_names hne hq hd he (.inr hl)

theorem spotOfLink_text (hne : q ≠ []) (hq : ∀ s ∈ q, IsName s)
    (hd : ∀ p, p <+: q → p ≠ q → t.get? p = some .directory) (he : t.get? q = some entry) :
    t.spotOfLink q.text = .ok (.found q entry) := by
  refine spotOfLink_eq_ok.mpr ⟨(spells_text hq).ne_empty, ?_⟩
  rw [segments_text hne hq]
  exact follow_names hne hq hd he (.inl rfl)

section Reached

/-- What holds of the places that a walk goes through. -/
structure Passed (t : Tree) (P : Place → Prop) : Prop where
  root : P []
  up : ∀ p, P p → P p.dropLast
  down : ∀ p s entry, P p → IsName s → t.get? (p ++ [s]) = some entry →
    ¬ t.LinkAt (p ++ [s]) → P (p ++ [s])

variable {P : Place → Prop} {directory : Place} {rest : List String}

theorem advance_found_passed (hP : t.Passed P) (hs : ∀ s ∈ segments, '/' ∉ s.toList) (hh : P here)
    (h : advance t false here segments = .arrived (.found place entry)) : P place := by
  induction segments generalizing here with
  | nil =>
    cases h
    exact hh
  | cons s segments ih =>
    have ih := fun here => @ih here fun a ha => hs a (List.mem_cons_of_mem _ ha)
    have hs := hs s List.mem_cons_self
    have hd := hP.down here s
    have hu := hP.up here hh
    simp only [advance] at h
    simp only [LinkAt] at hd
    generalize here ++ [s] = there at h hd
    grind [IsName]

theorem advance_linked_passed (hP : t.Passed P) (hs : ∀ s ∈ segments, '/' ∉ s.toList) (hh : P here)
    (h : advance t false here segments = .linked directory target rest) :
    P directory ∧ ∀ s ∈ rest, '/' ∉ s.toList := by
  induction segments generalizing here with
  | nil => cases h
  | cons s segments ih =>
    have hr := fun a ha => hs a (List.mem_cons_of_mem _ ha)
    have ih := fun here => @ih here hr
    have hs := hs s List.mem_cons_self
    have hd := hP.down here s
    have hu := hP.up here hh
    simp only [advance] at h
    simp only [LinkAt] at hd
    generalize here ++ [s] = there at h hd
    grind [IsName]

theorem follow_passed (hP : t.Passed P) (hs : ∀ s ∈ segments, '/' ∉ s.toList) (hh : P here)
    (h : follow t false links here segments = .ok (.found place entry)) : P place := by
  induction links using Nat.strongRecOn generalizing here segments with
  | _ links ih =>
    obtain ha | ⟨n, directory, target, rest, rfl, -, ha, hf⟩ := follow_eq_ok.mp h
    · exact advance_found_passed hP hs hh ha
    · obtain ⟨hd, hr⟩ := advance_linked_passed hP hs hh ha
      refine ih n (Nat.lt_succ_self n) (fun a ha => ?_) ?_ hf
      · obtain ha | ha := List.mem_append.mp ha
        · exact not_mem_of_mem_segments ha
        · exact hr a ha
      · split
        · exact hP.root
        · exact hd

theorem canonical_eq_ok {start : Place} :
    t.canonical start path = .ok place ↔
      ∃ entry, t.spotFrom false start path = .ok (.found place entry) := by
  unfold canonical
  cases hs : t.spotFrom false start path with
  | error e => simp [bind, Except.bind]
  | ok spot => cases spot <;> simp [bind, Except.bind, Spot.entry, pure, Except.pure]

theorem spotFrom_eq_ok {start : Place} :
    t.spotFrom last start path = .ok spot ↔ path ≠ "" ∧
      follow t last linkLimit (if (ofText path).rooted then [] else start) (ofText path).segments =
        .ok spot := by
  unfold spotFrom
  by_cases hp : path = "" <;> simp [hp]

theorem canonical_passed {start : Place} (hP : t.Passed P) (hh : P start)
    (h : t.canonical start path = .ok place) : P place := by
  obtain ⟨entry, h⟩ := canonical_eq_ok.mp h
  refine follow_passed hP (fun a ha => not_mem_of_mem_segments ha) ?_ (spotFrom_eq_ok.mp h).2
  split
  · exact hP.root
  · exact hh

theorem passed_names (t : Tree) : t.Passed fun p => ∀ s ∈ p, IsName s where
  root := nofun
  up _ hp s hs := hp s (List.dropLast_subset _ hs)
  down p s _ hp hs _ _ := by
    intro a ha
    obtain ha | ha := List.mem_append.mp ha
    · exact hp a ha
    · rwa [List.mem_singleton.mp ha]

theorem passed_solid (t : Tree) : t.Passed t.Solid where
  root := t.solid_nil
  up _ hp := hp.of_prefix (List.dropLast_prefix _)
  down _ _ _ hp _ he hl := hp.concat he hl

end Reached

end Refit.Tree
